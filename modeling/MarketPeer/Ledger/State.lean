import MarketPeer.Contracts.Syntax
import MarketPeer.Go.Encoding
import Std.Data.ExtTreeMap

/-!
# Storage, accounts and world states

`blockchain/storage` and `blockchain/account`. A world state maps an address
string to an account. `Env` is what the ledger takes from outside the
repository: hashing, signatures, and the decoder of contract code.
-/

namespace MarketPeer.Ledger

open MarketPeer.Contracts

structure Env (F : Type) where
  sha256 : Bytes → Bytes
  /-- `crypto.Ecrecover(digest, signature)` -/
  ecrecover : Bytes → Bytes → Res F Bytes
  /-- `crypto.VerifySignature(publicKey, digest, signature)` -/
  verifySignature : Bytes → Bytes → Bytes → Bool
  /-- `json.Unmarshal` of contract code -/
  unmarshalContract : String → Res F (Contract F)

/-! ## SimpleKV -/

structure SimpleKV (V : Type) where
  internal : Std.ExtTreeMap String V

namespace SimpleKV

variable {F V : Type}

def new : SimpleKV V := ⟨∅⟩

def get? (kv : SimpleKV V) (key : String) : Option V := kv.internal[key]?

def get (kv : SimpleKV V) (key : String) : Res F V :=
  (kv.get? key).elim (.err (.sentinel .keyNotFound)) .ok

def put (kv : SimpleKV V) (key : String) (value : V) : SimpleKV V := ⟨kv.internal.insert key value⟩

/-- The bytes that `Hash` feeds to SHA-256: each key and the JSON of its value, in key
order. `none` when a value cannot be marshalled. -/
def preimage (json : V → Option String) (kv : SimpleKV V) : Option Bytes :=
  kv.internal.toList.foldr
    (fun e acc => do
      let rest ← acc
      let v ← json e.2
      return stringBytes e.1 ++ stringBytes v ++ rest)
    (some [])

/-- `Hash` panics on a value that cannot be marshalled. -/
def hash (env : Env F) (json : V → Option String) (kv : SimpleKV V) : Res F String :=
  (kv.preimage json).elim (.panic "json: unsupported value") fun bs => .ok (hexEncode (env.sha256 bs))

@[simp] theorem get?_put (kv : SimpleKV V) (key k : String) (value : V) :
    (kv.put key value).get? k = if key = k then some value else kv.get? k := by
  simp [get?, put, Std.ExtTreeMap.getElem?_insert]

end SimpleKV

/-! ## Addresses -/

/-- The eight bytes and their hex form. A message carries both, and nothing ties them. -/
structure Address where
  addr : Vector UInt8 8
  hex : String
  deriving DecidableEq, Repr

namespace Address

def new (addr : Vector UInt8 8) : Address := ⟨addr, hexEncode addr.toList⟩

/-- `NewAddressFromPublicKey`: the last eight bytes of the hash. -/
def newFromPublicKey {F : Type} (env : Env F) (pub : Bytes) : Address :=
  let hash := env.sha256 pub
  let tail := hash.drop (hash.length - 8)
  new (Vector.ofFn fun i => tail.getD i 0)

def string (a : Address) : String := hexEncode a.addr.toList

/-- `Equal` looks at the hex form only. -/
def equal (a other : Address) : Bool := a.hex = other.hex

def isContract (a : Address) : Bool := (a.addr.toList.take 4).all (· = 0)

def json (a : Address) : String :=
  jsonObject [("Addr", jsonArray (a.addr.toList.map fun b => toString b.toNat)), ("Hex", jsonString a.hex)]

@[simp] theorem new_string (addr : Vector UInt8 8) : (new addr).string = (new addr).hex := rfl

@[simp] theorem newFromPublicKey_string {F : Type} (env : Env F) (pub : Bytes) :
    (newFromPublicKey env pub).string = (newFromPublicKey env pub).hex := rfl

end Address

/-! ## Account states -/

variable {F : Type}

structure State (F : Type) where
  nonce : UInt64
  balance : UInt64
  storageRoot : SimpleKV (Value F)
  code : String

def storageJson [Float64 F] (kv : SimpleKV (Value F)) : Option String := do
  let fields ← Value.jsonFields kv.internal.toList
  return jsonObject [("Internal", jsonObject fields)]

def State.json [Float64 F] (s : State F) : Option String := do
  let root ← storageJson s.storageRoot
  return jsonObject [("Nonce", jsonUint s.nonce), ("Balance", jsonUint s.balance),
    ("StorageRoot", root), ("Code", jsonString s.code)]

/-! ## World states -/

/-- A value of the world state: an account, or something that is not a `*account.State`. -/
inductive Entry (F : Type) where
  | account (s : State F)
  | other (v : Value F)

def Entry.json [Float64 F] : Entry F → Option String
  | .account s => s.json
  | .other v => v.json

/-- Every world state that transactions run on is a fresh `Copy()`, so two keys never share an
account and a pointer to an account is its key. -/
abbrev World (F : Type) := SimpleKV (Entry F)

namespace World

def hash [Float64 F] (env : Env F) (w : World F) : Res F String := SimpleKV.hash env Entry.json w

def account? (w : World F) (key : String) : Option (State F) :=
  match w.get? key with
  | some (.account s) => some s
  | _ => none

def update (w : World F) (key : String) (f : State F → State F) : World F :=
  match w.get? key with
  | some (.account s) => w.put key (.account (f s))
  | _ => w

/-- The lookup and the type assertion in front of most functions of `execute.go`, with the two
error formats of the caller. The account that the second one prints is left out. -/
def lookup (w : World F) (key missing corrupted : String) : Res F (State F) :=
  match w.get? key with
  | none => .err (.wrap missing [] (.sentinel .keyNotFound))
  | some (.account s) => .ok s
  | some (.other _) => .err (.errorf corrupted [])

theorem account?_put_account (w : World F) (key k : String) (s : State F) :
    account? (SimpleKV.put w key (.account s)) k = if key = k then some s else w.account? k := by
  by_cases h : key = k <;> simp [account?, h]

theorem account?_eq_some (w : World F) (key : String) (s : State F) :
    w.account? key = some s ↔ w.get? key = some (.account s) := by
  unfold account?
  split <;> simp_all

theorem update_of_account (w : World F) (key : String) (f : State F → State F) (s : State F)
    (h : w.account? key = some s) : w.update key f = w.put key (.account (f s)) := by
  rw [account?_eq_some] at h
  simp [update, h]

theorem account?_update (w : World F) (key k : String) (f : State F → State F) :
    (w.update key f).account? k = if key = k then (w.account? k).map f else w.account? k := by
  cases h : w.account? key with
  | some s =>
    rw [update_of_account w key f s h, account?_put_account]
    by_cases hk : key = k
    · subst hk; simp [h]
    · simp [hk]
  | none =>
    have hw : w.update key f = w := by
      unfold account? at h
      unfold update
      split at h <;> simp_all
    by_cases hk : key = k
    · subst hk; simp [hw, h]
    · simp [hw, hk]

theorem lookup_eq_ok (w : World F) (key missing corrupted : String) (s : State F) :
    w.lookup key missing corrupted = .ok s ↔ w.account? key = some s := by
  unfold lookup account?
  split <;> simp_all

theorem lookup_cases (w : World F) (key missing corrupted : String) :
    (∃ s, w.lookup key missing corrupted = .ok s ∧ w.account? key = some s) ∨
      ∃ e, w.lookup key missing corrupted = .err e ∧ w.account? key = none := by
  unfold lookup account?
  split <;> simp_all

end World

end MarketPeer.Ledger

import MarketPeer.Ledger.Miner

/-!
# Values on the wire

What `encoding/json` makes of a block: the text is left out, each value goes to the
value that it is decoded to. An account comes out as a generic map, and every number
as a `float64`.
-/

namespace MarketPeer.Ledger

variable {F : Type} [Float64 F]

mutual

def wireValue : Value F → Value F
  | .int i => .float (Float64.ofInt i)
  | .arr vs => .arr (wireList vs)
  | .obj fields => .obj (wireFields fields)
  | v => v

def wireList : List (Value F) → List (Value F)
  | [] => []
  | v :: vs => wireValue v :: wireList vs

def wireFields : List (String × Value F) → List (String × Value F)
  | [] => []
  | (k, v) :: fields => (k, wireValue v) :: wireFields fields

end

def State.wire (s : State F) : Value F :=
  .obj [("Balance", .float (Float64.ofUint s.balance)), ("Code", .str s.code),
    ("Nonce", .float (Float64.ofUint s.nonce)),
    ("StorageRoot", .obj [("Internal", .obj (wireFields s.storageRoot.internal.toList))])]

def Entry.wire : Entry F → Value F
  | .account s => s.wire
  | .other v => wireValue v

/-- The object of a `SimpleKV` of accounts. -/
def World.wire (w : World F) : SimpleKV (Value F) := ⟨w.internal.map fun _ e => e.wire⟩

def SignedTransaction.wire (t : SignedTransaction F) : SignedTransaction F :=
  { t with txn := { t.txn with storeV := wireValue t.txn.storeV } }

mutual

/-- What was decoded once stays as it is. -/
theorem wireValue_wireValue : ∀ v : Value F, wireValue (wireValue v) = wireValue v
  | .null => rfl
  | .bool _ => rfl
  | .int _ => rfl
  | .float _ => rfl
  | .str _ => rfl
  | .arr vs => by simp only [wireValue, wireList_wireList vs]
  | .obj fields => by simp only [wireValue, wireFields_wireFields fields]

theorem wireList_wireList : ∀ vs : List (Value F), wireList (wireList vs) = wireList vs
  | [] => rfl
  | v :: vs => by simp only [wireList, wireValue_wireValue v, wireList_wireList vs]

theorem wireFields_wireFields : ∀ fields : List (String × Value F),
    wireFields (wireFields fields) = wireFields fields
  | [] => rfl
  | (k, v) :: fields => by simp only [wireFields, wireValue_wireValue v, wireFields_wireFields fields]

end

@[simp] theorem SignedTransaction.wire_wire (t : SignedTransaction F) : t.wire.wire = t.wire := by
  simp only [wire, wireValue_wireValue]

/-- Decoding into a field of the interface type `storage.KV` that holds `target`: `null` makes it
nil, and an object needs something to be decoded into. -/
def decodeKV (target json : Option (SimpleKV (Value F))) : Res F (Option (SimpleKV (Value F))) :=
  match json, target with
  | none, _ => .ok none
  | some _, none => .err (.errorf "json: cannot unmarshal object into Go value of type storage.KV" [])
  | some kv, some _ => .ok (some kv)

/-- The state of a `BlockMessage` as the registry decodes it: `NewEmpty` has an empty `SimpleKV`. -/
def decodeBlockState (w : World F) : Res F (Option (SimpleKV (Value F))) := decodeKV (some .new) (some w.wire)

/-- A `BlockMessage` of a block on the way from `sender`, as it is decoded. -/
def Block.message (sender : String) (b : Block F) : Res F (BlockMessage F) := do
  let state ← decodeBlockState b.state
  return ⟨sender, b.header, state, b.transactions.map (Option.map SignedTransaction.wire)⟩

end MarketPeer.Ledger

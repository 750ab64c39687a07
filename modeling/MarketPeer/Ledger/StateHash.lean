import MarketPeer.Ledger.Commitment
import MarketPeer.Ledger.RoundTrip
import MarketPeer.Lib.Chunks

/-!
# What the hash of an account separates

`SimpleKV.Hash` and `State.Hash` write their parts one after the other, and nothing says
where a key, a value or a number ends. Two contents have one hash when they write one text.
-/

namespace MarketPeer.Ledger

variable {F V : Type} {env : Env F}

/-! ## The hash of an account -/

/-- `strconv.Itoa` -/
def itoa (i : Int64) : String := toString i.toInt

theorem itoa_injective {i j : Int64} (h : itoa i = itoa j) : i = j := Int64.toInt_inj.mp (Int.repr_injective h)

theorem toInt64_injective {u v : UInt64} (h : u.toInt64 = v.toInt64) : u = v :=
  UInt64.toBitVec_inj.mp (congrArg Int64.toBitVec h)

namespace State

variable [Float64 F]

def storageHash (env : Env F) (s : State F) : Res F String := s.storageRoot.hash env Value.json

/-- What `Hash` writes before the hash of the storage. A large balance or nonce is a negative number. -/
def written (s : State F) : String := itoa s.balance.toInt64 ++ itoa s.nonce.toInt64 ++ s.code

def hash (env : Env F) (s : State F) : Res F String := do
  let storage ← s.storageHash env
  return hexEncode (env.sha256 (stringBytes (itoa s.balance.toInt64) ++ stringBytes (itoa s.nonce.toInt64) ++
    stringBytes s.code ++ stringBytes storage))

end State

/-! ## The text of a storage -/

/-- Each key and the JSON of its value, as they are written. -/
def kvPieces (json : V → Option String) (kv : SimpleKV V) : List (List Char) :=
  kv.internal.toList.flatMap fun e => [e.1.toList, ((json e.2).getD "").toList]

/-- Where the keys and the values end in the text. -/
def cuts (json : V → Option String) (kv : SimpleKV V) : List Nat := (kvPieces json kv).map List.length

theorem flatten_kvPieces (json : V → Option String) (kv : SimpleKV V) :
    (kvPieces json kv).flatten = kvText json kv := by
  unfold kvPieces kvText
  rw [← List.flatMap_id, List.flatMap_assoc]
  congr 1
  funext e
  simp

/-- Different values have different JSON. -/
def JsonSeparates (json : V → Option String) (kv kv' : SimpleKV V) : Prop :=
  ∀ e ∈ kv.internal.toList, ∀ e' ∈ kv'.internal.toList, json e.2 = json e'.2 → e.2 = e'.2

/-- The hashed bytes. -/
def kvBytes (json : V → Option String) (kv : SimpleKV V) : Bytes := stringBytes (String.ofList (kvText json kv))

theorem kvBytes_inj (json : V → Option String) (kv kv' : SimpleKV V) :
    kvBytes json kv = kvBytes json kv' ↔ kvText json kv = kvText json kv' := by
  constructor
  · intro h
    exact String.ofList_injective (stringBytes_injective h)
  · intro h
    unfold kvBytes
    rw [h]

theorem map_eq_imp_eq {α β : Type} {f : α → β} {l l' : List α} (h : l.map f = l'.map f)
    (hf : ∀ a ∈ l, ∀ b ∈ l', f a = f b → a = b) : l = l' := by
  induction l generalizing l' with
  | nil => exact (List.map_eq_nil_iff.mp h.symm).symm
  | cons a l ih =>
    cases l' with
    | nil => cases h
    | cons b l' =>
      obtain ⟨hhead, htail⟩ := List.cons.inj h
      rw [hf a List.mem_cons_self b List.mem_cons_self hhead,
        ih htail fun x hx y hy => hf x (List.mem_cons_of_mem a hx) y (List.mem_cons_of_mem b hy)]

section Storage

variable {json : V → Option String} {kv kv' : SimpleKV V} {h h' : String}

/-- A text that is cut in one way is the text of one map. -/
theorem kv_eq_of_text (hjson : JsonSeparates json kv kv') (hsome : ∀ e ∈ kv.internal.toList, (json e.2).isSome)
    (hsome' : ∀ e ∈ kv'.internal.toList, (json e.2).isSome) (htext : kvText json kv = kvText json kv')
    (hcuts : cuts json kv = cuts json kv') : kv = kv' := by
  have hpieces : kvPieces json kv = kvPieces json kv' := by
    rw [List.eq_iff_flatten_eq, flatten_kvPieces, flatten_kvPieces]
    exact ⟨htext, hcuts⟩
  have hmap := map_eq_of_flatMap_eq (n := 2) (by decide) (fun _ => rfl) hpieces
  have hlist : kv.internal.toList = kv'.internal.toList := by
    apply map_eq_imp_eq hmap
    intro e he e' he' heq
    obtain ⟨hkey, heq⟩ := List.cons.inj heq
    have htexts := String.toList_inj.mp (List.cons.inj heq).1
    obtain ⟨t, ht⟩ := Option.isSome_iff_exists.mp (hsome e he)
    obtain ⟨t', ht'⟩ := Option.isSome_iff_exists.mp (hsome' e' he')
    rw [ht, ht', Option.getD_some, Option.getD_some] at htexts
    have hvalue := hjson e he e' he' (by rw [ht, ht', htexts])
    exact Prod.ext (String.toList_inj.mp hkey) hvalue
  exact congrArg SimpleKV.mk (Std.ExtTreeMap.toList_inj.mp hlist)

theorem kv_hash_eq_ok : kv.hash env json = .ok h ↔
    (∀ e ∈ kv.internal.toList, (json e.2).isSome) ∧ h = hexEncode (env.sha256 (kvBytes json kv)) := by
  rw [hash_eq_ok]
  constructor
  · rintro ⟨bs, hbs, heq⟩
    obtain ⟨hsome, rfl⟩ := (preimage_eq_some ..).mp hbs
    exact ⟨hsome, heq⟩
  · rintro ⟨hsome, heq⟩
    exact ⟨_, (preimage_eq_some ..).mpr ⟨hsome, rfl⟩, heq⟩

theorem kv_hash_eq_iff (hfree : CollisionFree env [kvBytes json kv, kvBytes json kv']) (hh : kv.hash env json = .ok h)
    (hh' : kv'.hash env json = .ok h') : h = h' ↔ kvText json kv = kvText json kv' := by
  obtain ⟨-, rfl⟩ := kv_hash_eq_ok.mp hh
  obtain ⟨-, rfl⟩ := kv_hash_eq_ok.mp hh'
  rw [← kvBytes_inj]
  constructor
  · intro heq
    exact hfree _ (by simp) _ (by simp) (hexEncode_injective heq)
  · intro heq
    rw [heq]

/-- When two texts are the texts of the same map. -/
def SameCuts (json : V → Option String) (kv kv' : SimpleKV V) : Prop :=
  kvText json kv = kvText json kv' → cuts json kv = cuts json kv'

theorem kv_hash_separates (hfree : CollisionFree env [kvBytes json kv, kvBytes json kv'])
    (hjson : JsonSeparates json kv kv') (hh : kv.hash env json = .ok h) (hh' : kv'.hash env json = .ok h') :
    (h = h' → kv = kv') ↔ SameCuts json kv kv' := by
  rw [kv_hash_eq_iff hfree hh hh']
  constructor
  · intro hseparates htext
    rw [hseparates htext]
  · intro hcuts htext
    exact kv_eq_of_text hjson (kv_hash_eq_ok.mp hh).1 (kv_hash_eq_ok.mp hh').1 htext (hcuts htext)

end Storage

/-! ## Accounts -/

section Account

variable [Float64 F] {s t : State F} {h h' : String}

/-- The hashed bytes. -/
def State.bytes (env : Env F) (s : State F) : Bytes :=
  stringBytes (s.written ++ hexEncode (env.sha256 (kvBytes Value.json s.storageRoot)))

theorem state_hash_eq_ok : s.hash env = .ok h ↔
    (∀ e ∈ s.storageRoot.internal.toList, (Value.json e.2).isSome) ∧ h = hexEncode (env.sha256 (s.bytes env)) := by
  simp only [State.hash, State.storageHash, Outcome.bind_eq_ok, Outcome.pure_eq, Outcome.ok.injEq, kv_hash_eq_ok,
    State.bytes, State.written, stringBytes_append]
  constructor
  · rintro ⟨storage, ⟨hsome, rfl⟩, rfl⟩
    exact ⟨hsome, rfl⟩
  · rintro ⟨hsome, rfl⟩
    exact ⟨_, ⟨hsome, rfl⟩, rfl⟩

theorem state_hash_eq_iff (hlen : ∀ bs, (env.sha256 bs).length = 32)
    (hfree : CollisionFree env
      [kvBytes Value.json s.storageRoot, kvBytes Value.json t.storageRoot, s.bytes env, t.bytes env])
    (hh : s.hash env = .ok h) (hh' : t.hash env = .ok h') :
    h = h' ↔ s.written = t.written ∧ kvText Value.json s.storageRoot = kvText Value.json t.storageRoot := by
  obtain ⟨-, rfl⟩ := state_hash_eq_ok.mp hh
  obtain ⟨-, rfl⟩ := state_hash_eq_ok.mp hh'
  rw [← kvBytes_inj]
  constructor
  · intro heq
    have hbytes := hfree _ (by simp) _ (by simp) (hexEncode_injective heq)
    obtain ⟨hwritten, hstorage⟩ := append_inj_right _ _ _ _ (stringBytes_injective hbytes)
      (by rw [length_hexEncode, length_hexEncode, hlen, hlen])
    exact ⟨hwritten, hfree _ (by simp) _ (by simp) (hexEncode_injective hstorage)⟩
  · rintro ⟨hwritten, hstorage⟩
    unfold State.bytes
    rw [hwritten, hstorage]

/-- The digits of the two numbers end at the same places. -/
structure SameWidths (s t : State F) : Prop where
  balance : (itoa s.balance.toInt64).length = (itoa t.balance.toInt64).length
  nonce : (itoa s.nonce.toInt64).length = (itoa t.nonce.toInt64).length

omit [Float64 F] in
theorem written_inj (hw : s.written = t.written) (hwidths : SameWidths s t) :
    s.balance = t.balance ∧ s.nonce = t.nonce ∧ s.code = t.code := by
  unfold State.written at hw
  obtain ⟨hnumbers, hcode⟩ := append_inj_left _ _ _ _ hw (by
    rw [String.length_append, String.length_append, hwidths.balance, hwidths.nonce])
  obtain ⟨hbalance, hnonce⟩ := append_inj_left _ _ _ _ hnumbers hwidths.balance
  exact ⟨toInt64_injective (itoa_injective hbalance), toInt64_injective (itoa_injective hnonce), hcode⟩

theorem state_eq_of_texts (hjson : JsonSeparates Value.json s.storageRoot t.storageRoot)
    (hh : s.hash env = .ok h) (hh' : t.hash env = .ok h') (hw : s.written = t.written)
    (htext : kvText Value.json s.storageRoot = kvText Value.json t.storageRoot) (hwidths : SameWidths s t)
    (hcuts : cuts Value.json s.storageRoot = cuts Value.json t.storageRoot) : s = t := by
  obtain ⟨hbalance, hnonce, hcode⟩ := written_inj hw hwidths
  have hroot := kv_eq_of_text hjson (state_hash_eq_ok.mp hh).1 (state_hash_eq_ok.mp hh').1 htext hcuts
  cases s
  cases t
  simp only at hbalance hnonce hcode hroot
  rw [hbalance, hnonce, hcode, hroot]

end Account

/-- Equal hashes are the hashes of one content, unless two contents write one text with the ends of
the keys, of the values or of the numbers at different places. -/
theorem hash_separates_iff [Float64 F] (env : Env F) (hlen : ∀ bs, (env.sha256 bs).length = 32) :
    (∀ (V : Type) (json : V → Option String) (kv kv' : SimpleKV V) (h h' : String),
      CollisionFree env [kvBytes json kv, kvBytes json kv'] → JsonSeparates json kv kv' →
      kv.hash env json = .ok h → kv'.hash env json = .ok h' →
        ((h = h' → kv = kv') ↔ SameCuts json kv kv')) ∧
    ∀ (s t : State F) (h h' : String),
      CollisionFree env
        [kvBytes Value.json s.storageRoot, kvBytes Value.json t.storageRoot, s.bytes env, t.bytes env] →
      JsonSeparates Value.json s.storageRoot t.storageRoot → s.hash env = .ok h → t.hash env = .ok h' →
        ((h = h' → s.nonce = t.nonce ∧ s.balance = t.balance ∧ s.code = t.code ∧ s.storageRoot = t.storageRoot) ↔
          (s.written = t.written → kvText Value.json s.storageRoot = kvText Value.json t.storageRoot →
            SameWidths s t ∧ cuts Value.json s.storageRoot = cuts Value.json t.storageRoot)) := by
  refine ⟨fun V json kv kv' h h' hfree hjson hh hh' => kv_hash_separates hfree hjson hh hh', ?_⟩
  intro s t h h' hfree hjson hh hh'
  rw [state_hash_eq_iff hlen hfree hh hh']
  constructor
  · intro hseparates hw htext
    obtain ⟨hnonce, hbalance, -, hroot⟩ := hseparates ⟨hw, htext⟩
    exact ⟨⟨by rw [hbalance], by rw [hnonce]⟩, by rw [hroot]⟩
  · rintro hsame ⟨hw, htext⟩
    obtain ⟨hwidths, hcuts⟩ := hsame hw htext
    have heq := state_eq_of_texts hjson hh hh' hw htext hwidths hcuts
    rw [heq]
    exact ⟨rfl, rfl, rfl, rfl⟩

/-! ## Samples -/

/-- An account with integers in its storage. -/
def numbered (balance nonce : UInt64) (kvs : List (String × Int64)) : State Int :=
  ⟨nonce, balance, kvs.foldl (fun kv e => kv.put e.1 (.int e.2)) .new, ""⟩

theorem put_values {kv : SimpleKV (Value Int)} {k : String} {i : Int64}
    (hkv : ∀ e ∈ kv.internal.toList, ∃ j, e.2 = .int j) :
    ∀ e ∈ (kv.put k (.int i)).internal.toList, ∃ j, e.2 = .int j := by
  intro e he
  have hget : (kv.put k (.int i)).get? e.1 = some e.2 := Std.ExtTreeMap.mem_toList_iff_getElem?_eq_some.mp he
  rw [SimpleKV.get?_put] at hget
  split_ifs at hget
  · exact ⟨i, (Option.some.inj hget).symm⟩
  · exact hkv e (Std.ExtTreeMap.mem_toList_iff_getElem?_eq_some.mpr hget)

theorem numbered_values (balance nonce : UInt64) (kvs : List (String × Int64)) :
    ∀ e ∈ (numbered balance nonce kvs).storageRoot.internal.toList, ∃ i, e.2 = .int i := by
  have hputs : ∀ kv : SimpleKV (Value Int), (∀ e ∈ kv.internal.toList, ∃ i, e.2 = .int i) →
      ∀ e ∈ (kvs.foldl (fun kv e => kv.put e.1 (.int e.2)) kv).internal.toList, ∃ i, e.2 = .int i := by
    induction kvs with
    | nil => exact fun _ hkv => hkv
    | cons kv kvs ih => exact fun _ hkv => ih _ (put_values hkv)
  apply hputs
  intro e he
  have hempty : (SimpleKV.new : SimpleKV (Value Int)).internal.toList = [] :=
    Std.ExtTreeMap.toList_eq_nil_iff.mpr rfl
  rw [hempty] at he
  cases he

theorem numbered_jsonSeparates (s t : UInt64 × UInt64 × List (String × Int64)) :
    JsonSeparates Value.json (numbered s.1 s.2.1 s.2.2).storageRoot (numbered t.1 t.2.1 t.2.2).storageRoot := by
  intro e he e' he' heq
  obtain ⟨i, hi⟩ := numbered_values _ _ _ e he
  obtain ⟨j, hj⟩ := numbered_values _ _ _ e' he'
  rw [hi, hj] at heq ⊢
  rw [itoa_injective (Option.some.inj heq)]

theorem numbered_json (balance nonce : UInt64) (kvs : List (String × Int64)) :
    ∀ e ∈ (numbered balance nonce kvs).storageRoot.internal.toList, (Value.json e.2).isSome := by
  intro e he
  obtain ⟨i, hi⟩ := numbered_values _ _ _ e he
  rw [hi]
  rfl

section Numbered

variable (balance nonce : UInt64) (kvs : List (String × Int64))

theorem numbered_hash : (numbered balance nonce kvs).hash digestEnv =
    .ok (hexEncode (sampleSha ((numbered balance nonce kvs).bytes digestEnv))) :=
  state_hash_eq_ok.mpr ⟨numbered_json balance nonce kvs, rfl⟩

theorem numbered_storageHash : (numbered balance nonce kvs).storageHash digestEnv =
    .ok (hexEncode (sampleSha (kvBytes Value.json (numbered balance nonce kvs).storageRoot))) :=
  kv_hash_eq_ok.mpr ⟨numbered_json balance nonce kvs, rfl⟩

end Numbered

/-- Another nonce of the same width is another hash, and so is another value in the storage. -/
theorem numbered_separated :
    (∃ h h', (numbered 5 1 [("a", 1)]).hash digestEnv = .ok h ∧ (numbered 5 2 [("a", 1)]).hash digestEnv = .ok h' ∧
      h ≠ h') ∧
    ∃ h h', (numbered 0 0 [("a", 1)]).storageHash digestEnv = .ok h ∧
      (numbered 0 0 [("a", 2)]).storageHash digestEnv = .ok h' ∧ h ≠ h' := by
  obtain ⟨hstorages, hstates⟩ := hash_separates_iff digestEnv length_sampleSha
  constructor
  · refine ⟨_, _, numbered_hash 5 1 [("a", 1)], numbered_hash 5 2 [("a", 1)], fun heq => ?_⟩
    have hsame := (hstates _ _ _ _ (by decide +kernel)
      (numbered_jsonSeparates (5, 1, [("a", 1)]) (5, 2, [("a", 1)]))
      (numbered_hash 5 1 [("a", 1)]) (numbered_hash 5 2 [("a", 1)])).mpr
      (fun hw => absurd hw (by decide +kernel)) heq
    exact absurd hsame.1 (by decide)
  · refine ⟨_, _, numbered_storageHash 0 0 [("a", 1)], numbered_storageHash 0 0 [("a", 2)], fun heq => ?_⟩
    have hsame := (hstorages _ _ _ _ _ _ (by decide +kernel)
      (numbered_jsonSeparates (0, 0, [("a", 1)]) (0, 0, [("a", 2)]))
      (numbered_storageHash 0 0 [("a", 1)]) (numbered_storageHash 0 0 [("a", 2)])).mpr
      (fun htext => absurd htext (by decide +kernel)) heq
    have hget := congrArg (fun kv => (kv.get? "a").bind Value.json) hsame
    exact absurd hget (by decide +kernel)

/-- A digit of the balance that becomes one of the nonce, and a key that swallows a value and the next key. -/
theorem numbered_not_separated :
    (∃ h, (numbered 1 23 []).hash digestEnv = .ok h ∧ (numbered 12 3 []).hash digestEnv = .ok h) ∧
    ∃ h, (numbered 0 0 [("a", 1), ("b", 2)]).storageHash digestEnv = .ok h ∧
      (numbered 0 0 [("a1b", 2)]).storageHash digestEnv = .ok h ∧
      (numbered 0 0 [("a", 1), ("b", 2)]).storageRoot ≠ (numbered 0 0 [("a1b", 2)]).storageRoot := by
  refine ⟨⟨_, numbered_hash 1 23 [], ?_⟩, _, numbered_storageHash 0 0 [("a", 1), ("b", 2)], ?_, ?_⟩
  · have hbytes : (numbered 1 23 []).bytes digestEnv = (numbered 12 3 []).bytes digestEnv := by decide +kernel
    rw [hbytes]
    exact numbered_hash 12 3 []
  · have hbytes : kvBytes Value.json (numbered 0 0 [("a", 1), ("b", 2)]).storageRoot =
        kvBytes Value.json (numbered 0 0 [("a1b", 2)]).storageRoot := by decide +kernel
    rw [hbytes]
    exact numbered_storageHash 0 0 [("a1b", 2)]
  · intro hsame
    have hget := congrArg (fun kv => (kv.get? "a1b").bind Value.json) hsame
    exact absurd hget (by decide +kernel)

end MarketPeer.Ledger

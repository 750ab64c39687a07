import MarketPeer.Ledger.Mining
import MarketPeer.Ledger.Wire
import MarketPeer.Lib.Delimited
import Std.Data.String.ToInt

/-!
# A block that is sent and rebuilt

`BlockMsgCallback` rebuilds the accounts of a `BlockMessage` field by field and
builds the block again. The receipts are not among the fields, and every number
has been a `float64` on the way.
-/

namespace MarketPeer.Ledger

variable {F : Type} [Float64 F]

def txnJson (t : Option (SignedTransaction F)) : Option String := t.elim (some "null") (·.json)

/-- `json.Marshal` of the block works. -/
def Block.marshals (b : Block F) : Bool :=
  (b.state.preimage Entry.json).isSome && (b.receipts.preimage Value.json).isSome &&
    b.transactions.all fun t => (txnJson t).isSome

/-- The block is marshalled, decoded from `NewEmpty`, and handed to the callback of the miner. -/
def deliverBlock (env : Env F) (m : Miner) (source : String) (b : Block F) : Res F (Option (Block F)) :=
  if b.marshals then do
    let msg ← b.message source
    blockMsgCallback env m source msg
  else .err (.errorf "json: unsupported value" [])

/-! ## What the callback rebuilds -/

def State.rebuilt (s : State F) : State F where
  nonce := Float64.toUint (Float64.ofUint (F := F) s.nonce)
  balance := Float64.toUint (Float64.ofUint (F := F) s.balance)
  storageRoot := ⟨s.storageRoot.internal.map fun _ v => wireValue v⟩
  code := s.code

def Entry.rebuilt : Entry F → Entry F
  | .account s => .account s.rebuilt
  | e => e

def World.rebuilt (w : World F) : World F := ⟨w.internal.map fun _ e => e.rebuilt⟩

theorem foldl_insert_toList {V : Type} (m : Std.ExtTreeMap String V) :
    m.toList.foldl (fun t e => t.insert e.1 e.2) ∅ = m := by
  rw [← Std.ExtTreeMap.ofList_eq_foldl]
  apply Std.ExtTreeMap.ext_getElem?
  intro k
  cases h : m[k]? with
  | some v =>
    have hmem := Std.ExtTreeMap.mem_toList_iff_getElem?_eq_some.mpr h
    exact Std.ExtTreeMap.getElem?_ofList_of_mem Std.ReflCmp.compare_self m.distinct_keys_toList hmem
  | none =>
    apply Std.ExtTreeMap.getElem?_ofList_of_contains_eq_false
    rw [List.contains_eq_mem, decide_eq_false_iff_not, List.mem_map]
    rintro ⟨e, he, rfl⟩
    have hsome := Std.ExtTreeMap.mem_toList_iff_getElem?_eq_some.mp he
    rw [h] at hsome
    cases hsome

theorem wireFields_eq (fields : List (String × Value F)) :
    wireFields fields = fields.map fun e => (e.1, wireValue e.2) := by
  induction fields with
  | nil => rfl
  | cons e fields ih => rw [wireFields, ih, List.map_cons]

theorem foldl_put {V : Type} (es : List (String × V)) (kv : SimpleKV V) :
    es.foldl (fun kv e => kv.put e.1 e.2) kv = ⟨es.foldl (fun t e => t.insert e.1 e.2) kv.internal⟩ := by
  induction es generalizing kv with
  | nil => rfl
  | cons e es ih => rw [List.foldl_cons, ih, List.foldl_cons]; rfl

theorem foldl_put_toList {V : Type} (m : Std.ExtTreeMap String V) :
    m.toList.foldl (fun kv e => kv.put e.1 e.2) (.new : SimpleKV V) = ⟨m⟩ := by
  rw [foldl_put]
  exact congrArg SimpleKV.mk (foldl_insert_toList m)

theorem rebuildAccount_wire (s : State F) : rebuildAccount s.wire = .ok s.rebuilt := by
  have hstorage : (wireFields s.storageRoot.internal.toList).foldl (fun kv e => kv.put e.1 e.2) (.new : SimpleKV (Value F))
      = ⟨s.storageRoot.internal.map fun _ v => wireValue v⟩ := by
    rw [wireFields_eq, ← foldl_put_toList, Std.ExtTreeMap.toList_map]
  simp [rebuildAccount, State.wire, asObject, asFloat, asString, Value.field, hstorage, State.rebuilt]

/-- A string or an integer. -/
def IsPlain (v : Value F) : Prop := (∃ t, v = .str t) ∨ ∃ i, v = .int i

/-- Every entry is an account, and its storage holds strings and integers. -/
def World.Plain (w : World F) : Prop :=
  ∀ e ∈ w.internal.toList, ∃ s, e.2 = .account s ∧ ∀ v ∈ s.storageRoot.internal.toList, IsPlain v.2

theorem rebuildState_wire (w : World F) (h : w.Plain) : rebuildState w.wire = .ok w.rebuilt := by
  have hloop : ∀ (es : List (String × Entry F)) (kv : World F), (∀ e ∈ es, ∃ s, e.2 = .account s) →
      (es.map fun e => (e.1, e.2.wire)).foldlM (m := Outcome (GoError F))
        (fun (accounts : World F) e => do
          let s ← rebuildAccount e.2
          return accounts.put e.1 (.account s)) kv =
      .ok ((es.map fun e => (e.1, e.2.rebuilt)).foldl (fun kv e => kv.put e.1 e.2) kv) := by
    intro es
    induction es with
    | nil => intro kv _; rfl
    | cons e es ih =>
      intro kv hes
      obtain ⟨s, hs⟩ := hes e List.mem_cons_self
      rw [List.map_cons, List.map_cons, List.foldlM_cons, List.foldl_cons, hs, Entry.wire, rebuildAccount_wire]
      exact ih _ fun x hx => hes x (List.mem_cons_of_mem e hx)
  have haccounts : ∀ e ∈ w.internal.toList, ∃ s, e.2 = .account s := by
    intro e he
    obtain ⟨s, hs, -⟩ := h e he
    exact ⟨s, hs⟩
  unfold rebuildState World.wire World.rebuilt
  rw [Std.ExtTreeMap.toList_map, hloop _ _ haccounts, ← foldl_put_toList (w.internal.map _),
    Std.ExtTreeMap.toList_map]

/-! ## Numbers and objects -/

def IsNumber (s : String) : Prop := s ≠ "" ∧ ∀ c ∈ s.toList, c.isDigit ∨ c ∈ ['-', '+', '.', 'e']

/-- `json.Marshal` writes a `float64` as a number, and the one of an `int` is never NaN or infinite. -/
structure JsonNumbers (F : Type) [Float64 F] : Prop where
  ofInt : ∀ i, ∃ t, Float64.json (Float64.ofInt (F := F) i) = some t
  isNumber : ∀ (f : F) t, Float64.json f = some t → IsNumber t

theorem isNumber_nat (n : Nat) : IsNumber (toString n) := by
  refine ⟨Nat.repr_ne_empty, ?_⟩
  intro c hc
  rw [Nat.toString_eq_repr, Nat.toList_repr] at hc
  exact Or.inl (Nat.isDigit_of_mem_toDigits (by decide) (by decide) hc)

theorem isNumber_int (i : Int) : IsNumber (toString i) := by
  cases i with
  | ofNat n => exact isNumber_nat n
  | negSucc n =>
    have htext : toString (Int.negSucc n) = "-" ++ toString (n + 1) := rfl
    rw [htext]
    refine ⟨?_, ?_⟩
    · intro h
      have := congrArg String.toList h
      simp at this
    · intro c hc
      rw [String.toList_append, List.mem_append] at hc
      rcases hc with hc | hc
      · rw [show "-".toList = ['-'] from rfl, List.mem_singleton] at hc
        exact Or.inr (by simp [hc])
      · exact (isNumber_nat (n + 1)).2 c hc

theorem splits_number {s t : String} (hs : IsNumber s) (ht : IsNumber t) (c : Char) (hc : c = ',' ∨ c = '\x7d') :
    Splits (s = t) (s.toList ++ [c]) (t.toList ++ [c]) := by
  have hnot : ∀ u, IsNumber u → c ∉ u.toList := by
    intro u hu hmem
    rcases hc with rfl | rfl
    · exact absurd (hu.2 _ hmem) (by decide)
    · exact absurd (hu.2 _ hmem) (by decide)
  exact (splits_until c (hnot s hs) (hnot t ht)).imp String.toList_inj.mp

/-- A field of two objects. -/
structure Twin where
  key : String
  left : String
  right : String
  same : Prop

/-- The comma or the bracket after the field shows where it ends. -/
def Twin.Ends (f : Twin) : Prop :=
  ∀ c, c = ',' ∨ c = '\x7d' → Splits f.same (f.left.toList ++ [c]) (f.right.toList ++ [c])

theorem splits_jsonObject (fields : List Twin) (h : ∀ f ∈ fields, f.Ends) :
    Splits (∀ f ∈ fields, f.same) (jsonObject (fields.map fun f => (f.key, f.left))).toList
      (jsonObject (fields.map fun f => (f.key, f.right))).toList := by
  have hcomma : Splits (∀ f ∈ fields, f.same)
      ((commaSep ((fields.map fun f => (f.key, f.left)).map fun f => jsonString f.1 ++ ":" ++ f.2)).toList ++ ['\x7d'])
      ((commaSep ((fields.map fun f => (f.key, f.right)).map fun f => jsonString f.1 ++ ":" ++ f.2)).toList ++
        ['\x7d']) := by
    induction fields with
    | nil => exact (splits_self _).imp (fun _ => by simp)
    | cons f fields ih =>
      have hkey := splits_self (jsonString f.key ++ ":").toList
      cases fields with
      | nil =>
        have hone := hkey.append (h f List.mem_cons_self '\x7d' (Or.inr rfl))
        simp only [List.map_cons, List.map_nil, commaSep, String.toList_append, List.append_assoc] at hone ⊢
        exact hone.imp (fun hsame => by simpa using hsame.2)
      | cons g fields =>
        have hfirst := hkey.append (h f List.mem_cons_self ',' (Or.inl rfl))
        have hmore := hfirst.append (ih fun x hx => h x (List.mem_cons_of_mem f hx))
        rw [List.forall_mem_cons]
        have hsep : ",".toList = [','] := rfl
        simp only [List.map_cons, commaSep, String.toList_append, List.append_assoc, hsep] at hmore ⊢
        exact hmore.imp (fun hsame => ⟨hsame.1.2, hsame.2⟩)
  have hobject := (splits_self "\x7b".toList).append hcomma
  unfold jsonObject
  simp only [String.toList_append, List.append_assoc] at hobject ⊢
  exact hobject.imp And.right

/-! ## Accounts -/

def valueText (v : Value F) : String := v.json.getD ""

theorem jsonFields_eq (fields : List (String × Value F)) (h : ∀ e ∈ fields, e.2.json.isSome) :
    Value.jsonFields fields = some (fields.map fun e => (e.1, valueText e.2)) := by
  induction fields with
  | nil => rfl
  | cons e fields ih =>
    obtain ⟨t, ht⟩ := Option.isSome_iff_exists.mp (h e List.mem_cons_self)
    rw [Value.jsonFields, ih fun x hx => h x (List.mem_cons_of_mem e hx), List.map_cons, valueText, ht]
    rfl

def storageText (kv : SimpleKV (Value F)) : String :=
  jsonObject [("Internal", jsonObject (kv.internal.toList.map fun e => (e.1, valueText e.2)))]

def State.text (s : State F) : String :=
  jsonObject [("Nonce", jsonUint s.nonce), ("Balance", jsonUint s.balance),
    ("StorageRoot", storageText s.storageRoot), ("Code", jsonString s.code)]

theorem State.json_eq_text (s : State F) (h : ∀ e ∈ s.storageRoot.internal.toList, e.2.json.isSome) :
    s.json = some s.text := by
  unfold State.json storageJson
  rw [jsonFields_eq _ h]
  rfl

/-- The account comes out of the message as it went in, as far as its hash shows. -/
structure State.Survives (s : State F) : Prop where
  nonce : Float64.toUint (Float64.ofUint (F := F) s.nonce) = s.nonce
  balance : Float64.toUint (Float64.ofUint (F := F) s.balance) = s.balance
  stored : ∀ key i, s.storageRoot.get? key = some (.int i) →
    Float64.json (Float64.ofInt (F := F) i) = some (jsonInt i)

theorem text_rebuilt (s : State F) (hs : ∀ e ∈ s.storageRoot.internal.toList, IsPlain e.2) (h : s.Survives) :
    s.rebuilt.text = s.text := by
  have hvalues : ∀ e ∈ s.storageRoot.internal.toList, (e.1, valueText (wireValue e.2)) = (e.1, valueText e.2) := by
    intro e he
    rcases hs e he with ⟨t, ht⟩ | ⟨i, hi⟩
    · rw [ht]; rfl
    · have hjson := h.stored e.1 i (by
        rw [← hi]
        exact Std.ExtTreeMap.mem_toList_iff_getElem?_eq_some.mp he)
      rw [hi, valueText, wireValue, Value.json, hjson]
      rfl
  have hstorage : storageText s.rebuilt.storageRoot = storageText s.storageRoot := by
    simp only [storageText, State.rebuilt, Std.ExtTreeMap.toList_map, List.map_map]
    congr 4
    exact List.map_congr_left hvalues
  rw [State.text, State.text, hstorage]
  simp only [State.rebuilt, h.nonce, h.balance]

section Texts

variable (hnumbers : JsonNumbers F)
include hnumbers

theorem isSome_json_plain {v : Value F} (hv : IsPlain v) : v.json.isSome ∧ (wireValue v).json.isSome := by
  rcases hv with ⟨t, rfl⟩ | ⟨i, rfl⟩
  · exact ⟨rfl, rfl⟩
  · obtain ⟨t, ht⟩ := hnumbers.ofInt i
    simp [Value.json, wireValue, ht]

theorem splits_plain {v : Value F} (hv : IsPlain v) (key : String) :
    Twin.Ends ⟨key, valueText v, valueText (wireValue v), valueText v = valueText (wireValue v)⟩ := by
  intro c hc
  rcases hv with ⟨t, rfl⟩ | ⟨i, rfl⟩
  · exact (splits_self _).imp (fun _ => rfl)
  · obtain ⟨t, ht⟩ := hnumbers.ofInt i
    have htext : valueText (wireValue (.int i : Value F)) = t := by simp [valueText, wireValue, Value.json, ht]
    rw [htext]
    exact splits_number (isNumber_int _) (hnumbers.isNumber _ _ ht) c hc

theorem survives_of_texts (s : State F) (hnonce : jsonUint s.nonce = jsonUint s.rebuilt.nonce)
    (hbalance : jsonUint s.balance = jsonUint s.rebuilt.balance)
    (hstored : ∀ e ∈ s.storageRoot.internal.toList, valueText e.2 = valueText (wireValue e.2)) : s.Survives := by
  refine ⟨(UInt64.toNat_inj.mp (Nat.repr_injective hnonce)).symm,
    (UInt64.toNat_inj.mp (Nat.repr_injective hbalance)).symm, ?_⟩
  intro key i hi
  obtain ⟨t, ht⟩ := hnumbers.ofInt i
  have htext := hstored (key, .int i) (Std.ExtTreeMap.mem_toList_iff_getElem?_eq_some.mpr hi)
  simp only [valueText, Value.json, wireValue, ht, Option.getD_some] at htext
  rw [ht, htext]

theorem splits_storage (kv : SimpleKV (Value F)) (h : ∀ e ∈ kv.internal.toList, IsPlain e.2) :
    Splits (∀ e ∈ kv.internal.toList, valueText e.2 = valueText (wireValue e.2))
      (storageText kv).toList (storageText ⟨kv.internal.map fun _ v => wireValue v⟩).toList := by
  have hstored := splits_jsonObject
    (kv.internal.toList.map fun e =>
      ⟨e.1, valueText e.2, valueText (wireValue e.2), valueText e.2 = valueText (wireValue e.2)⟩)
    (by
      intro f hf
      obtain ⟨e, he, rfl⟩ := List.mem_map.mp hf
      exact splits_plain hnumbers (h e he) e.1)
  simp only [List.map_map, List.forall_mem_map] at hstored
  have hroot := splits_jsonObject [⟨"Internal", _, _, _⟩] (by
    intro f hf c _
    rw [List.mem_singleton.mp hf]
    exact (hstored.append (splits_self [c])).imp And.left)
  simp only [List.map_cons, List.map_nil, List.forall_mem_singleton] at hroot
  unfold storageText
  rw [Std.ExtTreeMap.toList_map, List.map_map]
  exact hroot

theorem splits_state (s : State F) (hs : ∀ e ∈ s.storageRoot.internal.toList, IsPlain e.2) :
    Splits s.Survives s.text.toList s.rebuilt.text.toList := by
  have hall := splits_jsonObject
    [⟨"Nonce", jsonUint s.nonce, jsonUint s.rebuilt.nonce, jsonUint s.nonce = jsonUint s.rebuilt.nonce⟩,
      ⟨"Balance", jsonUint s.balance, jsonUint s.rebuilt.balance, jsonUint s.balance = jsonUint s.rebuilt.balance⟩,
      ⟨"StorageRoot", storageText s.storageRoot, storageText s.rebuilt.storageRoot,
        ∀ e ∈ s.storageRoot.internal.toList, valueText e.2 = valueText (wireValue e.2)⟩,
      ⟨"Code", jsonString s.code, jsonString s.code, True⟩] (by
    simp only [List.forall_mem_cons]
    refine ⟨?_, ?_, ?_, ?_, by simp⟩
    · exact splits_number (isNumber_nat _) (isNumber_nat _)
    · exact splits_number (isNumber_nat _) (isNumber_nat _)
    · intro c _
      exact ((splits_storage hnumbers s.storageRoot hs).append (splits_self [c])).imp And.left
    · intro c _
      exact splits_self _)
  refine hall.imp ?_
  simp only [List.forall_mem_cons]
  rintro ⟨hnonce, hbalance, hsame, -⟩
  exact survives_of_texts hnumbers s hnonce hbalance hsame

end Texts

/-! ## World states -/

def kvText {V : Type} (json : V → Option String) (kv : SimpleKV V) : List Char :=
  kv.internal.toList.flatMap fun e => e.1.toList ++ ((json e.2).getD "").toList

theorem preimage_eq_some {V : Type} (json : V → Option String) (kv : SimpleKV V) (bs : Bytes) :
    kv.preimage json = some bs ↔
      (∀ e ∈ kv.internal.toList, (json e.2).isSome) ∧ bs = stringBytes (String.ofList (kvText json kv)) := by
  unfold SimpleKV.preimage kvText
  induction kv.internal.toList generalizing bs with
  | nil => exact ⟨fun h => ⟨by simp, (Option.some.inj h).symm⟩, fun h => by rw [h.2]; rfl⟩
  | cons e es ih =>
    rw [List.foldr_cons, List.forall_mem_cons, List.flatMap_cons]
    refine Option.bind_eq_some_iff.trans ?_
    simp only [ih]
    constructor
    · rintro ⟨rest, ⟨hes, rfl⟩, hrest⟩
      obtain ⟨v, hv, hbs⟩ := Option.bind_eq_some_iff.mp hrest
      refine ⟨⟨by rw [hv]; rfl, hes⟩, ?_⟩
      rw [← Option.some.inj hbs, hv]
      simp [stringBytes_eq]
    · rintro ⟨⟨he, hes⟩, rfl⟩
      obtain ⟨v, hv⟩ := Option.isSome_iff_exists.mp he
      refine ⟨_, ⟨hes, rfl⟩, ?_⟩
      rw [hv]
      simp [stringBytes_eq]

theorem kvText_rebuilt (w : World F) : kvText Entry.json w.rebuilt =
    w.internal.toList.flatMap fun e => e.1.toList ++ ((e.2.rebuilt.json).getD "").toList := by
  unfold kvText World.rebuilt
  rw [Std.ExtTreeMap.toList_map, List.flatMap_map]

section Worlds

variable (hnumbers : JsonNumbers F) {w : World F} (hw : w.Plain)
include hnumbers hw

theorem entry_json {e : String × Entry F} (he : e ∈ w.internal.toList) :
    ∃ s, e.2 = .account s ∧ (∀ v ∈ s.storageRoot.internal.toList, IsPlain v.2) ∧
      e.2.json = some s.text ∧ e.2.rebuilt.json = some s.rebuilt.text := by
  obtain ⟨s, hs, hplain⟩ := hw e he
  refine ⟨s, hs, hplain, ?_, ?_⟩
  · rw [hs]
    exact s.json_eq_text fun v hv => (isSome_json_plain hnumbers (hplain v hv)).1
  · rw [hs]
    apply s.rebuilt.json_eq_text
    intro v hv
    rw [State.rebuilt, Std.ExtTreeMap.toList_map] at hv
    obtain ⟨x, hx, rfl⟩ := List.mem_map.mp hv
    exact (isSome_json_plain hnumbers (hplain x hx)).2

theorem world_marshals : (∀ e ∈ w.internal.toList, e.2.json.isSome) ∧
    ∀ e ∈ w.rebuilt.internal.toList, e.2.json.isSome := by
  refine ⟨?_, ?_⟩
  · intro e he
    obtain ⟨s, -, -, hjson, -⟩ := entry_json hnumbers hw he
    rw [hjson]
    rfl
  · intro e he
    rw [World.rebuilt, Std.ExtTreeMap.toList_map] at he
    obtain ⟨x, hx, rfl⟩ := List.mem_map.mp he
    obtain ⟨s, -, -, -, hjson⟩ := entry_json hnumbers hw hx
    rw [hjson]
    rfl

theorem splits_world :
    Splits (∀ e ∈ w.internal.toList, ∀ s, e.2 = .account s → s.Survives) (kvText Entry.json w)
      (kvText Entry.json w.rebuilt) := by
  rw [kvText_rebuilt]
  apply splits_flatMap
  intro e he
  obtain ⟨s, hs, hplain, hjson, hrebuilt⟩ := entry_json hnumbers hw he
  rw [hjson, hrebuilt]
  refine ((splits_self e.1.toList).append (splits_state hnumbers s hplain)).imp ?_
  rintro ⟨-, hsurvives⟩ s' hs'
  rw [hs] at hs'
  cases hs'
  exact hsurvives

theorem kvText_of_survives (h : ∀ e ∈ w.internal.toList, ∀ s, e.2 = .account s → s.Survives) :
    kvText Entry.json w.rebuilt = kvText Entry.json w := by
  rw [kvText_rebuilt]
  apply List.flatMap_congr
  intro e he
  obtain ⟨s, hs, hplain, hjson, hrebuilt⟩ := entry_json hnumbers hw he
  rw [hjson, hrebuilt, text_rebuilt s hplain (h e he s hs)]

end Worlds

/-! ## Transactions -/

/-- The value that a transaction stores has a JSON, and keeps it. -/
def SignedTransaction.Survives (t : SignedTransaction F) : Prop :=
  ∃ text, t.txn.storeV.json = some text ∧ (wireValue t.txn.storeV).json = some text

mutual

theorem isSome_json_wire (hnumbers : JsonNumbers F) : ∀ v : Value F, v.json.isSome → (wireValue v).json.isSome
  | .null, _ => rfl
  | .bool _, _ => rfl
  | .int i, _ => by
    obtain ⟨t, ht⟩ := hnumbers.ofInt i
    rw [wireValue, Value.json, ht]
    rfl
  | .float _, h => h
  | .str _, _ => rfl
  | .arr vs, h => by
    simp only [wireValue, Value.json, Option.isSome_map] at h ⊢
    exact isSome_jsonList_wire hnumbers vs h
  | .obj fields, h => by
    simp only [wireValue, Value.json, Option.isSome_map] at h ⊢
    exact isSome_jsonFields_wire hnumbers fields h

theorem isSome_jsonList_wire (hnumbers : JsonNumbers F) : ∀ vs : List (Value F),
    (Value.jsonList vs).isSome → (Value.jsonList (wireList vs)).isSome
  | [], _ => rfl
  | v :: vs, h => by
    obtain ⟨ts, hts⟩ := Option.isSome_iff_exists.mp h
    obtain ⟨t, ht, hrest⟩ := Option.bind_eq_some_iff.mp hts
    obtain ⟨rest, hvs, -⟩ := Option.bind_eq_some_iff.mp hrest
    obtain ⟨t', ht'⟩ := Option.isSome_iff_exists.mp (isSome_json_wire hnumbers v (by rw [ht]; rfl))
    obtain ⟨rest', hvs'⟩ := Option.isSome_iff_exists.mp (isSome_jsonList_wire hnumbers vs (by rw [hvs]; rfl))
    rw [wireList, Value.jsonList, ht', hvs']
    rfl

theorem isSome_jsonFields_wire (hnumbers : JsonNumbers F) : ∀ fields : List (String × Value F),
    (Value.jsonFields fields).isSome → (Value.jsonFields (wireFields fields)).isSome
  | [], _ => rfl
  | (k, v) :: fields, h => by
    obtain ⟨ts, hts⟩ := Option.isSome_iff_exists.mp h
    obtain ⟨t, ht, hrest⟩ := Option.bind_eq_some_iff.mp hts
    obtain ⟨rest, hvs, -⟩ := Option.bind_eq_some_iff.mp hrest
    obtain ⟨t', ht'⟩ := Option.isSome_iff_exists.mp (isSome_json_wire hnumbers v (by rw [ht]; rfl))
    obtain ⟨rest', hvs'⟩ := Option.isSome_iff_exists.mp (isSome_jsonFields_wire hnumbers fields (by rw [hvs]; rfl))
    rw [wireFields, Value.jsonFields, ht', hvs']
    rfl

end

/-- The JSON of a transaction around the one of the value it stores. -/
def SignedTransaction.around (t : SignedTransaction F) (storeV : String) : String :=
  jsonObject [("Txn", jsonObject [("Nonce", jsonInt t.txn.nonce), ("From", t.txn.fromAddr.json),
      ("To", t.txn.toAddr.json), ("Type", jsonInt t.txn.type), ("Code", jsonString t.txn.code),
      ("Value", jsonInt t.txn.value), ("StoreK", jsonString t.txn.storeK), ("StoreV", storeV),
      ("V", jsonString t.txn.v), ("R", jsonString t.txn.r), ("S", jsonString t.txn.s)]),
    ("Digest", jsonBytes t.digest), ("Signature", jsonBytes t.signature)]

theorem json_eq_around (t : SignedTransaction F) : t.json = t.txn.storeV.json.map t.around := by
  unfold SignedTransaction.json Transaction.json
  cases t.txn.storeV.json <;> rfl

theorem json_wire (t : SignedTransaction F) : t.wire.json = (wireValue t.txn.storeV).json.map t.around :=
  json_eq_around t.wire

omit [Float64 F] in
theorem around_injective (t : SignedTransaction F) : Function.Injective t.around := by
  intro x y h
  simpa [SignedTransaction.around, jsonObject, commaSep, String.append_assoc] using h

/-! ## Blocks -/

/-- The state, the receipts and the transactions are the ones that the header has the hashes of. -/
structure Block.Sealed (env : Env F) (b : Block F) : Prop where
  state : ∃ bs, b.state.preimage Entry.json = some bs ∧ b.header.stateHash = hexEncode (env.sha256 bs)
  receipts : ∃ bs, b.receipts.preimage Value.json = some bs ∧ b.header.receiptsHash = hexEncode (env.sha256 bs)
  transactions : b.header.transactionsHash = hexEncode (env.sha256 (b.transactions.flatMap (txnHashBytes env)))

omit [Float64 F] in
theorem hash_eq_ok {V : Type} (env : Env F) (json : V → Option String) (kv : SimpleKV V) (h : String) :
    kv.hash env json = .ok h ↔ ∃ bs, kv.preimage json = some bs ∧ h = hexEncode (env.sha256 bs) := by
  unfold SimpleKV.hash
  cases kv.preimage json <;> simp [eq_comm]

theorem build_sealed (env : Env F) (bb : BlockBuilder F) (b : Block F) (h : bb.build env = .ok b) :
    b.Sealed env := by
  simp only [BlockBuilder.build, Outcome.bind_eq_ok, Outcome.pure_eq, Outcome.ok.injEq] at h
  obtain ⟨stateHash, hstate, receiptsHash, hreceipts, rfl⟩ := h
  exact ⟨(hash_eq_ok ..).mp hstate, (hash_eq_ok ..).mp hreceipts, rfl⟩

theorem build_receipts (env : Env F) (bb : BlockBuilder F) (b : Block F) (h : bb.build env = .ok b) :
    b.receipts = bb.receipts := by
  simp only [BlockBuilder.build, Outcome.bind_eq_ok, Outcome.pure_eq, Outcome.ok.injEq] at h
  obtain ⟨stateHash, -, receiptsHash, -, rfl⟩ := h
  rfl

/-- The same block but for its receipts, with its accounts rebuilt and its transactions decoded. -/
structure Rebuilt (b b' : Block F) : Prop where
  state : b'.state = b.state.rebuilt
  transactions : b'.transactions = b.transactions.map (Option.map SignedTransaction.wire)
  receipts : b'.receipts = .new
  header : b'.header = { b.header with
    stateHash := b'.header.stateHash
    transactionsHash := b'.header.transactionsHash
    receiptsHash := b'.header.receiptsHash }

theorem preimage_new {V : Type} (json : V → Option String) : (SimpleKV.new : SimpleKV V).preimage json = some [] := by
  unfold SimpleKV.preimage SimpleKV.new
  rw [Std.ExtTreeMap.toList_eq_nil_iff.mpr rfl]
  rfl

theorem deliverBlock_eq_ok (env : Env F) (hnumbers : JsonNumbers F) (m : Miner) (source : String)
    (hm : m.attacker → source = m.addr) (b : Block F) (hplain : b.state.Plain) (hmarshals : b.marshals) :
    ∃ b', deliverBlock env m source b = .ok (some b') ∧ Rebuilt b b' ∧ b'.Sealed env := by
  have hstate : World.hash env b.state.rebuilt = .ok (hexEncode (env.sha256
      (stringBytes (String.ofList (kvText Entry.json b.state.rebuilt))))) :=
    (hash_eq_ok ..).mpr ⟨_, (preimage_eq_some ..).mpr ⟨(world_marshals hnumbers hplain).2, rfl⟩, rfl⟩
  have hreceipts : (SimpleKV.new : SimpleKV (Value F)).hash env Value.json = .ok (hexEncode (env.sha256 [])) :=
    (hash_eq_ok ..).mpr ⟨_, preimage_new _, rfl⟩
  have hkept : ¬ (m.attacker = true ∧ source ≠ m.addr) := by
    rintro ⟨hattacker, hsource⟩
    exact hsource (hm hattacker)
  cases hbuild : BlockBuilder.build env
      { BlockBuilder.setHeader { transactions := b.transactions.map (Option.map SignedTransaction.wire) } b.header with
        state := b.state.rebuilt } with
  | ok b' =>
    refine ⟨b', ?_, ?_, build_sealed env _ b' hbuild⟩
    · rw [deliverBlock, if_pos hmarshals, Block.message, decodeBlockState, decodeKV, Outcome.ok_bind,
        Outcome.pure_eq, Outcome.ok_bind, blockMsgCallback, if_neg hkept]
      simp only [rebuildState_wire b.state hplain, Outcome.ok_bind, hbuild, Outcome.pure_eq]
    · simp only [BlockBuilder.build, hstate, BlockBuilder.setHeader, hreceipts, Outcome.ok_bind, Outcome.pure_eq,
        Outcome.ok.injEq] at hbuild
      subst hbuild
      exact ⟨rfl, rfl, rfl, rfl⟩
  | err e =>
    simp [BlockBuilder.build, hstate, BlockBuilder.setHeader, hreceipts] at hbuild
  | panic why =>
    simp [BlockBuilder.build, hstate, BlockBuilder.setHeader, hreceipts] at hbuild

theorem json_ne_empty (hnumbers : JsonNumbers F) (v : Value F) (t : String) (h : v.json = some t) : t ≠ "" := by
  have hlist : ∀ u u' : String, ∀ c, (String.ofList [c] ++ u ++ u') ≠ "" := by
    intro u u' c hempty
    have := congrArg String.toList hempty
    simp at this
  cases v with
  | null => cases h; decide
  | bool b => cases b <;> cases h <;> decide
  | int i => cases h; exact (isNumber_int i.toInt).1
  | float f => exact (hnumbers.isNumber f t h).1
  | str u => cases h; exact hlist _ _ '"'
  | arr vs =>
    obtain ⟨ts, -, rfl⟩ := Option.map_eq_some_iff.mp h
    exact hlist _ _ '['
  | obj fields =>
    obtain ⟨ts, -, rfl⟩ := Option.map_eq_some_iff.mp h
    exact hlist _ _ '\x7b'

/-- Receipts that hash as none are none. -/
theorem receipts_eq_new (hnumbers : JsonNumbers F) (kv : SimpleKV (Value F)) (h : kv.preimage Value.json = some []) :
    kv = .new := by
  obtain ⟨hsome, htext⟩ := (preimage_eq_some ..).mp h
  have hbytes : stringBytes (String.ofList []) = stringBytes (String.ofList (kvText Value.json kv)) := htext
  have hempty : kvText Value.json kv = [] := (String.ofList_injective (stringBytes_injective hbytes)).symm
  have hnil : kv.internal.toList = [] := by
    rw [List.eq_nil_iff_forall_not_mem]
    intro e he
    obtain ⟨t, ht⟩ := Option.isSome_iff_exists.mp (hsome e he)
    have hpiece := List.flatMap_eq_nil_iff.mp hempty e he
    rw [ht, List.append_eq_nil_iff] at hpiece
    exact json_ne_empty hnumbers e.2 t ht (String.toList_eq_nil_iff.mp hpiece.2)
  exact congrArg SimpleKV.mk (Std.ExtTreeMap.toList_eq_nil_iff.mp hnil)

theorem txnJson_wire (t : Option (SignedTransaction F)) (h : ∀ x, t = some x → x.Survives) :
    txnJson (t.map SignedTransaction.wire) = txnJson t := by
  cases t with
  | none => rfl
  | some x =>
    obtain ⟨text, hbefore, hafter⟩ := h x rfl
    simp only [txnJson, Option.map_some, Option.elim_some]
    rw [json_wire, json_eq_around, hbefore, hafter]

theorem survives_of_txnJson (t : SignedTransaction F) (text : String) (h : txnJson (some t) = some text)
    (hwire : txnJson (some t.wire) = some text) : t.Survives := by
  have hbefore : t.txn.storeV.json.map t.around = some text := (json_eq_around t).symm.trans h
  have hafter : (wireValue t.txn.storeV).json.map t.around = some text := (json_wire t).symm.trans hwire
  obtain ⟨v, hv, htext⟩ := Option.map_eq_some_iff.mp hbefore
  obtain ⟨v', hv', htext'⟩ := Option.map_eq_some_iff.mp hafter
  have hsame : v' = v := around_injective t (htext'.trans htext.symm)
  exact ⟨v, hv, hsame ▸ hv'⟩

theorem isSome_txnJson_wire (hnumbers : JsonNumbers F) (t : Option (SignedTransaction F)) (h : (txnJson t).isSome) :
    (txnJson (t.map SignedTransaction.wire)).isSome := by
  cases t with
  | none => rfl
  | some x =>
    simp only [txnJson, Option.map_some, Option.elim_some] at h ⊢
    rw [json_eq_around, Option.isSome_map] at h
    rw [json_wire, Option.isSome_map]
    exact isSome_json_wire hnumbers _ h

/-- What goes through SHA-256 for the hashes of the body. -/
def Block.hashed (env : Env F) (b : Block F) : List Bytes :=
  (b.state.preimage Entry.json).toList ++ (b.receipts.preimage Value.json).toList ++
    b.transactions.filterMap (fun t => (txnJson t).map stringBytes) ++ [b.transactions.flatMap (txnHashBytes env)]

/-- No two of the texts have one hash. -/
def CollisionFree (env : Env F) (texts : List Bytes) : Prop :=
  ∀ x ∈ texts, ∀ y ∈ texts, env.sha256 x = env.sha256 y → x = y

instance (env : Env F) (texts : List Bytes) : Decidable (CollisionFree env texts) :=
  inferInstanceAs (Decidable (∀ x ∈ texts, ∀ y ∈ texts, _))

/-- No receipts, and nothing in the accounts and transactions that a `float64` changes. -/
structure Block.Survives (b : Block F) : Prop where
  receipts : b.receipts = .new
  accounts : ∀ k s, b.state.account? k = some s → s.Survives
  transactions : ∀ t, some t ∈ b.transactions → t.Survives

/-- The callback gets the block, with the same hashes. -/
def RoundTrips (env : Env F) (m : Miner) (source : String) (b : Block F) : Prop :=
  ∃ b', deliverBlock env m source b = .ok (some b') ∧
    b'.header.stateHash = b.header.stateHash ∧ b'.header.transactionsHash = b.header.transactionsHash ∧
    b'.header.receiptsHash = b.header.receiptsHash ∧ b'.hash env = b.hash env

theorem hash_of_hashes (env : Env F) {b b' : Block F} (hrebuilt : Rebuilt b b')
    (hstate : b'.header.stateHash = b.header.stateHash)
    (htxns : b'.header.transactionsHash = b.header.transactionsHash)
    (hreceipts : b'.header.receiptsHash = b.header.receiptsHash) : b'.hash env = b.hash env := by
  have hheader : b'.header = b.header := by
    rw [hrebuilt.header, hstate, htxns, hreceipts]
  unfold Block.hash Block.hashBytes
  rw [hheader]

section Hashes

variable {env : Env F} (hnumbers : JsonNumbers F) {b b' : Block F} (hplain : b.state.Plain) (hb : b.Sealed env)
  (hb' : b'.Sealed env) (hrebuilt : Rebuilt b b')
include hnumbers hplain hb hb' hrebuilt

theorem hashes_of_survives (h : b.Survives) :
    b'.header.stateHash = b.header.stateHash ∧ b'.header.transactionsHash = b.header.transactionsHash ∧
      b'.header.receiptsHash = b.header.receiptsHash := by
  obtain ⟨bs, hbs, hstate⟩ := hb.state
  obtain ⟨bs', hbs', hstate'⟩ := hb'.state
  obtain ⟨rs, hrs, hreceipts⟩ := hb.receipts
  obtain ⟨rs', hrs', hreceipts'⟩ := hb'.receipts
  refine ⟨?_, ?_, ?_⟩
  · rw [hrebuilt.state] at hbs'
    rw [((preimage_eq_some ..).mp hbs).2] at hstate
    rw [((preimage_eq_some ..).mp hbs').2, kvText_of_survives hnumbers hplain] at hstate'
    · rw [hstate', hstate]
    · intro e he s hs
      refine h.accounts e.1 s ((World.account?_eq_some ..).mpr ?_)
      rw [← hs]
      exact Std.ExtTreeMap.mem_toList_iff_getElem?_eq_some.mp he
  · rw [hb'.transactions, hb.transactions, hrebuilt.transactions, List.flatMap_map]
    congr 2
    apply List.flatMap_congr
    intro t ht
    exact congrArg (hashJson env) (txnJson_wire t fun x hx => h.transactions x (hx ▸ ht))
  · rw [hrebuilt.receipts] at hrs'
    rw [h.receipts] at hrs
    rw [hreceipts', hreceipts, Option.some.inj (hrs'.symm.trans hrs)]

variable (hsha : CollisionFree env (b.hashed env ++ b'.hashed env))
include hsha

theorem accounts_of_hash (h : b'.header.stateHash = b.header.stateHash) :
    ∀ k s, b.state.account? k = some s → s.Survives := by
  obtain ⟨bs, hbs, hstate⟩ := hb.state
  obtain ⟨bs', hbs', hstate'⟩ := hb'.state
  rw [hstate, hstate'] at h
  have heq : bs' = bs := hsha bs' (by simp [Block.hashed, hbs']) bs (by simp [Block.hashed, hbs])
    (hexEncode_injective h)
  rw [heq, hrebuilt.state] at hbs'
  have htext : kvText Entry.json b.state = kvText Entry.json b.state.rebuilt := by
    apply String.ofList_injective
    apply stringBytes_injective
    rw [← ((preimage_eq_some ..).mp hbs).2, ← ((preimage_eq_some ..).mp hbs').2]
  intro k s hs
  have hmem := Std.ExtTreeMap.mem_toList_iff_getElem?_eq_some.mpr ((World.account?_eq_some ..).mp hs)
  exact (splits_world hnumbers hplain).of_eq htext _ hmem s rfl

omit hplain in
theorem receipts_of_hash (h : b'.header.receiptsHash = b.header.receiptsHash) : b.receipts = .new := by
  obtain ⟨rs, hrs, hreceipts⟩ := hb.receipts
  obtain ⟨rs', hrs', hreceipts'⟩ := hb'.receipts
  rw [hreceipts, hreceipts'] at h
  have heq : rs' = rs := hsha rs' (by simp [Block.hashed, hrs']) rs (by simp [Block.hashed, hrs])
    (hexEncode_injective h)
  rw [hrebuilt.receipts, preimage_new] at hrs'
  refine receipts_eq_new hnumbers b.receipts ?_
  rw [hrs, ← heq, ← hrs']

omit hplain in
theorem transactions_of_hash (hlength : ∀ bs, (env.sha256 bs).length = 32) (hmarshals : b.marshals)
    (h : b'.header.transactionsHash = b.header.transactionsHash) : ∀ t, some t ∈ b.transactions → t.Survives := by
  rw [hb.transactions, hb'.transactions] at h
  have heq := hsha _ (by simp [Block.hashed]) _ (by simp [Block.hashed]) (hexEncode_injective h)
  rw [hrebuilt.transactions, List.flatMap_map] at heq
  have hsome : ∀ x ∈ b.transactions, ∃ text text', txnJson x = some text ∧
      txnJson (x.map SignedTransaction.wire) = some text' := by
    intro x hx
    simp only [Block.marshals, Bool.and_eq_true, List.all_eq_true] at hmarshals
    obtain ⟨text, htext⟩ := Option.isSome_iff_exists.mp (hmarshals.2 x hx)
    obtain ⟨text', htext'⟩ := Option.isSome_iff_exists.mp (isSome_txnJson_wire hnumbers x (hmarshals.2 x hx))
    exact ⟨text, text', htext, htext'⟩
  have hhash : ∀ x text, txnJson x = some text → txnHashBytes env x = env.sha256 (stringBytes text) := by
    intro x text hx
    unfold txnJson at hx
    unfold txnHashBytes
    rw [hx]
    rfl
  -- Hashes of 32 bytes in a row can be told from each other.
  have hsplit : Splits (∀ x ∈ b.transactions, txnHashBytes env (x.map SignedTransaction.wire) = txnHashBytes env x)
      (b.transactions.flatMap fun x => txnHashBytes env (x.map SignedTransaction.wire))
      (b.transactions.flatMap (txnHashBytes env)) := by
    apply splits_flatMap
    intro x hx
    obtain ⟨text, text', htext, htext'⟩ := hsome x hx
    apply splits_of_length_eq
    rw [hhash x text htext, hhash _ text' htext', hlength, hlength]
  intro t ht
  obtain ⟨text, text', htext, htext'⟩ := hsome (some t) ht
  have hsame := hsplit.of_eq heq (some t) ht
  rw [hhash _ text htext, hhash _ text' htext'] at hsame
  have hmem : some t.wire ∈ b'.transactions := by
    rw [hrebuilt.transactions]
    exact List.mem_map_of_mem ht
  have hbytes := hsha (stringBytes text')
    (List.mem_append_right _ (List.mem_append_left _ (List.mem_append_right _
      (List.mem_filterMap.mpr ⟨_, hmem, by rw [← Option.map_some, htext']; rfl⟩))))
    (stringBytes text)
    (List.mem_append_left _ (List.mem_append_left _ (List.mem_append_right _
      (List.mem_filterMap.mpr ⟨_, ht, by rw [htext]; rfl⟩)))) hsame
  rw [stringBytes_injective hbytes] at htext'
  exact survives_of_txnJson t text htext htext'

end Hashes

/-- A block that was built, with string and integer storages, goes through a message with its hashes
if and only if it has no receipts and no number in it is changed by being a `float64`. -/
theorem block_round_trip_iff (env : Env F) (hnumbers : JsonNumbers F) (m : Miner) (source : String)
    (hm : m.attacker → source = m.addr) (bb : BlockBuilder F) (b : Block F) (hbuild : bb.build env = .ok b)
    (hplain : b.state.Plain) (hlength : ∀ bs, (env.sha256 bs).length = 32)
    (hsha : ∀ b', deliverBlock env m source b = .ok (some b') → CollisionFree env (b.hashed env ++ b'.hashed env)) :
    RoundTrips env m source b ↔ b.Survives := by
  have hb := build_sealed env bb b hbuild
  have hmarshals : b.marshals ↔ ∀ t ∈ b.transactions, (txnJson t).isSome := by
    obtain ⟨bs, hbs, -⟩ := hb.state
    obtain ⟨rs, hrs, -⟩ := hb.receipts
    simp [Block.marshals, hbs, hrs]
  constructor
  · rintro ⟨b', hdeliver, hstate, htxns, hreceipts, -⟩
    have hmar : b.marshals := by
      by_contra hno
      rw [deliverBlock, if_neg hno] at hdeliver
      cases hdeliver
    obtain ⟨b'', hdeliver', hrebuilt, hb'⟩ := deliverBlock_eq_ok env hnumbers m source hm b hplain hmar
    cases hdeliver.symm.trans hdeliver'
    have hfree := hsha b' hdeliver
    exact ⟨receipts_of_hash hnumbers hb hb' hrebuilt hfree hreceipts,
      accounts_of_hash hnumbers hplain hb hb' hrebuilt hfree hstate,
      transactions_of_hash hnumbers hb hb' hrebuilt hfree hlength hmar htxns⟩
  · intro h
    have hmar : b.marshals := by
      rw [hmarshals]
      intro t ht
      cases t with
      | none => rfl
      | some x =>
        obtain ⟨text, htext, -⟩ := h.transactions x ht
        simp only [txnJson, Option.elim_some, json_eq_around, htext, Option.map_some, Option.isSome_some]
    obtain ⟨b', hdeliver, hrebuilt, hb'⟩ := deliverBlock_eq_ok env hnumbers m source hm b hplain hmar
    obtain ⟨hstate, htxns, hreceipts⟩ := hashes_of_survives hnumbers hplain hb hb' hrebuilt h
    exact ⟨b', hdeliver, hstate, htxns, hreceipts, hash_of_hashes env hrebuilt hstate htxns hreceipts⟩

theorem jsonNumbers_int : JsonNumbers Int where
  ofInt _ := ⟨_, rfl⟩
  isNumber f _ h := Option.some.inj h ▸ isNumber_int f

theorem toUint_ofUint_int (u : UInt64) : Float64.toUint (Float64.ofUint (F := Int) u) = u := by
  have hlt := u.toNat_lt
  have hmod : (u.toNat : Int) % 2 ^ 64 = u.toNat := Int.emod_eq_of_lt (by omega) (by omega)
  simp only [Float64.toUint, Float64.ofUint, UInt64.ofInt]
  rw [hmod, Int.toNat_natCast, UInt64.ofNat_toNat]

theorem survives_int (s : State Int) : s.Survives where
  nonce := toUint_ofUint_int s.nonce
  balance := toUint_ofUint_int s.balance
  stored _ _ _ := rfl

def digestEnv : Env Int := { sampleEnv none with sha256 := sampleSha }

def sentState : State Int := { sampleState 1 7 "" with storageRoot := SimpleKV.new.put "coin" (.int 5) }

/-- A payment, the account that paid, and receipts. -/
def sentBuilder (receipts : SimpleKV (Value Int)) : BlockBuilder Int :=
  { parentHash := DUMMY_PARENT_HASH
    state := sampleWorld [(sampleAddress 1, sentState)]
    transactions := [some payment]
    receipts }

theorem mem_singleton_put {V : Type} {k : String} {v : V} {e : String × V}
    (h : e ∈ ((SimpleKV.new : SimpleKV V).put k v).internal.toList) : e.2 = v := by
  have hget : ((SimpleKV.new : SimpleKV V).put k v).get? e.1 = some e.2 :=
    Std.ExtTreeMap.mem_toList_iff_getElem?_eq_some.mp h
  rw [SimpleKV.get?_put] at hget
  split_ifs at hget
  · exact (Option.some.inj hget).symm
  · simp [SimpleKV.get?, SimpleKV.new] at hget

theorem sentBuilder_plain (receipts : SimpleKV (Value Int)) : (sentBuilder receipts).state.Plain := by
  intro e he
  refine ⟨sentState, mem_singleton_put he, ?_⟩
  intro v hv
  exact Or.inr ⟨5, mem_singleton_put hv⟩

theorem sentBuilder_round_trip :
    ∃ b, (sentBuilder .new).build digestEnv = .ok b ∧ RoundTrips digestEnv sampleMiner "127.0.0.1:2" b := by
  have hcheck : ((sentBuilder .new).build digestEnv).any (fun b =>
      (deliverBlock digestEnv sampleMiner "127.0.0.1:2" b).any fun o =>
        o.all fun b' => decide (CollisionFree digestEnv (b.hashed digestEnv ++ b'.hashed digestEnv))) = true := by
    decide +kernel
  obtain ⟨b, hbuild, hcheck⟩ := (Outcome.any_eq_true ..).mp hcheck
  obtain ⟨o, hdeliver, hcheck⟩ := (Outcome.any_eq_true ..).mp hcheck
  obtain ⟨-, hstate, htxns⟩ := build_eq_ok _ _ _ hbuild
  refine ⟨b, hbuild, (block_round_trip_iff digestEnv jsonNumbers_int sampleMiner "127.0.0.1:2" (by decide)
    (sentBuilder .new) b hbuild (hstate ▸ sentBuilder_plain .new) length_sampleSha ?_).mpr ?_⟩
  · intro b' hb'
    cases hdeliver.symm.trans hb'
    exact of_decide_eq_true hcheck
  · refine ⟨build_receipts _ _ _ hbuild, fun _ s _ => survives_int s, ?_⟩
    intro t ht
    rw [htxns] at ht
    cases List.mem_singleton.mp ht
    exact ⟨_, rfl, rfl⟩

/-- One receipt, and the block has another hash when it arrives. -/
theorem sentBuilder_loses_receipts :
    ∃ b b', (sentBuilder (SimpleKV.new.put "0" (.str "paid"))).build digestEnv = .ok b ∧ b.state.Plain ∧
      deliverBlock digestEnv sampleMiner "127.0.0.1:2" b = .ok (some b') ∧
      b'.header.receiptsHash ≠ b.header.receiptsHash ∧ b'.hash digestEnv ≠ b.hash digestEnv ∧
      ¬ RoundTrips digestEnv sampleMiner "127.0.0.1:2" b := by
  have hcheck : ((sentBuilder (SimpleKV.new.put "0" (.str "paid"))).build digestEnv).any (fun b =>
      (deliverBlock digestEnv sampleMiner "127.0.0.1:2" b).any fun o =>
        o.any fun b' => b'.header.receiptsHash ≠ b.header.receiptsHash ∧ b'.hash digestEnv ≠ b.hash digestEnv) = true := by
    decide +kernel
  obtain ⟨b, hbuild, hcheck⟩ := (Outcome.any_eq_true ..).mp hcheck
  obtain ⟨o, hdeliver, hcheck⟩ := (Outcome.any_eq_true ..).mp hcheck
  obtain ⟨b', rfl, hcheck⟩ := (Option.any_eq_true ..).mp hcheck
  obtain ⟨hreceipts, hhash⟩ := of_decide_eq_true hcheck
  obtain ⟨-, hstate, -⟩ := build_eq_ok _ _ _ hbuild
  refine ⟨b, b', hbuild, hstate ▸ sentBuilder_plain _, hdeliver, hreceipts, hhash, ?_⟩
  rintro ⟨b'', hdeliver', -, -, -, hsame⟩
  cases hdeliver.symm.trans hdeliver'
  exact hhash hsame

end MarketPeer.Ledger

import MarketPeer.Gossip.Store

/-!
# Anti-entropy between two nodes

A node that gets the status of another one sends at most ten of the rumors that the
other lacks, in an order that the iteration over a map decides. What is missing between
the two stores gets less with every such message.
-/

namespace MarketPeer.Gossip

namespace Store

/-- The stores have the same rumors as far as both go. -/
def Agree (a b : Store) : Prop :=
  ∀ (o : String) (i : Nat) (r r' : Rumor), (a.rumorsOf o)[i]? = some r → (b.rumorsOf o)[i]? = some r' → r = r'

theorem Agree.symm {a b : Store} (h : Agree a b) : Agree b a := by
  intro o i r r' hr hr'
  exact (h o i r' r hr' hr).symm

/-- How many of the rumors of `a` are not in `b`. -/
def missing (a b : Store) : Nat := mapSum (fun o rumors => rumors.length - (b.rumorsOf o).length) a.rumors

/-- The loop of `RumorsMsgCallback`, as far as the store goes. -/
def acceptAll (s : Store) : List Rumor → Option Store
  | [] => some s
  | rumor :: rest => if s.expects rumor then (s.accept rumor).bind (acceptAll · rest) else acceptAll s rest

/-! ## A message of one node at the other -/

/-- A rumor of the store, or one of the zero values behind the rumors of a message. -/
def Sends (a : Store) (r : Rumor) : Prop := r = .zero ∨ ∃ (o : String) (i : Nat), (a.rumorsOf o)[i]? = some r

theorem not_expects_zero {s : Store} (hok : s.Ok) : ¬ s.expects .zero := by
  rw [expects_iff hok]
  intro h
  cases h

theorem accept_eq_some {s : Store} {r : Rumor} (hsmall : (s.rumorsOf r.origin).length + 1 < 2 ^ 63) :
    ∃ s', s.accept r = some s' := by
  unfold Store.accept Store.append
  rw [if_pos hsmall, if_pos (show ([] : List Rumor).length + 1 < 2 ^ 63 by decide)]
  split_ifs
  · exact ⟨_, rfl⟩
  · exact ⟨_, rfl⟩

/-- `b'` is `b` with rumors of `a`. -/
structure Grows (a b b' : Store) : Prop where
  ok : b'.Ok
  agree : Agree a b'
  mono : ∀ o, (b.seq o).toNat ≤ (b'.seq o).toNat
  bounded : ∀ o, (b'.seq o).toNat ≤ max (b.seq o).toNat (a.seq o).toNat
  more : b.total ≤ b'.total
  total : b'.total + missing a b' = b.total + missing a b
  back : missing b' a = missing b a

theorem Grows.refl {a b : Store} (hb : b.Ok) (h : Agree a b) : Grows a b b where
  ok := hb
  agree := h
  mono _ := Nat.le_refl _
  bounded _ := Nat.le_max_left _ _
  more := Nat.le_refl _
  total := rfl
  back := rfl

theorem Grows.trans {a b b' b'' : Store} (h : Grows a b b') (h' : Grows a b' b'') : Grows a b b'' where
  ok := h'.ok
  agree := h'.agree
  mono o := Nat.le_trans (h.mono o) (h'.mono o)
  bounded o := by
    have hfirst := h.bounded o
    have hsecond := h'.bounded o
    omega
  more := Nat.le_trans h.more h'.more
  total := h'.total.trans h.total
  back := h'.back.trans h.back

section Extends

variable {a b b' : Store} {r : Rumor} (h : b.Extends r b')
  (hnext : (a.rumorsOf r.origin)[(b.rumorsOf r.origin).length]? = some r)
include h hnext

theorem missing_extends : missing a b' + 1 = missing a b := by
  have hlt : (b.rumorsOf r.origin).length < (a.rumorsOf r.origin).length := (List.getElem?_eq_some_iff.mp hnext).1
  have hheld : a.rumors[r.origin]? = some (a.rumorsOf r.origin) := by
    unfold rumorsOf at hlt ⊢
    rw [Std.ExtTreeMap.getD_eq_getD_getElem?, Std.ExtTreeMap.getD_eq_getD_getElem?] at hlt
    rw [Std.ExtTreeMap.getD_eq_getD_getElem?]
    cases ha : a.rumors[r.origin]? with
    | none =>
      rw [ha] at hlt
      exact absurd hlt (Nat.not_lt_zero _)
    | some rumors => rfl
  have hrest : ((a.rumors.toList.filter (·.1 ≠ r.origin)).map fun e => e.2.length - (b'.rumorsOf e.1).length)
      = (a.rumors.toList.filter (·.1 ≠ r.origin)).map fun e => e.2.length - (b.rumorsOf e.1).length := by
    apply List.map_congr_left
    intro e he
    have hne : r.origin ≠ e.1 := by
      have := (List.mem_filter.mp he).2
      rw [decide_eq_true_eq] at this
      exact Ne.symm this
    rw [h.rumorsOf, if_neg hne]
  unfold missing
  rw [mapSum_at _ a.rumors r.origin, mapSum_at _ a.rumors r.origin, hheld, hrest, h.rumorsOf, if_pos rfl]
  simp only [Option.elim_some, List.length_append, List.length_singleton]
  omega

theorem missing_extends_back : missing b' a = missing b a := by
  have hlt : (b.rumorsOf r.origin).length < (a.rumorsOf r.origin).length := (List.getElem?_eq_some_iff.mp hnext).1
  have hinsert := mapSum_insert (fun o (rumors : List Rumor) => rumors.length - (a.rumorsOf o).length) b.rumors r.origin
    (b.rumorsOf r.origin ++ [r])
  have hold : (b.rumors[r.origin]?).elim 0
      (fun (rumors : List Rumor) => rumors.length - (a.rumorsOf r.origin).length) = 0 := by
    cases hb : b.rumors[r.origin]? with
    | none => rfl
    | some rumors =>
      have hheld : b.rumorsOf r.origin = rumors := by
        unfold rumorsOf
        rw [Std.ExtTreeMap.getD_eq_getD_getElem?, hb]
        rfl
      rw [hheld] at hlt
      exact Nat.sub_eq_zero_of_le (Nat.le_of_lt hlt)
  rw [hold, List.length_append, List.length_singleton] at hinsert
  unfold missing
  rw [h.rumors]
  omega

theorem grows_extends (hb : b.Ok) (ha : a.Ok) (hagree : Agree a b) : Grows a b b' where
  ok := h.ok hb
  agree := by
    intro o i x x' hx hx'
    rw [h.rumorsOf] at hx'
    split_ifs at hx' with ho
    · subst ho
      rw [List.getElem?_append] at hx'
      split_ifs at hx' with hi
      · exact hagree r.origin i x x' hx hx'
      · rw [List.getElem?_singleton] at hx'
        split_ifs at hx' with hi'
        cases hx'
        have hsame : i = (b.rumorsOf r.origin).length := by omega
        rw [hsame, hnext] at hx
        exact (Option.some.inj hx).symm
    · exact hagree o i x x' hx hx'
  mono o := by
    rw [← hb.length, ← (h.ok hb).length, h.rumorsOf]
    split_ifs
    · simp
    · exact Nat.le_refl _
  bounded o := by
    rw [← hb.length, ← (h.ok hb).length, ← ha.length, h.rumorsOf]
    split_ifs with ho
    · subst ho
      have hlt : (b.rumorsOf r.origin).length < (a.rumorsOf r.origin).length := (List.getElem?_eq_some_iff.mp hnext).1
      rw [List.length_append, List.length_singleton]
      omega
    · exact Nat.le_max_left _ _
  more := by
    rw [h.total]
    omega
  total := by
    have hmissing := missing_extends h hnext
    rw [h.total]
    omega
  back := missing_extends_back h hnext

end Extends

section Messages

variable {a b : Store} (ha : a.Ok) (hb : b.Ok) (hagree : Agree a b)
include ha hb hagree

/-- A rumor that is expected is the next one that the sender has. -/
theorem accept_sent {r : Rumor} (hr : a.Sends r) (hexpects : b.expects r) :
    ∃ b', b.accept r = some b' ∧ b.Extends r b' ∧ Grows a b b' := by
  rcases hr with rfl | ⟨o, i, hi⟩
  · exact (not_expects_zero hb hexpects).elim
  · obtain ⟨rfl, hsequence⟩ := ha.numbered o i r hi
    have hnext := (expects_iff hb r).mp hexpects
    have hindex : i = (b.rumorsOf r.origin).length := by omega
    rw [hindex] at hi
    have hlt : (b.rumorsOf r.origin).length < (a.rumorsOf r.origin).length := (List.getElem?_eq_some_iff.mp hi).1
    have hsmall := ha.small r.origin
    obtain ⟨b', hb'⟩ := accept_eq_some (s := b) (r := r) (by omega)
    have hextends := accept_extends hb hexpects hb'
    exact ⟨b', hb', hextends, grows_extends hextends hi hb ha hagree⟩

omit hb hagree in
theorem acceptAll_grows (msg : List Rumor) (hmsg : ∀ r ∈ msg, a.Sends r) (hb : b.Ok) (hagree : Agree a b) :
    ∃ b', b.acceptAll msg = some b' ∧ Grows a b b' := by
  induction msg generalizing b with
  | nil => exact ⟨b, rfl, .refl hb hagree⟩
  | cons r msg ih =>
    have hrest := fun x hx => hmsg x (List.mem_cons_of_mem r hx)
    unfold acceptAll
    split_ifs with hexpects
    · obtain ⟨b₁, haccept, -, hgrows⟩ := accept_sent ha hb hagree (hmsg r List.mem_cons_self) hexpects
      obtain ⟨b', hall, hgrows'⟩ := ih hrest hgrows.ok hgrows.agree
      exact ⟨b', by rw [haccept]; exact hall, hgrows.trans hgrows'⟩
    · exact ih hrest hb hagree

/-- A message that begins with the next rumor of some origin brings something new. -/
theorem acceptAll_progress {r : Rumor} {msg : List Rumor} (hmsg : ∀ x ∈ r :: msg, a.Sends x) (hexpects : b.expects r) :
    ∃ b', b.acceptAll (r :: msg) = some b' ∧ Grows a b b' ∧ b.total < b'.total := by
  have hrest := fun x hx => hmsg x (List.mem_cons_of_mem r hx)
  obtain ⟨b₁, haccept, hextends, hgrows⟩ := accept_sent ha hb hagree (hmsg r List.mem_cons_self) hexpects
  obtain ⟨b', hall, hgrows'⟩ := acceptAll_grows ha msg hrest hgrows.ok hgrows.agree
  have hmore := hgrows'.more
  have hone := hextends.total
  refine ⟨b', ?_, hgrows.trans hgrows', by omega⟩
  unfold acceptAll
  rw [if_pos hexpects, haccept]
  exact hall

end Messages

end Store

/-! ## What embedded messages do -/

/-- The message of the rumor is not nil, and neither a `RumorsMessage` nor one inside `PrivateMessage`s. -/
def Rumor.Flat (r : Rumor) : Prop := ∃ msg, r.msg = some msg ∧ ∀ addr, opened addr msg = none

def Store.Flat (s : Store) : Prop := ∀ (o : String) (i : Nat) (r : Rumor), (s.rumorsOf o)[i]? = some r → r.Flat

/-- No store expects the zero value. -/
theorem Rumor.Flat.of_expects {s : Store} {r : Rumor} (hok : s.Ok) (h : r = .zero ∨ r.Flat) (hexpects : s.expects r) :
    r.Flat := by
  refine h.resolve_left ?_
  rintro rfl
  exact Store.not_expects_zero hok hexpects

/-- The rounds of `RumorsMsgCallback`, and the ends of the calls inside it. -/
def Event.Rounds : Event → Prop
  | .nextRumor => True
  | .done _ => True
  | _ => False

/-- The loop of the outermost call is through, or this call has ended. -/
def Messager.Through (m : Messager) : Prop := m.calls = [] ∨ ∃ call, m.calls = [call] ∧ call.rest = []

/-- `RumorsMsgCallback` of `m` brings the store to `b'`, together with the messages that the rumors embed. -/
def Handles (m : Messager) (relayedBy packetID : String) (msg : List Rumor) (b' : Store) : Prop :=
  ∃ (es : List Event) (m' : Messager), (∀ e ∈ es, e.Rounds) ∧
    run step m (.receive relayedBy packetID (.rumors msg) :: es) = some m' ∧ m'.Through ∧ m'.store = b'

theorem nextRumor_flat {m : Messager} (call : Call) {r : Rumor} (rest : List Rumor) (outer : List Call)
    {s : Store} (hflat : r.Flat) (hexpects : m.store.expects r) (haccept : m.store.accept r = some s) :
    ∃ m', nextRumor m call r rest outer = some m' ∧ m'.store = s ∧
      m'.calls = { call with rest, isNew := true } :: outer := by
  obtain ⟨msg, hmsg, hopened⟩ := hflat
  unfold nextRumor
  rw [if_pos hexpects, haccept, Option.map_some, hmsg]
  refine ⟨_, rfl, ?_, ?_⟩
  · exact (Kept.process ..).store.trans (Kept.setRoutingEntry r.origin call.relayedBy).store
  · simp only [process, hopened]

theorem nextRumor_skipped {m : Messager} (call : Call) {r : Rumor} (rest : List Rumor) (outer : List Call)
    (hexpects : ¬ m.store.expects r) :
    nextRumor m call r rest outer = some { m with calls := { call with rest } :: outer } := by
  unfold nextRumor
  rw [if_neg hexpects]

theorem run_nextRumor (m : Messager) (call : Call) (hcalls : m.calls = [call])
    (hok : m.store.Ok) (hflat : ∀ r ∈ call.rest, r = .zero ∨ r.Flat)
    (store : Store) (h : m.store.acceptAll call.rest = some store) :
    ∃ m', run step m (List.replicate call.rest.length .nextRumor) = some m' ∧ m'.Through ∧ m'.store = store := by
  induction hrest : call.rest generalizing m call with
  | nil =>
    rw [hrest] at h
    exact ⟨m, rfl, Or.inr ⟨call, hcalls, hrest⟩, Option.some.inj h⟩
  | cons r rest ih =>
    rw [hrest] at h hflat
    have hlater := fun x hx => hflat x (List.mem_cons_of_mem r hx)
    have hstep : step m .nextRumor = nextRumor m call r rest [] := by
      simp only [step, hcalls, hrest]
    rw [List.length_cons, List.replicate_succ]
    unfold Store.acceptAll at h
    split_ifs at h with hexpects
    · obtain ⟨s₁, haccept, hall⟩ := Option.bind_eq_some_iff.mp h
      have hr := Rumor.Flat.of_expects hok (hflat r List.mem_cons_self) hexpects
      obtain ⟨m₁, hnext, rfl, hcalls₁⟩ := nextRumor_flat call rest [] hr hexpects haccept
      have hok₁ := (Store.accept_extends hok hexpects haccept).ok hok
      obtain ⟨m', hrun, hend⟩ := ih m₁ _ hcalls₁ hok₁ hlater hall rfl
      exact ⟨m', (run_cons (hstep.trans hnext) _).trans hrun, hend⟩
    · obtain ⟨m', hrun, hend⟩ := ih { m with calls := { call with rest } :: [] } _ rfl hok hlater h rfl
      exact ⟨m', (run_cons (hstep.trans (nextRumor_skipped call rest [] hexpects)) _).trans hrun, hend⟩

theorem addNeighbor_calls (m : Messager) (addr : String) : (m.addNeighbor addr).calls = m.calls := by
  unfold Messager.addNeighbor
  split_ifs <;> rfl

theorem unicast_calls (m : Messager) (dest : String) (sent : Sent) :
    ((m.unicast dest sent).getD m).calls = m.calls := by
  unfold Messager.unicast
  cases m.nextHop dest <;> rfl

theorem finish_calls (m : Messager) (call : Call) (randNei : String) : (finish m call randNei).calls = m.calls := by
  have hack := unicast_calls m call.relayedBy (.ack call.packetID m.store.seqs)
  unfold finish
  cases h : m.unicast call.relayedBy (.ack call.packetID m.store.seqs) with
  | none => rfl
  | some m₁ =>
    rw [h] at hack
    simp only
    split_ifs
    · exact (unicast_calls ..).trans hack
    · exact hack

theorem run_of_no_calls {m m' : Messager} {es : List Event} (hcalls : m.calls = []) (hrounds : ∀ e ∈ es, e.Rounds)
    (hrun : run step m es = some m') : m' = m := by
  cases es with
  | nil => exact (Option.some.inj hrun).symm
  | cons e es =>
    have he := hrounds e List.mem_cons_self
    cases e <;> first | exact he.elim | simp [run, step, hcalls] at hrun

/-- However the rounds of a flat message come, they store what is expected of it. -/
theorem store_of_rounds (m m' : Messager) (call : Call) (hcalls : m.calls = [call]) (hok : m.store.Ok)
    (es : List Event) (hrounds : ∀ e ∈ es, e.Rounds) (hflat : ∀ r ∈ call.rest, r = .zero ∨ r.Flat)
    (hrun : run step m es = some m') (hend : m'.Through) : m.store.acceptAll call.rest = some m'.store := by
  induction es generalizing m call with
  | nil =>
    cases hrun
    rcases hend with hnone | ⟨call', hcalls', hrest⟩
    · rw [hcalls] at hnone
      cases hnone
    · rw [hcalls, List.cons.injEq] at hcalls'
      rw [hcalls'.1, hrest]
      rfl
  | cons e es ih =>
    have hlater := fun x hx => hrounds x (List.mem_cons_of_mem e hx)
    obtain ⟨m₁, hstep, htail⟩ := Option.bind_eq_some_iff.mp hrun
    have he := hrounds e List.mem_cons_self
    cases e with
    | nextRumor =>
      simp only [step, hcalls] at hstep
      cases hrest : call.rest with
      | nil => simp [hrest] at hstep
      | cons r rest =>
        rw [hrest] at hflat
        simp only [hrest] at hstep
        have hflat' := fun x hx => hflat x (List.mem_cons_of_mem r hx)
        unfold Store.acceptAll
        by_cases hexpects : m.store.expects r
        · have hr := Rumor.Flat.of_expects hok (hflat r List.mem_cons_self) hexpects
          cases haccept : m.store.accept r with
          | none => simp [nextRumor, hexpects, haccept] at hstep
          | some s₁ =>
            obtain ⟨m₂, hnext, rfl, hcalls₂⟩ := nextRumor_flat call rest [] hr hexpects haccept
            cases hnext.symm.trans hstep
            have hok₁ := (Store.accept_extends hok hexpects haccept).ok hok
            rw [if_pos hexpects]
            exact ih m₁ _ hcalls₂ hok₁ hlater hflat' htail
        · rw [nextRumor_skipped call rest [] hexpects] at hstep
          cases hstep
          rw [if_neg hexpects]
          exact ih { m with calls := [{ call with rest }] } _ rfl hok hlater hflat' htail
    | done randNei =>
      simp only [step, hcalls] at hstep
      split_ifs at hstep with hdone
      cases hstep
      have hpopped : Kept m { m with calls := [] } := ⟨rfl, rfl, rfl⟩
      have hkept := hpopped.trans (.finish call randNei)
      rw [run_of_no_calls (finish_calls ..) hlater htail, hdone.1, hkept.store]
      rfl
    | broadcast _ | receive _ _ _ | receiveStatus _ _ _ _ _ => exact he.elim

/-- A call of `RumorsMsgCallback` with a flat message does to the store what its loop does. -/
theorem handles_iff {m : Messager} {relayedBy packetID : String} {msg : List Rumor} (hcalls : m.calls = [])
    (hok : m.store.Ok) (hflat : ∀ r ∈ msg, r = .zero ∨ r.Flat) (b' : Store) :
    Handles m relayedBy packetID msg b' ↔ m.store.acceptAll msg = some b' := by
  have hkept := Kept.addNeighbor (m := m) relayedBy
  obtain ⟨m₁, hstep, hcalls₁, hstore₁⟩ : ∃ m₁, step m (.receive relayedBy packetID (.rumors msg)) = some m₁ ∧
      m₁.calls = [⟨relayedBy, packetID, msg, msg, false⟩] ∧ m₁.store = m.store := by
    refine ⟨process (m.addNeighbor relayedBy) relayedBy packetID (.rumors msg), by simp [step, hcalls], ?_, ?_⟩
    · simp [process, opened, addNeighbor_calls, hcalls]
    · rw [(Kept.process ..).store, hkept.store]
  rw [← hstore₁] at hok ⊢
  constructor
  · rintro ⟨es, m', hrounds, hrun, hend, rfl⟩
    rw [run_cons hstep] at hrun
    exact store_of_rounds m₁ m' _ hcalls₁ hok es hrounds hflat hrun hend
  · intro haccept
    obtain ⟨m', hrun, hend, hstore⟩ := run_nextRumor m₁ _ hcalls₁ hok hflat b' haccept
    refine ⟨_, m', ?_, (run_cons hstep _).trans hrun, hend, hstore⟩
    intro e he
    rw [List.eq_of_mem_replicate he]
    trivial

theorem acceptAll_flat {s s' : Store} (hok : s.Ok) (hs : s.Flat) (msg : List Rumor)
    (hflat : ∀ r ∈ msg, r = .zero ∨ r.Flat) (h : s.acceptAll msg = some s') : s'.Flat := by
  induction msg generalizing s with
  | nil => exact Option.some.inj h ▸ hs
  | cons r rest ih =>
    have hlater := fun x hx => hflat x (List.mem_cons_of_mem r hx)
    unfold Store.acceptAll at h
    split_ifs at h with hexpects
    · obtain ⟨s₁, haccept, hall⟩ := Option.bind_eq_some_iff.mp h
      have hextends := Store.accept_extends hok hexpects haccept
      have hr := Rumor.Flat.of_expects hok (hflat r List.mem_cons_self) hexpects
      refine ih (hextends.ok hok) (fun o i x hx => ?_) hlater hall
      rw [hextends.rumorsOf] at hx
      split_ifs at hx
      · rcases List.mem_append.mp (List.mem_of_getElem? hx) with hold | hnew
        · obtain ⟨k, hk⟩ := List.getElem?_of_mem hold
          exact hs o k x hk
        · rw [List.mem_singleton.mp hnew]
          exact hr
      · exact hs o i x hx
    · exact ih hok hs hlater h

theorem Store.Sends.flat {s : Store} (hs : s.Flat) {r : Rumor} (h : s.Sends r) : r = .zero ∨ r.Flat := by
  rcases h with rfl | ⟨o, i, hi⟩
  · exact Or.inl rfl
  · exact Or.inr (hs o i r hi)

/-! ## What a status is answered with -/

section Status

variable {s : Store} (hok : s.Ok) (otherView : StatusMessage)
include hok

theorem meExceptOther_get {p : String} {lastSeq : UInt64} (hlast : s.seqs[p]? = some lastSeq) :
    (meExceptOther s otherView)[p]? =
      if otherView[p]?.any (lastSeq ≤ ·) then none else some ((s.rumorsOf p).drop (otherView.getD p 0).toNat) := by
  have hall : (s.rumorsOf p).take lastSeq.toNat = s.rumorsOf p := by
    rw [← Store.seq_of_getElem? hlast, ← hok.length, List.take_length]
  unfold meExceptOther
  rw [Std.ExtTreeMap.getElem?_filterMap', hlast, Option.bind_some, hall, Std.ExtTreeMap.getD_eq_getD_getElem?]
  cases otherView[p]? with
  | none => rfl
  | some otherLastSeq =>
    simp only [Option.any_some, Option.getD_some, decide_eq_true_eq]
    by_cases hlt : otherLastSeq < lastSeq
    · rw [if_pos hlt, if_neg (UInt64.not_le.mpr hlt)]
    · rw [if_neg hlt, if_pos (UInt64.not_lt.mp hlt)]

theorem meExceptOther_eq {p : String} {rumors : List Rumor} (h : (meExceptOther s otherView)[p]? = some rumors) :
    rumors = (s.rumorsOf p).drop (otherView.getD p 0).toNat := by
  cases hlast : s.seqs[p]? with
  | none =>
    unfold meExceptOther at h
    rw [Std.ExtTreeMap.getElem?_filterMap', hlast] at h
    cases h
  | some lastSeq =>
    rw [meExceptOther_get hok otherView hlast] at h
    split_ifs at h
    exact (Option.some.inj h).symm

theorem meExceptOther_of_lt {p : String} (h : (otherView.getD p 0).toNat < (s.seq p).toNat) :
    (meExceptOther s otherView)[p]? = some ((s.rumorsOf p).drop (otherView.getD p 0).toNat) := by
  cases hlast : s.seqs[p]? with
  | none =>
    have hcontains : s.seqs.contains p = false := by
      rw [Std.ExtTreeMap.contains_eq_isSome_getElem?, hlast]
      rfl
    rw [(Store.rumorsOf_eq_nil hok hcontains).2] at h
    exact absurd h (Nat.not_lt_zero _)
  | some lastSeq =>
    rw [meExceptOther_get hok otherView hlast, if_neg]
    rw [Store.seq_of_getElem? hlast, Std.ExtTreeMap.getD_eq_getD_getElem?] at h
    cases hother : otherView[p]? with
    | none => simp
    | some otherLastSeq =>
      rw [hother, Option.getD_some] at h
      rw [Option.any_some, decide_eq_true_eq, UInt64.le_iff_toNat_le]
      omega

/-- Every rumor of the answer is one of the store, or a zero behind them. -/
theorem sends_firstTen (order : List String) :
    ∀ r ∈ firstTen (order.flatMap fun p => (meExceptOther s otherView).getD p []), s.Sends r := by
  intro r hr
  rcases List.mem_append.mp (List.mem_of_mem_take hr) with hr | hr
  · obtain ⟨p, -, hr⟩ := List.mem_flatMap.mp hr
    rw [Std.ExtTreeMap.getD_eq_getD_getElem?] at hr
    cases hp : (meExceptOther s otherView)[p]? with
    | none =>
      rw [hp] at hr
      cases hr
    | some rumors =>
      rw [hp, Option.getD_some, meExceptOther_eq hok otherView hp] at hr
      obtain ⟨i, hi⟩ := List.getElem?_of_mem (List.mem_of_mem_drop hr)
      exact Or.inr ⟨p, i, hi⟩
  · exact Or.inl (List.eq_of_mem_replicate hr)

end Status

/-- The first of many lists in a row that is not empty. -/
theorem flatMap_eq_cons {α β : Type} (f : α → List β) (xs : List α) (x : α) (hx : x ∈ xs) (hne : f x ≠ []) :
    ∃ y ∈ xs, ∃ b bs rest, f y = b :: bs ∧ xs.flatMap f = b :: rest := by
  induction xs with
  | nil => cases hx
  | cons z xs ih =>
    cases hz : f z with
    | nil =>
      have htail : x ∈ xs := by
        rcases List.mem_cons.mp hx with rfl | htail
        · exact (hne hz).elim
        · exact htail
      obtain ⟨y, hy, b, bs, rest, hfy, hflat⟩ := ih htail
      refine ⟨y, List.mem_cons_of_mem z hy, b, bs, rest, hfy, ?_⟩
      rw [List.flatMap_cons, hz, List.nil_append, hflat]
    | cons b bs =>
      refine ⟨z, List.mem_cons_self, b, bs, bs ++ xs.flatMap f, hz, ?_⟩
      rw [List.flatMap_cons, hz, List.cons_append]

/-! ## Exchanges -/

/-- The node with `a` gets the status of the one with `b`, answers with rumors, whatever the order of
its map, and they bring the other node to `b'`, with more rumors. -/
def Exchange (a b b' : Store) : Prop :=
  ∃ order msg m relayedBy packetID, order.Perm (meExceptOther a b.seqs).keys ∧
    statusReply a b.seqs order = some (.rumors msg) ∧ m.store = b ∧ m.calls = [] ∧
    Handles m relayedBy packetID msg b' ∧ b.total < b'.total

/-- `n` exchanges in any directions. -/
inductive Exchanges : Nat → Store → Store → Store → Store → Prop where
  | nil (a b : Store) : Exchanges 0 a b a b
  | toSecond {n : Nat} {a b b' c d : Store} (h : Exchange a b b') (rest : Exchanges n a b' c d) :
      Exchanges (n + 1) a b c d
  | toFirst {n : Nat} {a a' b c d : Store} (h : Exchange b a a') (rest : Exchanges n a' b c d) :
      Exchanges (n + 1) a b c d

/-- What the answer of `a` does to a node with the store `b`, for every order: it ends in one store, which
has more rumors, and there no sequence number went back or got past the one of `a`. -/
def Advances (a b : Store) : Prop :=
  ∀ order : List String, order.Perm (meExceptOther a b.seqs).keys →
    ∀ (m : Messager) (relayedBy packetID : String), m.store = b → m.calls = [] →
      ∃ msg b', statusReply a b.seqs order = some (.rumors msg) ∧
        (∀ s, Handles m relayedBy packetID msg s ↔ s = b') ∧ b.total < b'.total ∧
        ∀ o, (b.seq o).toNat ≤ (b'.seq o).toNat ∧ (b'.seq o).toNat ≤ max (b.seq o).toNat (a.seq o).toNat

section Two

variable {a b : Store} (ha : a.Ok) (hb : b.Ok) (hagree : Store.Agree a b)
include ha hb hagree

theorem answer_of_lt {o : String} (hlt : (b.seq o).toNat < (a.seq o).toNat) (order : List String)
    (horder : order.Perm (meExceptOther a b.seqs).keys) :
    ∃ msg b', statusReply a b.seqs order = some (.rumors msg) ∧ b.acceptAll msg = some b' ∧ b.total < b'.total ∧
      (∀ r ∈ msg, a.Sends r) ∧ Store.Grows a b b' := by
  have hmissing := meExceptOther_of_lt ha b.seqs hlt
  have hmem : o ∈ order := by
    rw [horder.mem_iff, Std.ExtTreeMap.mem_keys, Std.ExtTreeMap.mem_iff_isSome_getElem?, hmissing]
    rfl
  have hreply : statusReply a b.seqs order =
      some (.rumors (firstTen (order.flatMap fun p => (meExceptOther a b.seqs).getD p []))) := by
    unfold statusReply
    rw [if_pos]
    intro hempty
    rw [Std.ExtTreeMap.isEmpty_iff.mp hempty] at hmissing
    simp at hmissing
  -- The first rumor of the message is the next one of its origin.
  obtain ⟨p, hp, r, rs, rest, hfirst, hflat⟩ := flatMap_eq_cons
    (fun p => (meExceptOther a b.seqs).getD p []) order o hmem (by
      rw [Std.ExtTreeMap.getD_eq_getD_getElem?, hmissing, Option.getD_some, ne_eq, List.drop_eq_nil_iff, ha.length]
      exact Nat.not_le.mpr hlt)
  have hten : firstTen (r :: rest) = r :: (rest ++ List.replicate 10 Rumor.zero).take 9 := rfl
  have hnext : (a.rumorsOf p)[(b.rumorsOf p).length]? = some r := by
    rw [Std.ExtTreeMap.getD_eq_getD_getElem?] at hfirst
    cases hget : (meExceptOther a b.seqs)[p]? with
    | none =>
      rw [hget] at hfirst
      cases hfirst
    | some rumors =>
      rw [hget, Option.getD_some, meExceptOther_eq ha b.seqs hget] at hfirst
      have hhead := congrArg List.head? hfirst
      rw [List.head?_drop] at hhead
      rw [hb.length]
      exact hhead
  have hexpects : b.expects r := by
    obtain ⟨rfl, hsequence⟩ := ha.numbered p _ r hnext
    exact (Store.expects_iff hb r).mpr hsequence
  have hsends := sends_firstTen ha b.seqs order
  rw [hflat, hten] at hsends hreply
  obtain ⟨b', haccept, hgrows, htotal⟩ := Store.acceptAll_progress ha hb hagree hsends hexpects
  exact ⟨_, b', hreply, haccept, htotal, hsends, hgrows⟩

theorem advances_of_lt (hflat : a.Flat) {o : String} (hlt : (b.seq o).toNat < (a.seq o).toNat) : Advances a b := by
  intro order horder m relayedBy packetID hm hcalls
  obtain ⟨msg, b', hreply, haccept, htotal, hsends, hgrows⟩ := answer_of_lt ha hb hagree hlt order horder
  subst hm
  refine ⟨msg, b', hreply, fun s => ?_, htotal, fun o => ⟨hgrows.mono o, hgrows.bounded o⟩⟩
  rw [handles_iff hcalls hb (fun r hr => (hsends r hr).flat hflat), haccept, Option.some.injEq, eq_comm]

theorem exchange_grows (hfa : a.Flat) (hfb : b.Flat) {b' : Store} (h : Exchange a b b') :
    Store.Grows a b b' ∧ b.total < b'.total ∧ b'.Flat := by
  obtain ⟨order, msg, m, relayedBy, packetID, -, hreply, rfl, hcalls, hhandles, htotal⟩ := h
  have hmsg : ∀ r ∈ msg, a.Sends r := by
    unfold statusReply at hreply
    simp only at hreply
    split_ifs at hreply
    · cases hreply
    · cases hreply
      exact sends_firstTen ha m.store.seqs order
  have hflat := fun r hr => (hmsg r hr).flat hfa
  have haccept := (handles_iff hcalls hb hflat b').mp hhandles
  obtain ⟨b'', haccept', hgrows⟩ := Store.acceptAll_grows ha msg hmsg hb hagree
  cases haccept.symm.trans haccept'
  exact ⟨hgrows, htotal, acceptAll_flat hb hfb msg hflat haccept⟩

/-- When the sequence numbers are the same, so are the rumors. -/
theorem rumorsOf_eq_of_seq_eq {o : String} (h : a.seq o = b.seq o) : a.rumorsOf o = b.rumorsOf o := by
  have hlength : (a.rumorsOf o).length = (b.rumorsOf o).length := by
    rw [ha.length, hb.length, h]
  apply List.ext_getElem?
  intro i
  cases hi : (a.rumorsOf o)[i]? with
  | none =>
    rw [List.getElem?_eq_none_iff] at hi
    rw [eq_comm, List.getElem?_eq_none_iff]
    omega
  | some r =>
    have hlt := (List.getElem?_eq_some_iff.mp hi).1
    have hother : (b.rumorsOf o)[i]? = some ((b.rumorsOf o)[i]) := List.getElem?_eq_getElem (by omega)
    rw [hother, hagree o i r _ hi hother]

end Two

/-- Two stores in order, with the same rumors as far as both go, none of which embeds rumors. -/
structure Store.Pair (a b : Store) : Prop where
  left : a.Ok
  right : b.Ok
  agree : Store.Agree a b
  flatLeft : a.Flat
  flatRight : b.Flat

theorem Store.Pair.symm {a b : Store} (h : Store.Pair a b) : Store.Pair b a :=
  ⟨h.right, h.left, h.agree.symm, h.flatRight, h.flatLeft⟩

theorem exchange_missing {a b b' : Store} (hpair : Store.Pair a b) (h : Exchange a b b') :
    Store.Pair a b' ∧ Store.missing a b' + Store.missing b' a + 1 ≤ Store.missing a b + Store.missing b a := by
  obtain ⟨hgrows, htotal, hflat⟩ :=
    exchange_grows hpair.left hpair.right hpair.agree hpair.flatLeft hpair.flatRight h
  have hsum := hgrows.total
  have hback := hgrows.back
  exact ⟨⟨hpair.left, hgrows.ok, hgrows.agree, hpair.flatLeft, hflat⟩, by omega⟩

/-- Each exchange takes away from what is missing. -/
theorem exchanges_bounded {n : Nat} {a b c d : Store} (hpair : Store.Pair a b) (h : Exchanges n a b c d) :
    Store.Pair c d ∧ n + (Store.missing c d + Store.missing d c) ≤ Store.missing a b + Store.missing b a := by
  induction h with
  | nil a b => exact ⟨hpair, by omega⟩
  | toSecond hex rest ih =>
    obtain ⟨hpair', hless⟩ := exchange_missing hpair hex
    obtain ⟨hcd, hle⟩ := ih hpair'
    exact ⟨hcd, by omega⟩
  | toFirst hex rest ih =>
    obtain ⟨hpair', hless⟩ := exchange_missing hpair.symm hex
    obtain ⟨hcd, hle⟩ := ih hpair'.symm
    exact ⟨hcd, by omega⟩

theorem advances_of_ne {a b : Store} (hpair : Store.Pair a b) {o : String} (h : a.seq o ≠ b.seq o) :
    Advances a b ∨ Advances b a := by
  have hne : (a.seq o).toNat ≠ (b.seq o).toNat := fun heq => h (UInt64.toNat_inj.mp heq)
  rcases Nat.lt_or_gt_of_ne hne with hlt | hlt
  · exact Or.inr (advances_of_lt hpair.right hpair.left hpair.agree.symm hpair.flatRight hlt)
  · exact Or.inl (advances_of_lt hpair.left hpair.right hpair.agree hpair.flatLeft hlt)

theorem exchange_of_advances {a b : Store} (h : Advances a b) : ∃ b', Exchange a b b' := by
  obtain ⟨msg, b', hreply, hhandles, htotal, -⟩ :=
    h _ (List.Perm.refl _) { newMessager "" with store := b } "" "" rfl rfl
  exact ⟨b', _, msg, _, "", "", List.Perm.refl _, hreply, rfl, rfl, (hhandles b').mpr rfl, htotal⟩

/-- A node that sends nothing has the view of the other. -/
theorem seqs_eq_of_silent {a : Store} (ha : a.Ok) {view : StatusMessage} {order : List String}
    (h : statusReply a view order = none) : a.seqs = view := by
  unfold statusReply at h
  simp only at h
  split_ifs at h with hempty hother
  rw [Std.ExtTreeMap.isEmpty_iff] at hempty
  simp only [otherExceptMe, Bool.or_eq_true, List.any_eq_true, not_or, not_exists, not_and] at hother
  apply Std.ExtTreeMap.ext_getElem?
  intro o
  cases hmine : a.seqs[o]? with
  | some lastSeq =>
    have hget := meExceptOther_get ha view hmine
    rw [hempty, Std.ExtTreeMap.getElem?_empty] at hget
    split_ifs at hget with hle
    obtain ⟨otherLastSeq, htheirs, hle⟩ := (Option.any_eq_true ..).mp hle
    have hnlt := hother.1 (o, lastSeq) (Std.ExtTreeMap.mem_toList_iff_getElem?_eq_some.mpr hmine)
    simp only [htheirs, Option.any_some, decide_eq_true_eq] at hnlt hle
    rw [htheirs, UInt64.le_antisymm hle (UInt64.not_lt.mp hnlt)]
  | none =>
    cases htheirs : view[o]? with
    | none => rfl
    | some otherLastSeq =>
      have hcontains : a.seqs.contains o = false := by
        rw [Std.ExtTreeMap.contains_eq_isSome_getElem?, hmine]
        rfl
      have hno := hother.2 (o, otherLastSeq) (Std.ExtTreeMap.mem_toList_iff_getElem?_eq_some.mpr htheirs)
      rw [hcontains] at hno
      exact (hno rfl).elim

/-- Some exchanges lead to the same rumors on both sides. -/
theorem exists_exchanges {a b : Store} (hpair : Store.Pair a b) :
    ∃ n c d, Exchanges n a b c d ∧ ∀ o, c.seq o = d.seq o ∧ c.rumorsOf o = d.rumorsOf o := by
  -- By induction on what is missing between the two.
  induction hk : Store.missing a b + Store.missing b a using Nat.strongRecOn generalizing a b with
  | ind k ih =>
    by_cases hsame : ∀ o, a.seq o = b.seq o
    · exact ⟨0, a, b, .nil a b, fun o =>
        ⟨hsame o, rumorsOf_eq_of_seq_eq hpair.left hpair.right hpair.agree (hsame o)⟩⟩
    · obtain ⟨o, ho⟩ := not_forall.mp hsame
      rcases advances_of_ne hpair ho with hadv | hadv
      · obtain ⟨b', hex⟩ := exchange_of_advances hadv
        obtain ⟨hpair', hless⟩ := exchange_missing hpair hex
        obtain ⟨n, c, d, hrest, hcd⟩ := ih _ (by omega) hpair' rfl
        exact ⟨n + 1, c, d, .toSecond hex hrest, hcd⟩
      · obtain ⟨a', hex⟩ := exchange_of_advances hadv
        obtain ⟨hpair', hless⟩ := exchange_missing hpair.symm hex
        obtain ⟨n, c, d, hrest, hcd⟩ := ih _ (by omega) hpair'.symm rfl
        exact ⟨n + 1, c, d, .toFirst hex hrest, hcd⟩

/-- Two nodes with different sequence numbers, whose rumors embed no rumors: one direction advances, for
every order of the maps. Exchanges come to an end, with the same numbers and the same rumors on both
sides, and so does a node that sends nothing. -/
theorem anti_entropy_converges (a b : Store) (hpair : Store.Pair a b) :
    ((∃ o, a.seq o ≠ b.seq o) → Advances a b ∨ Advances b a) ∧
    (∃ bound, ∀ n c d, Exchanges n a b c d → n ≤ bound ∧
      ((∀ d', ¬ Exchange c d d') → (∀ c', ¬ Exchange d c c') →
        ∀ o, c.seq o = d.seq o ∧ c.rumorsOf o = d.rumorsOf o)) ∧
    (∃ n c d, Exchanges n a b c d ∧ ∀ o, c.seq o = d.seq o ∧ c.rumorsOf o = d.rumorsOf o) ∧
    (∀ order order', statusReply a b.seqs order = none → statusReply b a.seqs order' = none →
      a.seqs = b.seqs ∧ ∀ o, a.rumorsOf o = b.rumorsOf o) := by
  refine ⟨?_, ?_, exists_exchanges hpair, ?_⟩
  · rintro ⟨o, ho⟩
    exact advances_of_ne hpair ho
  · refine ⟨Store.missing a b + Store.missing b a, ?_⟩
    intro n c d h
    obtain ⟨hcd, hle⟩ := exchanges_bounded hpair h
    refine ⟨by omega, ?_⟩
    intro hsecond hfirst o
    have hseq : c.seq o = d.seq o := by
      by_contra hne
      rcases advances_of_ne hcd hne with hadv | hadv
      · obtain ⟨d', hex⟩ := exchange_of_advances hadv
        exact hsecond d' hex
      · obtain ⟨c', hex⟩ := exchange_of_advances hadv
        exact hfirst c' hex
    exact ⟨hseq, rumorsOf_eq_of_seq_eq hcd.left hcd.right hcd.agree hseq⟩
  · intro order order' hsilent _
    have hseqs := seqs_eq_of_silent hpair.left hsilent
    refine ⟨hseqs, fun o => rumorsOf_eq_of_seq_eq hpair.left hpair.right hpair.agree ?_⟩
    unfold Store.seq
    rw [hseqs]

/-- A node that has heard of one origin only. -/
def sampleStore (origin : String) (n : Nat) : Store :=
  ⟨Std.ExtTreeMap.empty.insert origin (UInt64.ofNat n),
    Std.ExtTreeMap.empty.insert origin ((List.range n).map fun i => chat origin (UInt64.ofNat (i + 1)))⟩

theorem rumorsOf_sampleStore (origin : String) (n : Nat) (o : String) : (sampleStore origin n).rumorsOf o =
    if origin = o then (List.range n).map fun i => chat origin (UInt64.ofNat (i + 1)) else [] := by
  unfold sampleStore Store.rumorsOf
  rw [Std.ExtTreeMap.getD_insert]
  simp

theorem seq_sampleStore (origin : String) (n : Nat) (o : String) :
    (sampleStore origin n).seq o = if origin = o then UInt64.ofNat n else 0 := by
  unfold sampleStore Store.seq
  rw [Std.ExtTreeMap.getD_insert]
  simp

theorem sampleStore_ok (origin : String) (n : Nat) (hn : n < 2 ^ 63) : (sampleStore origin n).Ok := by
  refine ⟨?_, ?_, ?_⟩
  · intro o
    rw [rumorsOf_sampleStore, seq_sampleStore]
    split_ifs
    · rw [List.length_map, List.length_range, UInt64.toNat_ofNat', Nat.mod_eq_of_lt (by omega)]
    · rfl
  · intro o
    rw [rumorsOf_sampleStore]
    split_ifs
    · rw [List.length_map, List.length_range]
      exact hn
    · rw [List.length_nil]
      omega
  · intro o i r hr
    rw [rumorsOf_sampleStore] at hr
    split_ifs at hr with ho
    · rw [List.getElem?_map, Option.map_eq_some_iff] at hr
      obtain ⟨j, hj, rfl⟩ := hr
      obtain ⟨hlt, rfl⟩ := List.getElem?_eq_some_iff.mp hj
      rw [List.length_range] at hlt
      refine ⟨ho, ?_⟩
      rw [List.getElem_range, chat, Rumor.sequence, UInt64.toNat_ofNat', Nat.mod_eq_of_lt (by omega)]
    · cases hr

theorem sampleStore_flat (origin : String) (n : Nat) : (sampleStore origin n).Flat := by
  intro o i r hr
  rw [rumorsOf_sampleStore] at hr
  split_ifs at hr
  · rw [List.getElem?_map, Option.map_eq_some_iff] at hr
    obtain ⟨j, -, rfl⟩ := hr
    exact ⟨_, rfl, fun _ => rfl⟩
  · cases hr

theorem sampleStore_converges :
    (Advances (sampleStore "A" 12) (sampleStore "B" 1) ∨ Advances (sampleStore "B" 1) (sampleStore "A" 12)) ∧
    ∃ n c d, Exchanges n (sampleStore "A" 12) (sampleStore "B" 1) c d ∧
      ∀ o, c.seq o = d.seq o ∧ c.rumorsOf o = d.rumorsOf o := by
  have hagree : Store.Agree (sampleStore "A" 12) (sampleStore "B" 1) := by
    intro o i r r' hr hr'
    rw [rumorsOf_sampleStore] at hr hr'
    split_ifs at hr hr' with ha hb
    · exact absurd (ha.trans hb.symm) (by decide)
    · cases hr'
    · cases hr
    · cases hr
  obtain ⟨hadvances, -, hends, -⟩ := anti_entropy_converges (sampleStore "A" 12) (sampleStore "B" 1)
    ⟨sampleStore_ok "A" 12 (by decide), sampleStore_ok "B" 1 (by decide), hagree, sampleStore_flat "A" 12,
      sampleStore_flat "B" 1⟩
  refine ⟨hadvances ⟨"A", ?_⟩, hends⟩
  rw [seq_sampleStore, seq_sampleStore]
  decide

/-! ## Rumors inside rumors -/

/-- One rumor, and its message is a `RumorsMessage` with a rumor of another origin. -/
def nestedStore : Store :=
  ⟨Std.ExtTreeMap.empty.insert "A" 1, Std.ExtTreeMap.empty.insert "A" [.mk "A" 1 (some (.rumors [chat "C" 1]))]⟩

theorem rumorsOf_nestedStore (o : String) :
    nestedStore.rumorsOf o = if "A" = o then [.mk "A" 1 (some (.rumors [chat "C" 1]))] else [] := by
  unfold nestedStore Store.rumorsOf
  rw [Std.ExtTreeMap.getD_insert]
  simp

theorem seq_nestedStore (o : String) : nestedStore.seq o = if "A" = o then 1 else 0 := by
  unfold nestedStore Store.seq
  rw [Std.ExtTreeMap.getD_insert]
  simp

theorem nestedStore_ok : nestedStore.Ok := by
  refine ⟨?_, ?_, ?_⟩
  · intro o
    rw [rumorsOf_nestedStore, seq_nestedStore]
    split_ifs <;> rfl
  · intro o
    rw [rumorsOf_nestedStore]
    split_ifs
    · rw [List.length_singleton]
      omega
    · rw [List.length_nil]
      omega
  · intro o i r hr
    rw [rumorsOf_nestedStore] at hr
    split_ifs at hr with ho
    · rw [List.getElem?_singleton] at hr
      split_ifs at hr with hi
      cases hr
      exact ⟨ho, by rw [hi]; rfl⟩
    · cases hr

def nestedRounds : List Event := [.nextRumor, .nextRumor, .done "A"] ++ List.replicate 9 .nextRumor

/-- After the rounds of this answer the node has heard of C. -/
def overtakes (addr : String) : Sent → Bool
  | .rumors msg => (run step (newMessager addr) (.receive "A" "1" (.rumors msg) :: nestedRounds)).any fun m =>
      m.calls.length = 1 ∧ (∀ call ∈ m.calls, call.rest.length = 0) ∧ m.store.seq "C" = 1
  | _ => false

/-- The other node gets past the sender: it has heard of C, and the sender has not. -/
theorem nestedStore_overtaken : nestedStore.Ok ∧ Store.empty.Ok ∧ Store.Agree nestedStore .empty ∧
    nestedStore.seq "A" ≠ Store.empty.seq "A" ∧ ¬ Advances nestedStore .empty ∧ ¬ Advances .empty nestedStore := by
  refine ⟨nestedStore_ok, Store.empty_ok, ?_, ?_, ?_, ?_⟩
  · intro o i r r' _ hr'
    have hnone : Store.empty.rumorsOf o = [] := Std.ExtTreeMap.getD_empty
    rw [hnone] at hr'
    cases hr'
  · decide
  · intro hadvances
    obtain ⟨msg, b', hreply, hhandles, -, hbounds⟩ :=
      hadvances _ (List.Perm.refl _) (newMessager "B") "A" "1" rfl rfl
    have hcheck : (statusReply nestedStore Store.empty.seqs (meExceptOther nestedStore Store.empty.seqs).keys).any
        (overtakes "B") = true := by decide +kernel
    rw [hreply, Option.any_some, overtakes] at hcheck
    obtain ⟨m, hrun, hm⟩ := (Option.any_eq_true ..).mp hcheck
    obtain ⟨hone, hrest, hseq⟩ := of_decide_eq_true hm
    obtain ⟨call, hcall⟩ := List.length_eq_one_iff.mp hone
    have hend : m.Through := Or.inr ⟨call, hcall, List.length_eq_zero_iff.mp (hrest call (by simp [hcall]))⟩
    obtain rfl := (hhandles m.store).mp ⟨nestedRounds, m, by simp [nestedRounds, Event.Rounds], hrun, hend, rfl⟩
    have hle := (hbounds "C").2
    rw [hseq] at hle
    exact absurd hle (by decide)
  · intro hadvances
    obtain ⟨msg, b', hreply, -⟩ := hadvances _ (List.Perm.refl _) { newMessager "A" with store := nestedStore } "B" "1"
      rfl rfl
    have hstatus : (statusReply Store.empty nestedStore.seqs (meExceptOther Store.empty nestedStore.seqs).keys).any
        (fun sent => match sent with | .rumors _ => false | _ => true) = true := by decide +kernel
    rw [hreply] at hstatus
    cases hstatus

end MarketPeer.Gossip

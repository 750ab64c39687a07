import MarketPeer.Paxos.Agreement

/-!
# Where values come from

No callback and no routine makes a value up, in any run: what is proposed, accepted and
decided was given to `Propose`, and a TLC message repeats a decision of its step. So no
clock passes a step that was not decided.
-/

namespace MarketPeer.Paxos

variable {N : Nat}

/-! ## The values of a peer -/

/-- `P` are the values that may be about, and `T` those that were decided, with their steps. -/
structure Fine (P : PaxosValue → Prop) (T : Nat → PaxosValue → Prop) (p : Peer) : Prop where
  routines : ∀ t ∈ p.routines, P t.value ∧ P t.proposedValue
  accepted : ∀ v ∈ p.acceptedValue, P v
  promises : ∀ c ∈ p.promiseCh, ∀ v ∈ c.acceptedValue, P v
  accepts : ∀ c ∈ p.acceptCh, P c.value
  tlcs : ∀ c ∈ p.tlcCh, T c.step c.value
  stepTLCMsgs : ∀ c ∈ p.stepTLCMsgs, T c.step c.value
  advancing : ∀ c ∈ p.advancing, T c.step c.value
  clock : ∀ s < p.step, ∃ v, T s v

def Msg.Fine (P : PaxosValue → Prop) (T : Nat → PaxosValue → Prop) : Msg N → Prop
  | .prepare _ _ _ => True
  | .promise _ _ _ _ acceptedValue => ∀ v ∈ acceptedValue, P v
  | .propose _ _ value => P value
  | .accept _ _ value => P value
  | .tlc step value => T step value

/-- What a step leaves, when what it decides may be decided. -/
structure Effect.Fine (P : PaxosValue → Prop) (T : Nat → PaxosValue → Prop) (e : Effect N) : Prop where
  peer : Paxos.Fine P T e.peer
  broadcast : ∀ m ∈ e.broadcast, m.Fine P T
  proposal : ∀ q ∈ e.proposal, P q.value
  decision : ∀ d ∈ e.decision, P d.value

section Steps

variable {P P' : PaxosValue → Prop} {T T' : Nat → PaxosValue → Prop} {p : Peer}

theorem Fine.mono (h : Fine P T p) (hP : ∀ v, P v → P' v) (hT : ∀ s v, T s v → T' s v) : Fine P' T' p where
  routines t ht := ⟨hP _ (h.routines t ht).1, hP _ (h.routines t ht).2⟩
  accepted v hv := hP _ (h.accepted v hv)
  promises c hc v hv := hP _ (h.promises c hc v hv)
  accepts c hc := hP _ (h.accepts c hc)
  tlcs c hc := hT _ _ (h.tlcs c hc)
  stepTLCMsgs c hc := hT _ _ (h.stepTLCMsgs c hc)
  advancing c hc := hT _ _ (h.advancing c hc)
  clock s hs := (h.clock s hs).imp fun _ hv => hT _ _ hv

theorem Msg.Fine.mono {m : Msg N} (h : m.Fine P T) (hP : ∀ v, P v → P' v) (hT : ∀ s v, T s v → T' s v) : m.Fine P' T' := by
  cases m with
  | prepare step id source => trivial
  | promise recipient step id acceptedID acceptedValue => exact fun v hv => hP _ (h v hv)
  | propose step id value => exact hP _ h
  | accept step id value => exact hP _ h
  | tlc step value => exact hT _ _ h

/-- A step that sends nothing. -/
theorem Fine.silent (h : Fine P T p) : Effect.Fine (N := N) P T ⟨p, none, none, none⟩ := ⟨h, by simp, by simp, by simp⟩

theorem Fine.setRoutine (h : Fine P T p) (r : Nat) {t : Routine} (hvalue : P t.value) (hproposed : P t.proposedValue) :
    Fine P T (p.setRoutine r t) := by
  refine ⟨?_, h.accepted, h.promises, h.accepts, h.tlcs, h.stepTLCMsgs, h.advancing, h.clock⟩
  intro t' ht'
  rcases List.mem_or_eq_of_mem_set ht' with ht' | rfl
  · exact h.routines t' ht'
  · exact ⟨hvalue, hproposed⟩

theorem processRumor_fine (h : Fine P T p) {i : Fin N} {k : Nat} {msg : Msg N} (hmsg : msg.Fine P T) {e : Effect N}
    (he : processRumor i k msg p = some e) : e.Fine P T := by
  unfold processRumor at he
  cases msg with
  | prepare step id source =>
    simp only [paxosPrepareCallback, Option.some.injEq] at he
    split_ifs at he
    · rw [← he]; exact h.silent
    · rw [← he]; exact h.silent
    · rw [← he]
      exact ⟨⟨h.routines, h.accepted, h.promises, h.accepts, h.tlcs, h.stepTLCMsgs, h.advancing, h.clock⟩,
        by simpa [Msg.Fine] using h.accepted, by simp, by simp⟩
  | promise recipient step id acceptedID acceptedValue =>
    simp only [paxosPromiseCallback] at he
    split_ifs at he
    · rw [← Option.some.inj he]; exact h.silent
    · rw [← Option.some.inj he]; exact h.silent
    · rw [← Option.some.inj he]; exact h.silent
    · rw [← Option.some.inj he]
      refine Fine.silent ⟨h.routines, h.accepted, ?_, h.accepts, h.tlcs, h.stepTLCMsgs, h.advancing, h.clock⟩
      intro c hc
      rcases List.mem_append.mp hc with hc | hc
      · exact h.promises c hc
      · rw [List.mem_singleton.mp hc]
        exact hmsg
  | propose step id value =>
    simp only [paxosProposeCallback, Option.some.injEq] at he
    split_ifs at he
    · rw [← he]; exact h.silent
    · rw [← he]; exact h.silent
    · rw [← he]
      refine ⟨⟨h.routines, ?_, h.promises, h.accepts, h.tlcs, h.stepTLCMsgs, h.advancing, h.clock⟩, ?_, by simp, by simp⟩
      · intro v hv
        rw [Option.mem_some_iff] at hv
        rw [← hv]
        exact hmsg
      · intro m hm
        rw [Option.mem_some_iff] at hm
        rw [← hm]
        exact hmsg
  | accept step id value =>
    simp only [paxosAcceptCallback, Option.some.injEq] at he
    split_ifs at he
    · rw [← he]; exact h.silent
    · rw [← he]
      refine Fine.silent ⟨h.routines, h.accepted, h.promises, ?_, h.tlcs, h.stepTLCMsgs, h.advancing, h.clock⟩
      intro c hc
      rcases List.mem_append.mp hc with hc | hc
      · exact h.accepts c hc
      · rw [List.mem_singleton.mp hc]
        exact hmsg
    · rw [← he]; exact h.silent
  | tlc step value =>
    simp only [tlcCallback] at he
    split_ifs at he
    · rw [← Option.some.inj he]; exact h.silent
    · rw [← Option.some.inj he]
      refine Fine.silent ⟨h.routines, h.accepted, h.promises, h.accepts, ?_, h.stepTLCMsgs, h.advancing, h.clock⟩
      intro c hc
      rcases List.mem_append.mp hc with hc | hc
      · exact h.tlcs c hc
      · rw [List.mem_singleton.mp hc]
        exact hmsg

theorem propose_fine (h : Fine P T p) {value : PaxosValue} (hvalue : P value) : (propose p value : Effect N).Fine P T := by
  unfold propose
  split_ifs
  · refine Fine.silent ⟨?_, h.accepted, h.promises, h.accepts, h.tlcs, h.stepTLCMsgs, h.advancing, h.clock⟩
    intro t ht
    rcases List.mem_append.mp ht with ht | ht
    · exact h.routines t ht
    · rw [List.mem_singleton.mp ht]
      exact ⟨hvalue, hvalue⟩
  · exact h.silent

/-- Fields that hold no value do not matter. -/
theorem Fine.congr {p' : Peer} (h : Fine P T p) (routines : p'.routines = p.routines) (accepted : p'.acceptedValue = p.acceptedValue)
    (promises : p'.promiseCh = p.promiseCh) (accepts : p'.acceptCh = p.acceptCh) (tlcs : p'.tlcCh = p.tlcCh)
    (stepTLCMsgs : p'.stepTLCMsgs = p.stepTLCMsgs) (advancing : p'.advancing = p.advancing) (step : p'.step = p.step) :
    Fine P T p' := by
  refine ⟨?_, ?_, ?_, ?_, ?_, ?_, ?_, ?_⟩
  · rw [routines]; exact h.routines
  · rw [accepted]; exact h.accepted
  · rw [promises]; exact h.promises
  · rw [accepts]; exact h.accepts
  · rw [tlcs]; exact h.tlcs
  · rw [stepTLCMsgs]; exact h.stepTLCMsgs
  · rw [advancing]; exact h.advancing
  · rw [step]; exact h.clock

section Routines

variable {r : Nat} {t : Routine} (h : Fine P T p) (hr : p.routines[r]? = some t)
include h hr

theorem exitRoutine_fine : (exitRoutine p r t : Effect N).Fine P T :=
  have ht := h.routines t (List.mem_of_getElem? hr)
  Fine.silent (h.setRoutine r ht.1 ht.2)

theorem prepare_fine {i : Fin N} {e : Effect N} (he : prepare i p r t = some e) : e.Fine P T := by
  obtain ⟨hvalue, hproposed⟩ := h.routines t (List.mem_of_getElem? hr)
  unfold prepare at he
  split_ifs at he
  · rw [← Option.some.inj he]; exact exitRoutine_fine h hr
  · rw [← Option.some.inj he]
    refine ⟨(h.setRoutine r (t := { t with pc := .waitOne false, read := [] }) hvalue hproposed).congr
      rfl rfl rfl rfl rfl rfl rfl rfl, ?_, by simp, by simp⟩
    intro m hm
    rw [Option.mem_some_iff] at hm
    rw [← hm]
    trivial

theorem readPromise_fine {e : Effect N} (he : readPromise p r t = some e) : e.Fine P T := by
  obtain ⟨hvalue, hproposed⟩ := h.routines t (List.mem_of_getElem? hr)
  unfold readPromise at he
  split at he
  · rename_i fired c rest hpc hch
    have hrest : Fine P T { p with promiseCh := rest } := by
      refine ⟨h.routines, h.accepted, ?_, h.accepts, h.tlcs, h.stepTLCMsgs, h.advancing, h.clock⟩
      intro c' hc'
      exact h.promises c' (by rw [hch]; exact List.mem_cons_of_mem c hc')
    split_ifs at he
    · obtain ⟨v, hv, rfl⟩ := Option.map_eq_some_iff.mp he
      exact Fine.silent (hrest.setRoutine r hvalue (h.promises c (by rw [hch]; exact List.mem_cons_self) v hv))
    · rw [← Option.some.inj he]
      exact Fine.silent (hrest.setRoutine r hvalue hproposed)
  · cases he

theorem timeoutOne_fine {e : Effect N} (he : timeoutOne p r t = some e) : e.Fine P T := by
  obtain ⟨hvalue, hproposed⟩ := h.routines t (List.mem_of_getElem? hr)
  unfold timeoutOne at he
  split_ifs at he
  · rw [← Option.some.inj he]; exact exitRoutine_fine h hr
  · rw [← Option.some.inj he]
    exact Fine.silent ((h.setRoutine r (t := { t with pc := .waitOne true }) hvalue hproposed).congr
      rfl rfl rfl rfl rfl rfl rfl rfl)

theorem enterTwo_fine {i : Fin N} {now : Nat} {e : Effect N} (he : enterTwo i now p r t = some e) : e.Fine P T := by
  obtain ⟨hvalue, hproposed⟩ := h.routines t (List.mem_of_getElem? hr)
  unfold enterTwo at he
  split_ifs at he
  · rw [← Option.some.inj he]; exact exitRoutine_fine h hr
  · rw [← Option.some.inj he]
    refine ⟨(h.setRoutine r (t := { t with pc := .waitTwo, read := [] }) hvalue hproposed).congr
      rfl rfl rfl rfl rfl rfl rfl rfl, ?_, ?_, by simp⟩
    · intro m hm
      rw [Option.mem_some_iff] at hm
      rw [← hm]
      exact hproposed
    · intro q hq
      rw [Option.mem_some_iff] at hq
      rw [← hq]
      exact hproposed

theorem signalled_fine {e : Effect N} (he : signalled p r t = some e) : e.Fine P T := by
  obtain ⟨hvalue, hproposed⟩ := h.routines t (List.mem_of_getElem? hr)
  unfold signalled at he
  split_ifs at he
  rw [← Option.some.inj he]
  exact Fine.silent ((h.setRoutine r (t := { t with pc := .exiting }) hvalue hproposed).congr
    rfl rfl rfl rfl rfl rfl rfl rfl)

theorem timeoutTwo_fine {e : Effect N} (he : timeoutTwo p r t = some e) : e.Fine P T := by
  obtain ⟨hvalue, -⟩ := h.routines t (List.mem_of_getElem? hr)
  unfold timeoutTwo at he
  split_ifs at he
  · rw [← Option.some.inj he]; exact exitRoutine_fine h hr
  · rw [← Option.some.inj he]
    exact Fine.silent ((h.setRoutine r (t := ⟨t.step, t.value, 0, t.value, .loop, [], t.depth + 1⟩) hvalue hvalue).congr
      rfl rfl rfl rfl rfl rfl rfl rfl)

theorem unwind_fine {e : Effect N} (he : unwind p r t = some e) : e.Fine P T := by
  obtain ⟨hvalue, hproposed⟩ := h.routines t (List.mem_of_getElem? hr)
  unfold unwind at he
  rw [Option.ite_none_right_eq_some, Option.some.injEq] at he
  rw [← he.2]
  refine Fine.silent ((h.setRoutine r (t := if t.depth = 0 then { t with pc := .done } else { t with depth := t.depth - 1 })
    ?_ ?_).congr rfl rfl rfl rfl rfl rfl rfl rfl)
  · split_ifs <;> exact hvalue
  · split_ifs <;> exact hproposed

end Routines

/-- The learner tells everybody what it has decided. -/
theorem learn_fine (h : Fine P T p) {i : Fin N} {e : Effect N} (he : learn i p = some e)
    (hT : ∀ d ∈ e.decision, T d.step d.value) : e.Fine P T := by
  unfold learn at he
  split at he
  · cases he
  · rename_i accept rest hch
    have haccept : P accept.value := h.accepts accept (by rw [hch]; exact List.mem_cons_self)
    have hrest : ∀ c ∈ rest, P c.value := fun c hc => h.accepts c (by rw [hch]; exact List.mem_cons_of_mem accept hc)
    simp only [Option.ite_none_left_eq_some] at he
    obtain ⟨-, he⟩ := he
    by_cases hcount : threshold N ≤ ((p.idAccepts ++ [accept]).filter (·.value.uniqID = accept.value.uniqID)).length
    · rw [if_pos hcount, Option.some.injEq] at he
      rw [← he] at hT ⊢
      refine ⟨⟨h.routines, h.accepted, h.promises, hrest, h.tlcs, h.stepTLCMsgs, h.advancing, h.clock⟩, ?_, by simp, ?_⟩
      · intro m hm
        rw [Option.mem_some_iff] at hm
        rw [← hm]
        exact hT _ rfl
      · intro d hd
        rw [Option.mem_some_iff] at hd
        rw [← hd]
        exact haccept
    · rw [if_neg hcount, Option.some.injEq] at he
      rw [← he]
      exact Fine.silent ⟨h.routines, h.accepted, h.promises, hrest, h.tlcs, h.stepTLCMsgs, h.advancing, h.clock⟩

theorem tlcRead_fine (h : Fine P T p) {e : Effect N} (he : tlcRead p = some e) : e.Fine P T := by
  unfold tlcRead at he
  split at he
  · rename_i tlc rest hadvancing hch
    have htlc : T tlc.step tlc.value := h.tlcs tlc (by rw [hch]; exact List.mem_cons_self)
    have hrest : ∀ c ∈ rest, T c.step c.value := fun c hc => h.tlcs c (by rw [hch]; exact List.mem_cons_of_mem tlc hc)
    have hmsgs : ∀ c ∈ p.stepTLCMsgs ++ [tlc], T c.step c.value := by
      intro c hc
      rcases List.mem_append.mp hc with hc | hc
      · exact h.stepTLCMsgs c hc
      · rwa [List.mem_singleton.mp hc]
    simp only at he
    split_ifs at he
    · rw [← Option.some.inj he]
      exact Fine.silent ⟨h.routines, h.accepted, h.promises, h.accepts, hrest, h.stepTLCMsgs, h.advancing, h.clock⟩
    · rw [← Option.some.inj he]
      exact Fine.silent ⟨h.routines, h.accepted, h.promises, h.accepts, hrest, hmsgs, h.advancing, h.clock⟩
    · rw [← Option.some.inj he]
      exact Fine.silent ⟨h.routines, h.accepted, h.promises, h.accepts, hrest, hmsgs, by simpa using htlc, h.clock⟩
    · rw [← Option.some.inj he]
      exact ⟨⟨h.routines, h.accepted, h.promises, h.accepts, hrest, hmsgs, by simpa using htlc, h.clock⟩,
        by simpa [Msg.Fine] using htlc, by simp, by simp⟩
  · cases he

/-- The clock goes on from a step with a TLC message. -/
theorem tlcAdvance_fine (h : Fine P T p) {paxosID : Nat} {e : Effect N} (he : tlcAdvance paxosID p = some e) : e.Fine P T := by
  obtain ⟨tlc, htlc, rfl⟩ := Option.map_eq_some_iff.mp he
  have hmsgs : ∀ c ∈ p.stepTLCMsgs.filter (·.step ≠ p.step), T c.step c.value :=
    fun c hc => h.stepTLCMsgs c (List.mem_of_mem_filter hc)
  split_ifs with hstep
  · exact Fine.silent ⟨h.routines, h.accepted, h.promises, h.accepts, h.tlcs, h.stepTLCMsgs, by simp, h.clock⟩
  · refine Fine.silent ⟨h.routines, by simp, by simp, by simp, h.tlcs, hmsgs, ?_, ?_⟩
    · dsimp only
      split_ifs
      · intro c hc
        exact hmsgs c (List.mem_of_mem_filter (List.mem_of_head? hc))
      · simp
    · intro s hs
      have hle : (p.step + 1) % 2 ^ 64 ≤ p.step + 1 := Nat.mod_le _ _
      rcases Nat.lt_or_eq_of_le (Nat.lt_succ_iff.mp (Nat.lt_of_lt_of_le hs hle)) with hlt | rfl
      · exact h.clock s hlt
      · rw [not_not] at hstep
        exact ⟨tlc.value, hstep ▸ h.advancing tlc htlc⟩

theorem act_fine {cfg : Config N} {w : World N} {i : Fin N} (h : Fine P T (w.peers i)) (hsent : ∀ r ∈ w.sent, r.msg.Fine P T)
    {a : Action} {e : Effect N} (he : act cfg w i a = some e) (hP : ∀ v, a = .propose v → P v)
    (hT : ∀ d ∈ e.decision, T d.step d.value) : e.Fine P T := by
  cases a with
  | propose value =>
    rw [act, Option.some.injEq] at he
    rw [← he]
    exact propose_fine h (hP value rfl)
  | deliver k =>
    simp only [act, deliver] at he
    split_ifs at he
    obtain ⟨rumor, hk, he⟩ := Option.bind_eq_some_iff.mp he
    have hprocessed : Fine P T { w.peers i with processed := k :: (w.peers i).processed } :=
      h.congr rfl rfl rfl rfl rfl rfl rfl rfl
    exact processRumor_fine hprocessed (hsent rumor (List.mem_of_getElem? hk)) he
  | prepare r =>
    obtain ⟨t, hr, he⟩ := Option.bind_eq_some_iff.mp he
    exact prepare_fine h hr he
  | readPromise r =>
    obtain ⟨t, hr, he⟩ := Option.bind_eq_some_iff.mp he
    exact readPromise_fine h hr he
  | timeoutOne r =>
    obtain ⟨t, hr, he⟩ := Option.bind_eq_some_iff.mp he
    exact timeoutOne_fine h hr he
  | enterTwo r =>
    obtain ⟨t, hr, he⟩ := Option.bind_eq_some_iff.mp he
    exact enterTwo_fine h hr he
  | signalled r =>
    obtain ⟨t, hr, he⟩ := Option.bind_eq_some_iff.mp he
    exact signalled_fine h hr he
  | timeoutTwo r =>
    obtain ⟨t, hr, he⟩ := Option.bind_eq_some_iff.mp he
    exact timeoutTwo_fine h hr he
  | unwind r =>
    obtain ⟨t, hr, he⟩ := Option.bind_eq_some_iff.mp he
    exact unwind_fine h hr he
  | learn => exact learn_fine h he hT
  | tlcRead => exact tlcRead_fine h he
  | tlcAdvance => exact tlcAdvance_fine h he

end Steps

/-! ## Every run -/

def World.Decided (w : World N) (s : Nat) (v : PaxosValue) : Prop := ∃ d ∈ w.decided, d.step = s ∧ d.value = v

/-- A call of `Propose` was given the value. -/
def Given (es : List (Event N)) (v : PaxosValue) : Prop := ∃ e ∈ es, e.action = .propose v

structure Honest (P : PaxosValue → Prop) (w : World N) : Prop where
  peers : ∀ i, Fine P w.Decided (w.peers i)
  sent : ∀ r ∈ w.sent, r.msg.Fine P w.Decided
  proposed : ∀ q ∈ w.proposed, P q.value
  decided : ∀ d ∈ w.decided, P d.value

section Runs

variable {cfg : Config N} {P P' : PaxosValue → Prop} {w w' : World N} {ev : Event N}

theorem honest_init : Honest P (World.init cfg) where
  peers i := ⟨by simp [World.init, Peer.init], by simp [World.init, Peer.init], by simp [World.init, Peer.init],
    by simp [World.init, Peer.init], by simp [World.init, Peer.init], by simp [World.init, Peer.init],
    by simp [World.init, Peer.init], by simp [World.init, Peer.init]⟩
  sent := by simp [World.init]
  proposed := by simp [World.init]
  decided := by simp [World.init]

theorem Honest.mono (h : Honest P w) (hP : ∀ v, P v → P' v) : Honest P' w where
  peers i := (h.peers i).mono hP fun _ _ hd => hd
  sent r hr := (h.sent r hr).mono hP fun _ _ hd => hd
  proposed q hq := hP _ (h.proposed q hq)
  decided d hd := hP _ (h.decided d hd)

theorem honest_step (h : Honest P w) (hP : ∀ v, ev.action = .propose v → P v) (hstep : step cfg w ev = some w') : Honest P w' := by
  obtain ⟨e, he, rfl⟩ := Option.map_eq_some_iff.mp hstep
  -- What was decided stays decided, and this step may add to it.
  have hmore : ∀ s v, w.Decided s v → (w.commit ev.peer e).Decided s v := by
    rintro s v ⟨d, hd, hsame⟩
    exact ⟨d, List.mem_append_left _ hd, hsame⟩
  have hnow : ∀ d ∈ e.decision, (w.commit ev.peer e).Decided d.step d.value := by
    intro d hd
    exact ⟨d, List.mem_append_right _ (Option.mem_toList.mpr hd), rfl, rfl⟩
  have hpeers : ∀ i, Fine P (w.commit ev.peer e).Decided (w.peers i) := fun i => (h.peers i).mono (fun _ hv => hv) hmore
  have hsent : ∀ r ∈ w.sent, r.msg.Fine P (w.commit ev.peer e).Decided := fun r hr => (h.sent r hr).mono (fun _ hv => hv) hmore
  have hfine := act_fine (hpeers ev.peer) hsent he hP hnow
  refine ⟨?_, ?_, ?_, ?_⟩
  · intro i
    by_cases hi : i = ev.peer
    · subst hi
      rw [commit_peers_self]
      exact hfine.peer
    · rw [commit_peers_of_ne w ev.peer e hi]
      exact hpeers i
  · intro r hr
    rcases List.mem_append.mp hr with hr | hr
    · exact hsent r hr
    · obtain ⟨m, hm, rfl⟩ := List.mem_map.mp hr
      exact hfine.broadcast m (Option.mem_toList.mp hm)
  · intro q hq
    rcases List.mem_append.mp hq with hq | hq
    · exact h.proposed q hq
    · exact hfine.proposal q (Option.mem_toList.mp hq)
  · intro d hd
    rcases List.mem_append.mp hd with hd | hd
    · exact h.decided d hd
    · exact hfine.decision d (Option.mem_toList.mp hd)

theorem honest_run {es : List (Event N)} (hrun : run (step cfg) (World.init cfg) es = some w) : Honest (Given es) w := by
  refine run_snoc_induction (motive := fun es w => Honest (Given es) w) honest_init ?_ es hrun
  intro es ev s s' _ ih hstep
  refine honest_step (ih.mono ?_) ?_ hstep
  · rintro v ⟨e, he, hv⟩
    exact ⟨e, List.mem_append_left _ he, hv⟩
  · intro v hv
    exact ⟨ev, by simp, hv⟩

/-- In every run, whatever ballots are mixed: a value that is decided or voted for was given to `Propose`,
every TLC message tells a decision of its step, and no clock has passed a step without a decision. -/
theorem decisions_are_proposed (cfg : Config N) (es : List (Event N)) (w : World N)
    (hrun : run (step cfg) (World.init cfg) es = some w) :
    (∀ d ∈ w.decided, Given es d.value) ∧
    (∀ o s id v, ⟨o, .accept s id v⟩ ∈ w.sent → Given es v) ∧
    (∀ o s v, ⟨o, .tlc s v⟩ ∈ w.sent → w.Decided s v) ∧
    ∀ i s, s < (w.peers i).step → ∃ v, w.Decided s v := by
  have h := honest_run hrun
  refine ⟨h.decided, ?_, ?_, fun i => (h.peers i).clock⟩
  · intro o s id v hsent
    exact h.sent _ hsent
  · intro o s v hsent
    exact h.sent _ hsent

/-- Two peers that disagree, and a third one whose clock goes on with what they tell it. -/
def followedRun : List (Event 3) :=
  mixedRun ++ does 2 [.deliver 14, .deliver 21, .tlcRead, .tlcRead, .tlcAdvance]

theorem followedRun_decisions : ∃ w, run (step threePeers) (World.init threePeers) followedRun = some w ∧
    w.decided = [⟨0, 0, firstValue⟩, ⟨1, 0, secondValue⟩] ∧ (w.peers 2).step = 1 ∧
      (∀ d ∈ w.decided, Given followedRun d.value) ∧ ∃ v, w.Decided 0 v := by
  have hcheck : (run (step threePeers) (World.init threePeers) followedRun).any (fun w =>
      w.decided = [⟨0, 0, firstValue⟩, ⟨1, 0, secondValue⟩] ∧ (w.peers 2).step = 1) = true := by decide +kernel
  obtain ⟨w, hrun, hw⟩ := (Option.any_eq_true _ _).mp hcheck
  obtain ⟨hdecided, hstep⟩ := of_decide_eq_true hw
  obtain ⟨hgiven, -, -, hclock⟩ := decisions_are_proposed threePeers followedRun w hrun
  exact ⟨w, hrun, hdecided, hstep, hgiven, hclock 2 0 (by omega)⟩

end Runs

end MarketPeer.Paxos

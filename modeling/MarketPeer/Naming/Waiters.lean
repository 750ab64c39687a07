import MarketPeer.Naming.Invariant

/-!
# Waiting for the end of a step

A step sends one value to its finish channel, and every `Tag` that got the channel from
`Propose` takes a value out of it. Two calls that wait for the same step are one too
many; a call on its own is always released.
-/

namespace MarketPeer.Naming

open MarketPeer.Paxos (PaxosValue)

variable {N : Nat}

/-- Call `k` waits at the finish channel of step `n` of peer `i`. -/
def Waits (s : System N) (k : Nat) (i : Fin N) (n : Nat) : Prop :=
  ∃ v own, s.calls[k]? = some ⟨i, v, .waiting n own⟩

theorem Waits.lt {s : System N} {k : Nat} {i : Fin N} {n : Nat} (h : Waits s k i n) : k < s.calls.length := by
  obtain ⟨v, own, hk⟩ := h
  exact (List.getElem?_eq_some_iff.mp hk).1

theorem Waits.unique {s : System N} {k : Nat} {i i' : Fin N} {n n' : Nat} (h : Waits s k i n)
    (h' : Waits s k i' n') : (i, n) = (i', n') := by
  obtain ⟨v, own, hk⟩ := h
  obtain ⟨v', own', hk'⟩ := h'
  rw [hk, Option.some.injEq] at hk'
  cases hk'
  rfl

/-- No call waits for a step that is over at an empty channel. -/
def Released (s : System N) : Prop :=
  ∀ k i n, Waits s k i n → n < (s.peers i).step → (s.peers i).stepFinish n ≠ none

/-- What a run has to avoid: a call that gets to `Propose` while another one of its peer waits for the
current step. -/
def Alone (s : System N) : Event N → Prop
  | .propose k => ∀ i v, s.calls[k]? = some ⟨i, v, .proposing⟩ → ∀ j, ¬ Waits s j i (s.peers i).step
  | _ => True

instance (s : System N) (k : Nat) (i : Fin N) (n : Nat) : Decidable (Waits s k i n) :=
  match h : s.calls[k]? with
  | some ⟨i', v, .waiting n' own⟩ => decidable_of_iff (i' = i ∧ n' = n) (by simp [Waits, h])
  | some ⟨_, _, .checking⟩ | some ⟨_, _, .proposing⟩ | some ⟨_, _, .returned _⟩ | none =>
    isFalse (by simp [Waits, h])

instance (s : System N) : (e : Event N) → Decidable (Alone s e)
  | .propose k =>
    match h : s.calls[k]? with
    | some ⟨i, v, .proposing⟩ =>
      decidable_of_iff (∀ j < s.calls.length, ¬ Waits s j i (s.peers i).step) <| by
        constructor
        · intro hnone i' v' hcall j hj
          rw [h, Option.some.injEq] at hcall
          cases hcall
          exact hnone j hj.lt hj
        · intro halone j _
          exact halone i v h j
    | some ⟨_, _, .checking⟩ | some ⟨_, _, .waiting _ _⟩ | some ⟨_, _, .returned _⟩ | none =>
      isTrue (by simp [Alone, h])
  | .tag _ _ | .checkName _ | .finish _ | .proposeReturns _ | .learn _ _ | .assemble _ | .broadcast _
  | .receive _ _ | .readTLC _ | .storeBlock _ | .writeName _ | .announce _ | .advance _ => isTrue trivial

/-! ## What a step can do -/

/-- The steps and the finish channels of all peers are as before. -/
structure SameClocks (s s' : System N) : Prop where
  step : ∀ i, (s'.peers i).step = (s.peers i).step
  stepFinish : ∀ i, (s'.peers i).stepFinish = (s.peers i).stepFinish

/-- How a step ends, as far as the finish channels are concerned. -/
inductive WaitMove (s : System N) : Event N → System N → Prop where
  | quiet (e : Event N) (s' : System N) (hwaits : ∀ k i n, Waits s' k i n ↔ Waits s k i n)
      (hclocks : SameClocks s s') : WaitMove s e s'
  | proposed (k : Nat) (s' : System N) (i : Fin N) (v : PaxosValue)
      (hcall : s.calls[k]? = some ⟨i, v, .proposing⟩)
      (hwaits : ∀ j i' n, Waits s' j i' n ↔ Waits s j i' n ∨ (j = k ∧ i' = i ∧ n = (s.peers i).step))
      (hclocks : SameClocks s s') : WaitMove s (.propose k) s'
  | finished (k : Nat) (s' : System N) (i : Fin N) (n : Nat) (hk : Waits s k i n)
      (hvalue : (s.peers i).stepFinish n ≠ none)
      (hwaits : ∀ j i' n', Waits s' j i' n' ↔ j ≠ k ∧ Waits s j i' n')
      (hstep : ∀ j, (s'.peers j).step = (s.peers j).step)
      (hempty : (s'.peers i).stepFinish n = none)
      (hothers : ∀ j n', (j, n') ≠ (i, n) → (s'.peers j).stepFinish n' = (s.peers j).stepFinish n') :
      WaitMove s (.finish k) s'
  | advanced (i : Fin N) (s' : System N) (hwaits : ∀ k j n, Waits s' k j n ↔ Waits s k j n)
      (hstep : (s'.peers i).step = (s.peers i).step + 1)
      (hvalue : (s'.peers i).stepFinish (s.peers i).step ≠ none)
      (hearlier : ∀ n ≠ (s.peers i).step, (s'.peers i).stepFinish n = (s.peers i).stepFinish n)
      (hothers : ∀ j ≠ i, s'.peers j = s.peers j) : WaitMove s (.advance i) s'

section Moves

variable {s s' : System N} {k : Nat} {i : Fin N}

/-- A call that is somewhere else than at a finish channel. -/
theorem waits_setCall_other {c c' : Call N} (hk : s.calls[k]? = some c) (hc : ∀ n own, c.pc ≠ .waiting n own)
    (hc' : ∀ n own, c'.pc ≠ .waiting n own) (j : Nat) (i : Fin N) (n : Nat) :
    Waits (s.setCall k c') j i n ↔ Waits s j i n := by
  obtain ⟨hlen, -⟩ := List.getElem?_eq_some_iff.mp hk
  unfold Waits System.setCall
  by_cases hj : k = j
  · subst hj
    simp only [List.getElem?_set_self hlen, hk, Option.some.injEq]
    constructor
    · rintro ⟨v, own, rfl⟩
      exact absurd rfl (hc' n own)
    · rintro ⟨v, own, rfl⟩
      exact absurd rfl (hc n own)
  · simp only [List.getElem?_set_ne hj]

theorem waits_append {c : Call N} (hc : ∀ n own, c.pc ≠ .waiting n own) (j : Nat) (i : Fin N) (n : Nat)
    (hcalls : s'.calls = s.calls ++ [c]) : Waits s' j i n ↔ Waits s j i n := by
  unfold Waits
  rw [hcalls]
  constructor
  · rintro ⟨v, own, h⟩
    rcases lt_or_ge j s.calls.length with hlt | hge
    · rw [List.getElem?_append_left hlt] at h
      exact ⟨v, own, h⟩
    · rw [List.getElem?_append_right hge] at h
      have hc' := List.mem_of_getElem? h
      rw [List.mem_singleton] at hc'
      exact absurd (by rw [← hc']) (hc n own)
  · rintro ⟨v, own, h⟩
    refine ⟨v, own, ?_⟩
    rw [List.getElem?_append_left (List.getElem?_eq_some_iff.mp h).1]
    exact h

theorem SameClocks.setPeer {p : Peer} (hpeers : s'.peers = Function.update s.peers i p)
    (hstep : p.step = (s.peers i).step) (hfinish : p.stepFinish = (s.peers i).stepFinish) : SameClocks s s' := by
  constructor
  · intro j
    rw [hpeers]
    by_cases hj : j = i
    · subst hj
      rw [Function.update_self, hstep]
    · rw [Function.update_of_ne hj]
  · intro j
    rw [hpeers]
    by_cases hj : j = i
    · subst hj
      rw [Function.update_self, hfinish]
    · rw [Function.update_of_ne hj]

/-- A step of one peer that leaves its step and its channels alone. -/
theorem WaitMove.of_peer {e : Event N} {p : Peer} (hcalls : s'.calls = s.calls)
    (hpeers : s'.peers = Function.update s.peers i p) (hstep : p.step = (s.peers i).step)
    (hfinish : p.stepFinish = (s.peers i).stepFinish) : WaitMove s e s' := by
  refine .quiet e s' ?_ (.setPeer hpeers hstep hfinish)
  intro k j n
  unfold Waits
  rw [hcalls]

/-- The call goes to the channel of the current step, as proposer or not. -/
theorem propose_waits {v : PaxosValue} {own : Bool} (hk : s.calls[k]? = some ⟨i, v, .proposing⟩)
    (hcalls : s'.calls = s.calls.set k ⟨i, v, .waiting (s.peers i).step own⟩) (j : Nat) (i' : Fin N) (n : Nat) :
    Waits s' j i' n ↔ Waits s j i' n ∨ (j = k ∧ i' = i ∧ n = (s.peers i).step) := by
  obtain ⟨hlen, -⟩ := List.getElem?_eq_some_iff.mp hk
  unfold Waits
  rw [hcalls]
  by_cases hj : k = j
  · subst hj
    simp only [List.getElem?_set_self hlen, hk, Option.some.injEq, Call.mk.injEq]
    constructor
    · rintro ⟨v', own', rfl, rfl, hpc⟩
      cases hpc
      exact .inr ⟨trivial, rfl, rfl⟩
    · rintro (⟨v', own', -, -, hpc⟩ | ⟨-, rfl, rfl⟩)
      · cases hpc
      · exact ⟨v, own, by simp⟩
  · simp only [List.getElem?_set_ne hj, Ne.symm hj, false_and, or_false]

theorem finish_waits {c' : Call N} (hlen : k < s.calls.length) (hc' : ∀ n own, c'.pc ≠ .waiting n own)
    (hcalls : s'.calls = s.calls.set k c') (j : Nat) (i' : Fin N) (n : Nat) :
    Waits s' j i' n ↔ j ≠ k ∧ Waits s j i' n := by
  unfold Waits
  rw [hcalls]
  by_cases hj : k = j
  · subst hj
    simp only [List.getElem?_set_self hlen, Option.some.injEq, ne_eq, not_true, false_and, iff_false]
    rintro ⟨v, own, rfl⟩
    exact hc' n own rfl
  · simp only [List.getElem?_set_ne hj, ne_eq, Ne.symm hj, not_false_eq_true, true_and]

theorem propose_move (h : propose s k = some s') : WaitMove s (.propose k) s' := by
  unfold propose at h
  split at h
  · rename_i i v hcall
    dsimp only at h
    split_ifs at h with hlocked hbusy
    · cases h
      exact .proposed k _ i v hcall (propose_waits hcall rfl) ⟨fun _ => rfl, fun _ => rfl⟩
    · cases h
      exact .proposed k _ i v hcall (propose_waits hcall rfl) (.setPeer rfl rfl rfl)
  · cases h

theorem finish_move (h : finish s k = some s') : WaitMove s (.finish k) s' := by
  unfold finish at h
  split at h
  · rename_i i v n own hcall
    dsimp only at h
    split at h
    · rename_i value hvalue
      cases h
      refine .finished k _ i n ⟨v, own, hcall⟩ (by rw [hvalue]; simp) ?_ ?_ ?_ ?_
      · refine finish_waits (List.getElem?_eq_some_iff.mp hcall).1 ?_ rfl
        intro n' own'
        split_ifs <;> simp
      · intro j
        by_cases hj : j = i
        · subst hj
          simp [System.setPeer, System.setCall]
        · simp [System.setPeer, System.setCall, hj]
      · simp [System.setPeer, System.setCall]
      · intro j n' hne
        by_cases hj : j = i
        · subst hj
          have hn : n' ≠ n := fun hn => hne (by rw [hn])
          simp [System.setPeer, System.setCall, hn]
        · simp [System.setPeer, System.setCall, hj]
    · cases h
  · cases h

theorem checkName_move {e : Event N} (h : checkName s k = some s') : WaitMove s e s' := by
  unfold checkName at h
  split at h
  · rename_i i v hcall
    split_ifs at h
    · cases h
      exact .quiet e _ (waits_setCall_other hcall (by simp) (by simp)) ⟨fun _ => rfl, fun _ => rfl⟩
    · cases h
      exact .quiet e _ (waits_setCall_other hcall (by simp) (by simp)) ⟨fun _ => rfl, fun _ => rfl⟩
  · cases h

theorem tag_move {e : Event N} (i : Fin N) (v : PaxosValue) : WaitMove s e (tag s i v) := by
  unfold tag
  split_ifs
  · exact .quiet e _ (fun k j n => waits_append (c := ⟨i, v, .returned true⟩) (by simp) k j n rfl)
      (.setPeer rfl rfl rfl)
  · exact .quiet e _ (fun k j n => waits_append (c := ⟨i, v, .checking⟩) (by simp) k j n rfl)
      ⟨fun _ => rfl, fun _ => rfl⟩

theorem advance_move {cfg : Config} {p : Peer} (h : advance cfg (s.peers i) = some p) :
    WaitMove s (.advance i) (s.setPeer i p) := by
  obtain ⟨tlc, -, ⟨-, rfl⟩ | ⟨daemon, -, rfl⟩⟩ := advance_eq_some h
  · exact .of_peer rfl rfl rfl rfl
  · refine .advanced i _ (fun _ _ _ => Iff.rfl) ?_ ?_ ?_ ?_
    · simp [System.setPeer]
    · simp [System.setPeer]
    · intro n hn
      simp [System.setPeer, hn]
    · intro j hj
      exact setPeer_other i j hj

theorem step_waitMove {cfg : Config} {e : Event N} (h : step cfg s e = some s') : WaitMove s e s' := by
  cases e with
  | tag i v =>
    rw [← Option.some.inj h]
    exact tag_move i v
  | checkName k => exact checkName_move h
  | propose k => exact propose_move h
  | finish k => exact finish_move h
  | proposeReturns i =>
    obtain ⟨p, hp, rfl⟩ := Option.map_eq_some_iff.mp h
    rw [proposeReturns_eq_some hp]
    exact .of_peer rfl rfl rfl rfl
  | learn i v =>
    obtain ⟨p, hp, rfl⟩ := Option.map_eq_some_iff.mp h
    rw [learn_eq_some hp]
    exact .of_peer rfl rfl rfl rfl
  | assemble i =>
    rw [step] at h
    split at h
    · cases h
      exact .of_peer rfl rfl rfl rfl
    · cases h
  | broadcast i =>
    rw [step] at h
    split at h
    · cases h
      exact .of_peer rfl rfl rfl rfl
    · cases h
  | receive i rumor =>
    rw [step] at h
    split_ifs at h
    obtain ⟨tlc, -, h⟩ := Option.bind_eq_some_iff.mp h
    obtain ⟨p, hp, rfl⟩ := Option.map_eq_some_iff.mp h
    rcases tlcCallback_eq_some hp with rfl | rfl
    · exact .of_peer rfl rfl rfl rfl
    · exact .of_peer rfl rfl rfl rfl
  | readTLC i =>
    obtain ⟨p, hp, rfl⟩ := Option.map_eq_some_iff.mp h
    obtain ⟨tlc, rest, -, -, rfl | ⟨daemon, -, rfl⟩⟩ := readTLC_eq_some hp
    · exact .of_peer rfl rfl rfl rfl
    · exact .of_peer rfl rfl rfl rfl
  | storeBlock i =>
    obtain ⟨p, hp, rfl⟩ := Option.map_eq_some_iff.mp h
    obtain ⟨tlc, catchingup, -, ⟨-, rfl⟩ | rfl⟩ := storeBlock_eq_some hp
    · exact .of_peer rfl rfl rfl rfl
    · exact .of_peer rfl rfl rfl rfl
  | writeName i =>
    obtain ⟨p, hp, rfl⟩ := Option.map_eq_some_iff.mp h
    obtain ⟨tlc, catchingup, tlcSent, broadcast, -, rfl⟩ := writeName_eq_some hp
    exact .of_peer rfl rfl rfl rfl
  | announce i =>
    rw [step] at h
    split at h
    · cases h
      exact .of_peer rfl rfl rfl rfl
    · cases h
  | advance i =>
    obtain ⟨p, hp, rfl⟩ := Option.map_eq_some_iff.mp h
    exact advance_move hp

end Moves

/-! ## Waiters -/

/-- A call waits for a step that has begun, and only steps that are over have sent their value. -/
structure WaitInv (s : System N) : Prop where
  begun : ∀ k i n, Waits s k i n → n ≤ (s.peers i).step
  ended : ∀ i n, (s.peers i).stepFinish n ≠ none → n < (s.peers i).step

/-- At most one call waits for a step. -/
def OneWaiter (s : System N) : Prop := ∀ j k i n, Waits s j i n → Waits s k i n → j = k

section Runs

variable {cfg : Config} {s s' : System N} {e : Event N}

theorem waitInv_init (naming : Fin N → String → Option String) : WaitInv (.init naming) where
  begun := by simp [Waits, System.init]
  ended := by simp [System.init, Peer.init]

theorem WaitInv.keep (h : WaitInv s) (hmove : WaitMove s e s') : WaitInv s' := by
  cases hmove with
  | quiet _ _ hwaits hclocks =>
    constructor
    · intro k i n hk
      rw [hclocks.step]
      exact h.begun k i n ((hwaits k i n).mp hk)
    · intro i n hn
      rw [hclocks.stepFinish] at hn
      rw [hclocks.step]
      exact h.ended i n hn
  | proposed k _ i v hcall hwaits hclocks =>
    constructor
    · intro j i' n hj
      rw [hclocks.step]
      rcases (hwaits j i' n).mp hj with hold | ⟨-, rfl, rfl⟩
      · exact h.begun j i' n hold
      · exact le_rfl
    · intro i' n hn
      rw [hclocks.stepFinish] at hn
      rw [hclocks.step]
      exact h.ended i' n hn
  | finished k _ i n hk hvalue hwaits hstep hempty hothers =>
    constructor
    · intro j i' n' hj
      rw [hstep]
      exact h.begun j i' n' ((hwaits j i' n').mp hj).2
    · intro i' n' hn'
      rw [hstep]
      by_cases heq : (i', n') = (i, n)
      · cases heq
        exact absurd hempty hn'
      · rw [hothers i' n' heq] at hn'
        exact h.ended i' n' hn'
  | advanced i _ hwaits hstep hvalue hearlier hothers =>
    constructor
    · intro k j n hk
      have hle := h.begun k j n ((hwaits k j n).mp hk)
      by_cases hj : j = i
      · subst hj
        omega
      · rw [hothers j hj]
        exact hle
    · intro j n hn
      by_cases hj : j = i
      · subst hj
        by_cases hcurrent : n = (s.peers j).step
        · omega
        · rw [hearlier n hcurrent] at hn
          have hlt := h.ended j n hn
          omega
      · rw [hothers j hj] at hn ⊢
        exact h.ended j n hn

/-- A call that got to `Propose` alone is the only one that waits for its step. -/
theorem OneWaiter.keep (hone : OneWaiter s) (halone : Alone s e) (hmove : WaitMove s e s') : OneWaiter s' := by
  cases hmove with
  | quiet _ _ hwaits _ =>
    intro j k i n hj hk
    exact hone j k i n ((hwaits j i n).mp hj) ((hwaits k i n).mp hk)
  | proposed k _ i v hcall hwaits _ =>
    have hnone := halone i v hcall
    intro j l i' n hj hl
    rcases (hwaits j i' n).mp hj with hold | ⟨rfl, rfl, rfl⟩
    · rcases (hwaits l i' n).mp hl with hold' | ⟨rfl, rfl, rfl⟩
      · exact hone j l i' n hold hold'
      · exact absurd hold (hnone j)
    · rcases (hwaits l i' _).mp hl with hold' | ⟨rfl, -, -⟩
      · exact absurd hold' (hnone l)
      · rfl
  | finished k _ i n hk hvalue hwaits hstep hempty hothers =>
    intro j l i' n' hj hl
    exact hone j l i' n' ((hwaits j i' n').mp hj).2 ((hwaits l i' n').mp hl).2
  | advanced i _ hwaits hstep hvalue hearlier hothers =>
    intro j k i' n hj hk
    exact hone j k i' n ((hwaits j i' n).mp hj) ((hwaits k i' n).mp hk)

theorem Released.keep (hone : OneWaiter s) (hreleased : Released s) (hmove : WaitMove s e s') : Released s' := by
  cases hmove with
  | quiet _ _ hwaits hclocks =>
    intro k i n hk
    rw [hclocks.step, hclocks.stepFinish]
    exact hreleased k i n ((hwaits k i n).mp hk)
  | proposed k _ i v hcall hwaits hclocks =>
    intro j i' n hj
    rw [hclocks.step, hclocks.stepFinish]
    rcases (hwaits j i' n).mp hj with hold | ⟨-, rfl, rfl⟩
    · exact hreleased j i' n hold
    · intro hlt
      exact absurd hlt (lt_irrefl _)
  | finished k _ i n hk hvalue hwaits hstep hempty hothers =>
    intro j i' n' hj
    obtain ⟨hne, hold⟩ := (hwaits j i' n').mp hj
    rw [hstep]
    by_cases heq : (i', n') = (i, n)
    · -- the value has been taken by the only call that waited for it
      cases heq
      exact absurd (hone j k i n hold hk) hne
    · rw [hothers i' n' heq]
      exact hreleased j i' n' hold
  | advanced i _ hwaits hstep hvalue hearlier hothers =>
    intro k j n hk hlt
    have hold := (hwaits k j n).mp hk
    by_cases hj : j = i
    · subst hj
      by_cases hcurrent : n = (s.peers j).step
      · subst hcurrent
        exact hvalue
      · rw [hearlier n hcurrent]
        refine hreleased k j n hold ?_
        omega
    · rw [hothers j hj] at hlt ⊢
      exact hreleased k j n hold hlt

/-- Of two calls that wait for one step, one is still there when the value has been taken. -/
def OneLeft (i : Fin N) (n j k : Nat) (s : System N) : Prop :=
  (Waits s j i n ∧ Waits s k i n) ∨
    (n < (s.peers i).step ∧ (s.peers i).stepFinish n = none ∧ (Waits s j i n ∨ Waits s k i n))

theorem OneLeft.keep {i : Fin N} {n j k : Nat} (hjk : j ≠ k) (h : WaitInv s) (hleft : OneLeft i n j k s)
    (hmove : WaitMove s e s') : OneLeft i n j k s' := by
  cases hmove with
  | quiet _ _ hwaits hclocks =>
    unfold OneLeft
    rw [hwaits, hwaits, hclocks.step, hclocks.stepFinish]
    exact hleft
  | proposed l _ i' v hcall hwaits hclocks =>
    unfold OneLeft
    rw [hwaits, hwaits, hclocks.step, hclocks.stepFinish]
    rcases hleft with ⟨hj, hk⟩ | ⟨hlt, hempty, hj | hk⟩
    · exact .inl ⟨.inl hj, .inl hk⟩
    · exact .inr ⟨hlt, hempty, .inl (.inl hj)⟩
    · exact .inr ⟨hlt, hempty, .inr (.inl hk)⟩
  | finished l _ i' n' hl hvalue hwaits hstep hempty hothers =>
    unfold OneLeft
    rw [hwaits, hwaits, hstep]
    rcases hleft with ⟨hj, hk⟩ | ⟨hlt, hnone, hrest⟩
    · by_cases hthird : j ≠ l ∧ k ≠ l
      · exact .inl ⟨⟨hthird.1, hj⟩, hthird.2, hk⟩
      · -- the value of the step goes to one of the two
        have hsame : (i, n) = (i', n') := by
          by_cases hjl : j = l
          · subst hjl
            exact hj.unique hl
          · rw [not_and, not_not] at hthird
            rw [← hthird hjl] at hl
            exact hk.unique hl
        cases hsame
        refine .inr ⟨h.ended i n hvalue, hempty, ?_⟩
        by_cases hjl : j = l
        · exact .inr ⟨fun hkl => hjk (hjl.trans hkl.symm), hk⟩
        · exact .inl ⟨hjl, hj⟩
    · have hother : (i, n) ≠ (i', n') := by
        intro heq
        cases heq
        exact hvalue hnone
      have hne : ∀ m, Waits s m i n → m ≠ l := by
        rintro m hm rfl
        exact hother (hm.unique hl)
      rw [hothers i n hother]
      exact .inr ⟨hlt, hnone, hrest.imp (fun hj => ⟨hne j hj, hj⟩) fun hk => ⟨hne k hk, hk⟩⟩
  | advanced i' _ hwaits hstep hvalue hearlier hothers =>
    unfold OneLeft
    rw [hwaits, hwaits]
    rcases hleft with hboth | ⟨hlt, hnone, hrest⟩
    · exact .inl hboth
    · by_cases hi : i = i'
      · subst hi
        rw [hearlier n (by omega)]
        exact .inr ⟨by omega, hnone, hrest⟩
      · rw [hothers i hi]
        exact .inr ⟨hlt, hnone, hrest⟩

/-- A run in which calls get to `Propose` alone releases every call. Where two calls of a peer wait for one
step, one of them waits in vain as soon as the step is over and its value taken. -/
theorem tag_released (cfg : Config) (naming : Fin N → String → Option String) (es : List (Event N))
    (hrun : run (step cfg) (.init naming) es = some s) :
    (Meets (step cfg) Alone (.init naming) es → Released s) ∧
    ∀ i n j k, j ≠ k → Waits s j i n → Waits s k i n → ∀ more s', run (step cfg) s more = some s' →
      n < (s'.peers i).step → (s'.peers i).stepFinish n = none → ¬ Released s' := by
  constructor
  · intro halone
    refine (run_invariant (fun s => OneWaiter s ∧ Released s) ?_ es ?_ halone hrun).2
    · rintro s e s' ⟨hone, hreleased⟩ he hstep
      exact ⟨hone.keep he (step_waitMove hstep), hreleased.keep hone (step_waitMove hstep)⟩
    · constructor <;> simp [OneWaiter, Released, Waits, System.init]
  · intro i n j k hjk hj hk more s' hmore hlt hnone hreleased
    have hinv : WaitInv s :=
      run_preserves WaitInv (fun _ _ _ h hstep => h.keep (step_waitMove hstep)) es (waitInv_init naming) hrun
    have hleft := (run_preserves (fun s => WaitInv s ∧ OneLeft i n j k s)
      (fun _ _ _ h hstep => ⟨h.1.keep (step_waitMove hstep), h.2.keep hjk h.1 (step_waitMove hstep)⟩) more
      ⟨hinv, .inl ⟨hj, hk⟩⟩ hmore).2
    rcases hleft with ⟨hj, -⟩ | ⟨-, -, hj | hk⟩
    · exact hreleased j i n hj hlt hnone
    · exact hreleased j i n hj hlt hnone
    · exact hreleased k i n hk hlt hnone

end Runs

/-- Peer 0 proposes the name, both peers go through step 0, and the call takes the value. -/
def tagOnce : List (Event 2) :=
  [.tag 0 sampleValue, .checkName 0, .propose 0] ++ (sampleRound sampleValue 0).take 2 ++ [.proposeReturns 0] ++
    (sampleRound sampleValue 0).drop 2 ++ [.finish 0]

theorem tagOnce_released :
    ∃ s, run (step sampleConfig) (.init fun _ _ => none) tagOnce = some s ∧ 0 < (s.peers 0).step ∧ Released s := by
  have hrun : (run (step sampleConfig) (.init fun _ _ => none) tagOnce).any
      (fun s => decide (0 < (s.peers 0).step)) = true := by
    decide
  obtain ⟨s, hs, hstep⟩ := (Option.any_eq_true _ _).mp hrun
  refine ⟨s, hs, of_decide_eq_true hstep, (tag_released sampleConfig _ tagOnce hs).1 ?_⟩
  decide

/-- A second call of peer 0 gets `ErrOnProposing` in the same step. -/
def tagTwice : List (Event 2) :=
  [.tag 0 sampleValue, .checkName 0, .propose 0, .tag 0 ⟨"b", "other", "2"⟩, .checkName 1, .propose 1] ++
    (sampleRound sampleValue 0).take 2 ++ [.proposeReturns 0] ++ (sampleRound sampleValue 0).drop 2 ++ [.finish 0]

theorem tagTwice_not_released :
    ∃ s, run (step sampleConfig) (.init fun _ _ => none) tagTwice = some s ∧ Waits s 1 0 0 ∧
      0 < (s.peers 0).step ∧ (s.peers 0).stepFinish 0 = none ∧ ¬ Released s := by
  have hrun : (run (step sampleConfig) (.init fun _ _ => none) tagTwice).any
      (fun s => decide (Waits s 1 0 0 ∧ 0 < (s.peers 0).step ∧ (s.peers 0).stepFinish 0 = none)) = true := by
    decide
  obtain ⟨s, hs, hvain⟩ := (Option.any_eq_true _ _).mp hrun
  obtain ⟨hwaits, hstep, hempty⟩ := of_decide_eq_true hvain
  exact ⟨s, hs, hwaits, hstep, hempty, fun hreleased => hreleased 1 0 0 hwaits hstep hempty⟩

end MarketPeer.Naming

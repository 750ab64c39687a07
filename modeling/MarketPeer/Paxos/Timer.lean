import MarketPeer.Paxos.Model

/-!
# The timer of phase one

`propose` makes one timer for an attempt, and every receive of the attempt waits for it. A
timer fires once. Here the threshold is any number, and calls of former steps can still read
what their channel of promises holds.
-/

namespace MarketPeer.Paxos

variable {N : Nat}

/-! ## Phase one with any threshold -/

/-- What became of an attempt: its promises, or the ballots before and after its timeout. -/
inductive Attempt where
  | promised (promises : Nat)
  | retried (before after : Nat)
  deriving DecidableEq

/-- A peer with any calls of `propose`. The channel of promises of a former step is in `leftCh`. -/
structure Timed where
  peer : Peer
  leftCh : Nat → List Promise
  attempts : List Attempt

def Timed.init (paxosID : Nat) : Timed := ⟨.init paxosID, fun _ => [], []⟩

/-- The channel that a call has taken at its start. -/
def Timed.channel (s : Timed) (t : Routine) : List Promise :=
  if t.step = s.peer.step then s.peer.promiseCh else s.leftCh t.step

/-- Its next promise is taken. -/
def Timed.receive (s : Timed) (t : Routine) : Timed :=
  if t.step = s.peer.step then { s with peer := { s.peer with promiseCh := s.peer.promiseCh.tail } }
  else { s with leftCh := Function.update s.leftCh t.step (s.leftCh t.step).tail }

def Timed.setRoutine (s : Timed) (r : Nat) (t : Routine) : Timed := { s with peer := s.peer.setRoutine r t }

/-- The value of a promise takes the place of the own one, if its ballot is the highest so far. -/
def Routine.hear (t : Routine) (c : Promise) : Option Routine :=
  if t.highestAcceptedID < c.acceptedID then
    c.acceptedValue.map fun v =>
      { t with highestAcceptedID := c.acceptedID, proposedValue := v, read := t.read ++ [c] }
  else some { t with read := t.read ++ [c] }

/-- The call is at one of the `T` receives. -/
def Routine.Waits (T : Nat) (t : Routine) : Prop :=
  ∃ fired, t.pc = .waitOne fired ∧ t.read.length + fired.toNat < T

namespace Timed

def exit (s : Timed) (r : Nat) (t : Routine) : Timed := s.setRoutine r { t with pc := .exiting }

/-- The head of the loop, first or again after a timeout. -/
def prepare (T : Nat) (s : Timed) (r : Nat) (t : Routine) : Option Timed :=
  if t.pc = .loop ∨ (t.pc = .waitOne true ∧ t.read.length + 1 = T) then
    if t.step ≠ s.peer.step then some (s.exit r t)
    else
      let s := s.setRoutine r { t with pc := .waitOne false, read := [] }
      some { s with peer := { s.peer with phase := .phaseOne } }
  else none

def readPromise (T : Nat) (s : Timed) (r : Nat) (t : Routine) : Option Timed :=
  match t.pc, s.channel t with
  | .waitOne fired, c :: _ =>
    if t.read.length + fired.toNat < T then (t.hear c).map fun t' => (s.receive t).setRoutine r t' else none
  | _, _ => none

/-- The timer fires at a receive. Afterwards the loop goes on to the next receive. -/
def timeoutOne (N T : Nat) (s : Timed) (r : Nat) (t : Routine) : Option Timed :=
  if t.pc = .waitOne false ∧ t.read.length < T then
    if t.step ≠ s.peer.step then some (s.exit r t)
    else
      let proposalID := nextProposalID N s.peer.proposalID
      some
        { s with
          peer := { s.peer.setRoutine r { t with pc := .waitOne true } with proposalID }
          attempts := s.attempts ++ [.retried s.peer.proposalID proposalID] }
  else none

def enterTwo (T : Nat) (s : Timed) (r : Nat) (t : Routine) : Option Timed :=
  if t.pc = .waitOne false ∧ t.read.length = T then
    if t.step ≠ s.peer.step then some (s.exit r t)
    else
      some
        { s with
          peer := { s.peer.setRoutine r { t with pc := .waitTwo, read := [] } with phase := .phaseTwo }
          attempts := s.attempts ++ [.promised t.read.length] }
  else none

/-- `advanceClockAsStep`: calls of the old step keep their channel. -/
def advance (N paxosID : Nat) (s : Timed) (value : PaxosValue) : Option Timed :=
  (tlcAdvance (N := N) paxosID { s.peer with advancing := some ⟨s.peer.step, value⟩ }).map fun e =>
    { s with
      peer := { e.peer with advancing := none }
      leftCh := Function.update s.leftCh s.peer.step s.peer.promiseCh }

/-- A step of the model of one peer that has nothing to do with phase one. -/
def other (s : Timed) (e : Option (Effect N)) : Option Timed := e.map fun e => { s with peer := e.peer }

end Timed

inductive TimedEvent where
  | propose (value : PaxosValue)
  | promise (c : Promise)
  | prepare (r : Nat)
  | readPromise (r : Nat)
  | timeoutOne (r : Nat)
  | enterTwo (r : Nat)
  | signal (value : PaxosValue)
  | signalled (r : Nat)
  | timeoutTwo (r : Nat)
  | unwind (r : Nat)
  | advance (value : PaxosValue)

/-- Any promise can come in at any time, the learner can signal, and the clock can advance. -/
def timedStep (N T paxosID : Nat) (s : Timed) : TimedEvent → Option Timed
  | .propose value => s.other (N := N) (some (propose s.peer value))
  | .promise c => s.other (paxosPromiseCallback (N := N) s.peer c)
  | .prepare r => (s.peer.routines[r]?).bind (s.prepare T r)
  | .readPromise r => (s.peer.routines[r]?).bind (s.readPromise T r)
  | .timeoutOne r => (s.peer.routines[r]?).bind (s.timeoutOne N T r)
  | .enterTwo r => (s.peer.routines[r]?).bind (s.enterTwo T r)
  | .signal value => some { s with peer := { s.peer with signal := some value } }
  | .signalled r => s.other (N := N) ((s.peer.routines[r]?).bind (signalled s.peer r))
  | .timeoutTwo r => s.other (N := N) ((s.peer.routines[r]?).bind (timeoutTwo s.peer r))
  | .unwind r => s.other (N := N) ((s.peer.routines[r]?).bind (unwind s.peer r))
  | .advance value => s.advance N paxosID value

/-! ## With the threshold of the system -/

section Threshold

variable {i : Fin N} {s : Timed} {r : Nat} {t : Routine}

theorem prepare_threshold : (Paxos.prepare i s.peer r t).map (·.peer) = (s.prepare (threshold N) r t).map (·.peer) := by
  unfold Paxos.prepare Timed.prepare
  split_ifs <;> rfl

theorem timeoutOne_threshold :
    (Paxos.timeoutOne (N := N) s.peer r t).map (·.peer) = (s.timeoutOne N (threshold N) r t).map (·.peer) := by
  unfold Paxos.timeoutOne Timed.timeoutOne
  split_ifs <;> rfl

theorem enterTwo_threshold (now : Nat) :
    (Paxos.enterTwo i now s.peer r t).map (·.peer) = (s.enterTwo (threshold N) r t).map (·.peer) := by
  unfold Paxos.enterTwo Timed.enterTwo
  split_ifs <;> rfl

theorem readPromise_threshold (hstep : t.step = s.peer.step) :
    (Paxos.readPromise (N := N) s.peer r t).map (·.peer) = (s.readPromise (threshold N) r t).map (·.peer) := by
  unfold Paxos.readPromise Timed.readPromise Timed.channel Timed.receive Routine.hear
  rw [if_pos hstep, if_pos hstep]
  cases hpc : t.pc with
  | waitOne fired =>
    cases hch : s.peer.promiseCh with
    | nil => rfl
    | cons c rest =>
      simp only [hstep, true_and]
      split_ifs
      · cases c.acceptedValue <;> rfl
      · rfl
      · rfl
  | loop => rfl
  | waitTwo => rfl
  | exiting => rfl
  | done => rfl

end Threshold

/-! ## Who still has a timer -/

/-- The attempt came to `T` promises or to a higher ballot. -/
def Attempt.Good (T : Nat) : Attempt → Prop
  | .promised promises => promises = T
  | .retried before after => before < after

/-- At each receive of phase one the timer has not fired, and its step is there to be taken. -/
structure Guarded (N T paxosID : Nat) (s : Timed) : Prop where
  armed : ∀ t ∈ s.peer.routines, t.Waits T → t.pc = .waitOne false
  timer : ∀ (r : Nat) (t : Routine), s.peer.routines[r]? = some t → t.Waits T →
    (timedStep N T paxosID s (.timeoutOne r)).isSome
  attempts : ∀ a ∈ s.attempts, a.Good T

/-- What a run has to avoid: a timer that fires before the last receive, and a ballot that wraps around. -/
def TimerLast (N T : Nat) (s : Timed) : TimedEvent → Prop
  | .timeoutOne r => ∀ t ∈ s.peer.routines[r]?, t.step = s.peer.step →
      t.read.length + 1 = T ∧ s.peer.proposalID < nextProposalID N s.peer.proposalID
  | _ => True

instance (N T : Nat) (s : Timed) (e : TimedEvent) : Decidable (TimerLast N T s e) :=
  match e with
  | .timeoutOne _ => inferInstanceAs (Decidable (∀ _ ∈ _, _))
  | .propose _ | .promise _ | .prepare _ | .readPromise _ | .enterTwo _ | .signal _ | .signalled _ | .timeoutTwo _
  | .unwind _ | .advance _ => isTrue trivial

section Guarded

variable {T paxosID : Nat} {s s' : Timed} {r : Nat} {t t' : Routine}

/-- A call that is not at a receive, or that still has its timer. -/
def Routine.Armed (T : Nat) (t : Routine) : Prop := t.Waits T → t.pc = .waitOne false

theorem guarded_iff : Guarded N T paxosID s ↔ (∀ t ∈ s.peer.routines, t.Armed T) ∧ ∀ a ∈ s.attempts, a.Good T := by
  constructor
  · intro h
    exact ⟨h.armed, h.attempts⟩
  · rintro ⟨harmed, hattempts⟩
    refine ⟨harmed, ?_, hattempts⟩
    intro r t hr hwaits
    have hpc := harmed t (List.mem_of_getElem? hr) hwaits
    obtain ⟨fired, hfired, hlt⟩ := hwaits
    rw [hpc] at hfired
    cases hfired
    simp only [timedStep, hr, Option.bind_some, Timed.timeoutOne]
    rw [if_pos ⟨hpc, by simpa using hlt⟩]
    split <;> rfl

theorem armed_of_pc (h : ∀ fired, t.pc ≠ .waitOne fired) : t.Armed T := by
  rintro ⟨fired, hpc, -⟩
  exact (h fired hpc).elim

theorem armed_hear {c : Promise} (h : t.hear c = some t') (ht : t.Armed T) : t'.Armed T := by
  have hsame : t'.pc = t.pc ∧ t'.read = t.read ++ [c] := by
    unfold Routine.hear at h
    split at h
    · obtain ⟨v, -, rfl⟩ := Option.map_eq_some_iff.mp h
      exact ⟨rfl, rfl⟩
    · cases h
      exact ⟨rfl, rfl⟩
  rintro ⟨fired, hpc, hlt⟩
  rw [hsame.2, List.length_append, List.length_singleton] at hlt
  rw [hsame.1] at hpc ⊢
  exact ht ⟨fired, hpc, by omega⟩

/-- What can happen to the calls, but for a timer of phase one. -/
inductive CallMove (s s' : Timed) : Prop where
  | same (h : s'.peer.routines = s.peer.routines)
  | new (t : Routine) (h : s'.peer.routines = s.peer.routines ++ [t]) (hpc : t.pc = .loop)
  | move (r : Nat) (t t' : Routine) (hr : s.peer.routines[r]? = some t)
      (h : s'.peer.routines = s.peer.routines.set r t') (hpc : ∀ fired, t'.pc = .waitOne fired → fired = false)
  | read (r : Nat) (t t' : Routine) (c : Promise) (hr : s.peer.routines[r]? = some t)
      (h : s'.peer.routines = s.peer.routines.set r t') (hhear : t.hear c = some t')

theorem CallMove.armed (h : CallMove s s') (harmed : ∀ t ∈ s.peer.routines, t.Armed T) :
    ∀ t ∈ s'.peer.routines, t.Armed T := by
  intro u hu
  cases h with
  | same h =>
    rw [h] at hu
    exact harmed u hu
  | new t h hpc =>
    rw [h, List.mem_append, List.mem_singleton] at hu
    obtain hu | rfl := hu
    · exact harmed u hu
    · exact armed_of_pc (by rw [hpc]; exact nofun)
  | move r t t' hr h hpc =>
    rw [h] at hu
    obtain hu | rfl := List.mem_or_eq_of_mem_set hu
    · exact harmed u hu
    · rintro ⟨fired, hfired, -⟩
      rw [hfired, hpc fired hfired]
  | read r t t' c hr h hhear =>
    rw [h] at hu
    obtain hu | rfl := List.mem_or_eq_of_mem_set hu
    · exact harmed u hu
    · exact armed_hear hhear (harmed t (List.mem_of_getElem? hr))

theorem prepare_move (hr : s.peer.routines[r]? = some t) (h : s.prepare T r t = some s') :
    CallMove s s' ∧ s'.attempts = s.attempts := by
  unfold Timed.prepare at h
  split_ifs at h
  · cases h
    exact ⟨.move r t _ hr rfl nofun, rfl⟩
  · cases h
    exact ⟨.move r t _ hr rfl (by rintro fired heq; cases heq; rfl), rfl⟩

theorem receive_frame (s : Timed) (t : Routine) :
    (s.receive t).peer.routines = s.peer.routines ∧ (s.receive t).attempts = s.attempts := by
  unfold Timed.receive
  split <;> exact ⟨rfl, rfl⟩

theorem readPromise_move (hr : s.peer.routines[r]? = some t) (h : s.readPromise T r t = some s') :
    CallMove s s' ∧ s'.attempts = s.attempts := by
  unfold Timed.readPromise at h
  split at h
  · rename_i fired c rest hpc hch
    split_ifs at h
    obtain ⟨t', hhear, rfl⟩ := Option.map_eq_some_iff.mp h
    obtain ⟨hroutines, hattempts⟩ := receive_frame s t
    exact ⟨.read r t t' c hr (by rw [Timed.setRoutine, Peer.setRoutine, hroutines]) hhear, hattempts⟩
  · cases h

theorem enterTwo_move (hr : s.peer.routines[r]? = some t) (h : s.enterTwo T r t = some s') :
    CallMove s s' ∧ (s'.attempts = s.attempts ∨ s'.attempts = s.attempts ++ [.promised T]) := by
  unfold Timed.enterTwo at h
  split_ifs at h with hpc hstep
  · cases h
    exact ⟨.move r t _ hr rfl nofun, .inl rfl⟩
  · cases h
    exact ⟨.move r t _ hr rfl nofun, .inr (by rw [hpc.2])⟩

theorem advance_move {value : PaxosValue} (h : s.advance N paxosID value = some s') :
    CallMove s s' ∧ s'.attempts = s.attempts := by
  unfold Timed.advance tlcAdvance at h
  simp only [Option.map_some, ne_eq, not_true_eq_false, if_false, Option.some.injEq] at h
  subst h
  exact ⟨.same rfl, rfl⟩

/-- The calls after a step that is in the model of one peer. -/
theorem other_move {e : Option (Effect N)} (h : s.other e = some s')
    (hmove : ∀ x, e = some x → CallMove s { s with peer := x.peer }) :
    CallMove s s' ∧ s'.attempts = s.attempts := by
  obtain ⟨x, hx, rfl⟩ := Option.map_eq_some_iff.mp h
  exact ⟨hmove x hx, rfl⟩

theorem propose_move (value : PaxosValue) : CallMove s { s with peer := (propose (N := N) s.peer value).peer } := by
  unfold propose
  split_ifs
  · exact .new _ rfl rfl
  · exact .same rfl

theorem paxosPromiseCallback_move {c : Promise} {x : Effect N} (h : paxosPromiseCallback s.peer c = some x) :
    CallMove s { s with peer := x.peer } := by
  unfold paxosPromiseCallback at h
  split_ifs at h
  all_goals
    cases h
    exact .same rfl

theorem signalled_move {x : Effect N} (hr : s.peer.routines[r]? = some t) (h : signalled s.peer r t = some x) :
    CallMove s { s with peer := x.peer } := by
  unfold signalled at h
  split_ifs at h
  cases h
  exact .move r t _ hr rfl nofun

theorem timeoutTwo_move {x : Effect N} (hr : s.peer.routines[r]? = some t) (h : timeoutTwo s.peer r t = some x) :
    CallMove s { s with peer := x.peer } := by
  unfold timeoutTwo at h
  split_ifs at h
  · cases h
    exact .move r t _ hr rfl nofun
  · cases h
    exact .move r t _ hr rfl nofun

theorem unwind_move {x : Effect N} (hr : s.peer.routines[r]? = some t) (h : unwind s.peer r t = some x) :
    CallMove s { s with peer := x.peer } := by
  unfold unwind at h
  split_ifs at h with hpc
  all_goals
    cases h
    refine .move r t _ hr rfl ?_
    intro fired heq
    simp [hpc] at heq

/-- Every step but a timer of phase one. -/
theorem step_move {e : TimedEvent} (hnot : ∀ r, e ≠ .timeoutOne r) (h : timedStep N T paxosID s e = some s') :
    CallMove s s' ∧ (s'.attempts = s.attempts ∨ s'.attempts = s.attempts ++ [.promised T]) := by
  have hsame {P : Prop} (h : P ∧ s'.attempts = s.attempts) :
      P ∧ (s'.attempts = s.attempts ∨ s'.attempts = s.attempts ++ [.promised T]) := ⟨h.1, .inl h.2⟩
  cases e with
  | propose value => exact hsame (other_move h (by rintro x ⟨⟩; exact propose_move value))
  | promise c => exact hsame (other_move h fun x hx => paxosPromiseCallback_move hx)
  | prepare r =>
    obtain ⟨t, hr, h⟩ := Option.bind_eq_some_iff.mp h
    exact hsame (prepare_move hr h)
  | readPromise r =>
    obtain ⟨t, hr, h⟩ := Option.bind_eq_some_iff.mp h
    exact hsame (readPromise_move hr h)
  | timeoutOne r => exact (hnot r rfl).elim
  | enterTwo r =>
    obtain ⟨t, hr, h⟩ := Option.bind_eq_some_iff.mp h
    exact enterTwo_move hr h
  | signal value =>
    cases h
    exact ⟨.same rfl, .inl rfl⟩
  | signalled r =>
    refine hsame (other_move h fun x hx => ?_)
    obtain ⟨t, hr, hx⟩ := Option.bind_eq_some_iff.mp hx
    exact signalled_move hr hx
  | timeoutTwo r =>
    refine hsame (other_move h fun x hx => ?_)
    obtain ⟨t, hr, hx⟩ := Option.bind_eq_some_iff.mp hx
    exact timeoutTwo_move hr hx
  | unwind r =>
    refine hsame (other_move h fun x hx => ?_)
    obtain ⟨t, hr, hx⟩ := Option.bind_eq_some_iff.mp hx
    exact unwind_move hr hx
  | advance value => exact hsame (advance_move h)

/-- The timer of phase one leaves a call without one, unless its receive was the last. -/
theorem timeoutOne_guarded (hguarded : Guarded N T paxosID s) (hr : s.peer.routines[r]? = some t)
    (h : s.timeoutOne N T r t = some s') :
    Guarded N T paxosID s' ↔ (t.step = s.peer.step →
      t.read.length + 1 = T ∧ s.peer.proposalID < nextProposalID N s.peer.proposalID) := by
  obtain ⟨harmed, hattempts⟩ := guarded_iff.mp hguarded
  obtain ⟨hlen, -⟩ := List.getElem?_eq_some_iff.mp hr
  unfold Timed.timeoutOne at h
  split_ifs at h with hpc hstep
  · cases h
    have hmove : CallMove s (s.exit r t) := .move r t _ hr rfl nofun
    have hgood : Guarded N T paxosID (s.exit r t) := guarded_iff.mpr ⟨hmove.armed harmed, hattempts⟩
    simp only [hgood, hstep, false_implies]
  · cases h
    rw [guarded_iff, not_not.mp hstep]
    simp only [true_implies]
    constructor
    · rintro ⟨harmed', hattempts'⟩
      have hcall := harmed' _ (List.mem_of_getElem? (List.getElem?_set_self hlen))
      have hattempt := hattempts' (.retried s.peer.proposalID (nextProposalID N s.peer.proposalID)) (by simp)
      refine ⟨?_, hattempt⟩
      by_contra hearly
      have hwaits : ({ t with pc := .waitOne true } : Routine).Waits T := by
        refine ⟨true, rfl, ?_⟩
        simp only [Bool.toNat_true]
        omega
      exact absurd (hcall hwaits) (by simp)
    · rintro ⟨hlast, hhigher⟩
      constructor
      · intro u hu
        obtain hu | rfl := List.mem_or_eq_of_mem_set hu
        · exact harmed u hu
        · rintro ⟨fired, hfired, hlt⟩
          cases hfired
          simp only [Bool.toNat_true] at hlt
          omega
      · intro a ha
        obtain ha | ha := List.mem_append.mp ha
        · exact hattempts a ha
        · rw [List.mem_singleton.mp ha]
          exact hhigher

theorem guarded_step {e : TimedEvent} (hguarded : Guarded N T paxosID s) (h : timedStep N T paxosID s e = some s') :
    Guarded N T paxosID s' ↔ TimerLast N T s e := by
  by_cases htimer : ∃ r, e = .timeoutOne r
  · obtain ⟨r, rfl⟩ := htimer
    obtain ⟨t, hr, h⟩ := Option.bind_eq_some_iff.mp h
    rw [timeoutOne_guarded hguarded hr h]
    simp [TimerLast, hr]
  · obtain ⟨harmed, hattempts⟩ := guarded_iff.mp hguarded
    obtain ⟨hmove, hlog⟩ := step_move (fun r heq => htimer ⟨r, heq⟩) h
    have hgood : Guarded N T paxosID s' := by
      refine guarded_iff.mpr ⟨hmove.armed harmed, ?_⟩
      intro a ha
      obtain hlog | hlog := hlog
      · rw [hlog] at ha
        exact hattempts a ha
      · rw [hlog, List.mem_append, List.mem_singleton] at ha
        obtain ha | rfl := ha
        · exact hattempts a ha
        · rfl
    have hlast : TimerLast N T s e := by
      cases e with
      | timeoutOne r => exact (htimer ⟨r, rfl⟩).elim
      | _ => trivial
    exact iff_of_true hgood hlast

end Guarded

/-- A waiting call has its timer in every state of a run exactly if each timer fires at the last receive of
its attempt, or after the step has ended; and then each attempt comes to its promises or to a higher ballot,
if ballots do not wrap around. -/
theorem proposer_has_timer_iff (N T paxosID : Nat) (es : List TimedEvent) (s : Timed)
    (hrun : run (timedStep N T paxosID) (.init paxosID) es = some s) :
    Meets (timedStep N T paxosID) (TimerLast N T) (.init paxosID) es ↔
      ∀ pre suf t, es = pre ++ suf → run (timedStep N T paxosID) (.init paxosID) pre = some t →
        Guarded N T paxosID t := by
  have hinit : Guarded N T paxosID (.init paxosID) :=
    guarded_iff.mpr ⟨fun t ht => absurd ht List.not_mem_nil, fun a ha => absurd ha List.not_mem_nil⟩
  have hiff := meets_iff_safe (C := TimerLast N T) (fun _ => True) (fun t => ¬ Guarded N T paxosID t)
    (fun _ _ _ _ _ => trivial)
    (fun s e s' _ hgood hstep => not_congr (guarded_step (not_not.mp hgood) hstep)) es trivial (not_not.mpr hinit) hrun
  rw [hiff]
  simp only [not_not]

/-- Three peers and threshold 2: the timer fires at the second receive, and the next attempt has its promises. -/
def lateTimer : List TimedEvent :=
  [.propose ⟨"id", "file", "hash"⟩, .prepare 0, .promise ⟨0, 0, 1, 0, none⟩, .readPromise 0, .timeoutOne 0, .prepare 0,
    .promise ⟨1, 0, 4, 0, none⟩, .promise ⟨2, 0, 4, 0, none⟩, .readPromise 0, .readPromise 0, .enterTwo 0]

theorem lateTimer_guarded : ∃ s, run (timedStep 3 2 1) (.init 1) lateTimer = some s ∧ Guarded 3 2 1 s ∧
    s.attempts = [.retried 1 4, .promised 2] := by
  refine ⟨_, rfl, ?_, rfl⟩
  exact (proposer_has_timer_iff 3 2 1 lateTimer _ rfl).mp (by decide) lateTimer [] _ (List.append_nil _).symm rfl

/-- The timer fires at the first receive, and the call waits at the second one: it cannot do anything but
read a promise, and there is none. -/
def earlyTimer : List TimedEvent := [.propose ⟨"id", "file", "hash"⟩, .prepare 0, .timeoutOne 0]

theorem earlyTimer_waits_alone : ∃ s, run (timedStep 3 2 1) (.init 1) earlyTimer = some s ∧ ¬ Guarded 3 2 1 s ∧
    (∃ t ∈ s.peer.routines[0]?, t.Waits 2 ∧ t.pc = .waitOne true ∧ s.channel t = []) ∧
    (timedStep 3 2 1 s (.readPromise 0)).isNone ∧ (timedStep 3 2 1 s (.timeoutOne 0)).isNone ∧
    (timedStep 3 2 1 s (.prepare 0)).isNone ∧ (timedStep 3 2 1 s (.enterTwo 0)).isNone := by
  refine ⟨_, rfl, ?_, ⟨_, rfl, ⟨true, rfl, by decide⟩, rfl, rfl⟩, rfl, rfl, rfl, rfl⟩
  intro hguarded
  have hpc := hguarded.armed _ List.mem_cons_self ⟨true, rfl, by decide⟩
  cases hpc

end MarketPeer.Paxos

import MarketPeer.Lib.Counting
import MarketPeer.Paxos.Model

/-!
# One learner at a time

`advanceClockAsStep` ends the learner of one step before it starts the learner of the next. It
sends on `learnerAdvance`, which has no buffer, with the mutex in its hands; `acceptCh` is
replaced after that. Here the three functions run on one peer, and every channel operation is
a step.
-/

namespace MarketPeer.Paxos

/-! ## The model -/

/-- Where a `learnerRoutine` is. Its `select` has read the field `acceptCh`, and waits on the channel with
this number. -/
inductive LearnerPC where
  | started
  | selecting (ch : Nat)
  | received (accept : Accept)
  | panicked
  | deciding (value : PaxosValue)
  | signalling (value : PaxosValue)
  | broadcasting (value : PaxosValue)
  | waiting
  | returned

/-- `signal` is what its `signalPropose` holds, a channel of capacity 1 that no other learner has. -/
structure LearnerRoutine where
  step : Nat
  pc : LearnerPC
  idAccepts : List Accept
  signal : List PaxosValue

/-- `advanceClockAsStep` is at its send, behind it, at the send on `stepFinish`, or nobody is in it. It holds
the mutex everywhere. -/
inductive Advance where
  | idle
  | sending (step : Nat) (value : PaxosValue)
  | renewing (step : Nat) (value : PaxosValue)
  | finishing (step : Nat) (value : PaxosValue)

/-- `acceptCh` is the number of the channel in the field, and `accepts` is what each channel holds. -/
structure Clock where
  step : Nat
  phase : Phase
  acceptCh : Nat
  accepts : Nat → List Accept
  learners : List LearnerRoutine
  stepFinish : Nat → Option (List PaxosValue)
  advancing : Advance

def learnerRoutine (step : Nat) : LearnerRoutine := ⟨step, .started, [], []⟩

/-- What `NewConsensus` leaves. -/
def Clock.init : Clock where
  step := 0
  phase := .notPropose
  acceptCh := 0
  accepts := fun _ => []
  learners := [learnerRoutine 0]
  stepFinish := Function.update (fun _ => none) 0 (some [])
  advancing := .idle

def nextStep (step : Nat) : Nat := (step + 1) % 2 ^ 64

def prevStep (step : Nat) : Nat := (step + (2 ^ 64 - 1)) % 2 ^ 64

/-- The learner goes on to its next channel operation or to its next read of a shared field. -/
def LearnerRoutine.next (T : Nat) (s : Clock) (l : LearnerRoutine) : Option LearnerRoutine :=
  match l.pc with
  | .started => some { l with pc := .selecting s.acceptCh }
  | .received accept =>
    -- the sanity check
    if accept.step ≠ l.step then some { l with pc := .panicked }
    else
      let idAccepts := l.idAccepts ++ [accept]
      if T ≤ (idAccepts.filter (·.value.uniqID = accept.value.uniqID)).length then
        some { l with idAccepts, pc := .deciding accept.value }
      else some { l with idAccepts, pc := .selecting s.acceptCh }
  | .deciding value =>
    if s.phase = .phaseTwo then some { l with pc := .signalling value }
    else some { l with pc := .broadcasting value }
  | .signalling value =>
    if l.signal.length < 1 then some { l with signal := l.signal ++ [value], pc := .broadcasting value } else none
  -- `Broadcast` processes the message in a goroutine of its own
  | .broadcasting _ => some { l with pc := .waiting }
  | .selecting _ | .panicked | .waiting | .returned => none

namespace Clock

def setLearner (s : Clock) (i : Nat) (l : LearnerRoutine) : Clock := { s with learners := s.learners.set i l }

def learner (T : Nat) (s : Clock) (i : Nat) : Option Clock :=
  (s.learners[i]?).bind fun l => (l.next T s).map (s.setLearner i)

/-- `accept := <-mp.acceptCh`. -/
def receive (s : Clock) (i : Nat) : Option Clock :=
  (s.learners[i]?).bind fun l =>
    match l.pc with
    | .selecting ch =>
      match s.accepts ch with
      | accept :: rest =>
        some { s.setLearner i { l with pc := .received accept } with accepts := Function.update s.accepts ch rest }
      | [] => none
    | _ => none

def waitsOn (ch : Nat) (l : LearnerRoutine) : Bool :=
  match l.pc with
  | .selecting c => c = ch
  | _ => false

/-- A channel without a buffer takes an accept only when a learner waits on it. -/
def handOff (s : Clock) (accept : Accept) : Clock :=
  match s.learners.findIdx? (waitsOn s.acceptCh) with
  | some i =>
    match s.learners[i]? with
    | some l => s.setLearner i { l with pc := .received accept }
    | none => s
  | none => s

/-- An accept that finds no room is skipped. -/
def paxosAcceptCallback (cap : Nat) (s : Clock) (accept : Accept) : Clock :=
  if accept.step ≠ s.step then s
  else if (s.accepts s.acceptCh).length < cap then
    { s with accepts := Function.update s.accepts s.acceptCh (s.accepts s.acceptCh ++ [accept]) }
  else if cap = 0 then s.handOff accept
  else s

/-- `advanceClockAsStep` up to its send. -/
def advance (s : Clock) (step : Nat) (value : PaxosValue) : Clock :=
  if step ≠ s.step then s else { s with step := nextStep s.step, advancing := .sending step value }

/-- The send meets the receive of a learner, which returns. -/
def handshake (s : Clock) (i : Nat) : Option Clock :=
  match s.advancing, s.learners[i]? with
  | .sending step value, some l =>
    match l.pc with
    | .selecting _ | .waiting =>
      some { s.setLearner i { l with pc := .returned } with advancing := .renewing step value }
    | _ => none
  | _, _ => none

/-- New channels and a new learner. -/
def renew (s : Clock) : Option Clock :=
  match s.advancing with
  | .renewing step value =>
    some { s with
      acceptCh := s.acceptCh + 1
      accepts := Function.update s.accepts (s.acceptCh + 1) []
      learners := s.learners ++ [learnerRoutine s.step]
      stepFinish := Function.update s.stepFinish s.step (some [])
      phase := .notPropose
      advancing := .finishing step value }
  | _ => none

/-- `mp.stepFinish[mp.step-1] <- paxosValue`, and the mutex is free. -/
def finish (s : Clock) : Option Clock :=
  match s.advancing, s.stepFinish (prevStep s.step) with
  | .finishing _ value, some held =>
    if held.length < 1 then
      some { s with
        stepFinish := Function.update s.stepFinish (prevStep s.step) (some (held ++ [value]))
        advancing := .idle }
    else none
  | _, _ => none

/-- A critical section, when the mutex is free. -/
def lock (s : Clock) (f : Clock → Clock) : Option Clock :=
  match s.advancing with
  | .idle => some (f s)
  | _ => none

def takeSignal (s : Clock) (i : Nat) : Option Clock :=
  (s.learners[i]?).map fun l => s.setLearner i { l with signal := l.signal.tail }

def takeFinish (s : Clock) (step : Nat) : Clock :=
  { s with stepFinish := Function.update s.stepFinish step ((s.stepFinish step).map List.tail) }

end Clock

/-- `phase`, `takeSignal` and `takeFinish` are what the rest of the peer does to the fields and channels. -/
inductive ClockEvent where
  | accept (accept : Accept)
  | phase (phase : Phase)
  | advance (step : Nat) (value : PaxosValue)
  | handshake (i : Nat)
  | renew
  | finish
  | learner (i : Nat)
  | receive (i : Nat)
  | takeSignal (i : Nat)
  | takeFinish (step : Nat)

/-- `cap` is the capacity of `acceptCh` and `T` the threshold. -/
def clockStep (cap T : Nat) (s : Clock) : ClockEvent → Option Clock
  | .accept a => s.lock (·.paxosAcceptCallback cap a)
  | .phase p => s.lock fun s => { s with phase := p }
  | .advance step value => s.lock (·.advance step value)
  | .handshake i => s.handshake i
  | .renew => s.renew
  | .finish => s.finish
  | .learner i => s.learner T i
  | .receive i => s.receive i
  | .takeSignal i => s.takeSignal i
  | .takeFinish step => some (s.takeFinish step)

theorem prevStep_nextStep {step : Nat} (h : step < 2 ^ 64) : prevStep (nextStep step) = step := by
  unfold prevStep nextStep
  omega

theorem prevStep_ne (step : Nat) : prevStep step ≠ step := by
  unfold prevStep
  omega

/-! ## The one learner -/

/-- What holds of a learner that reads from channel `ch`. -/
def LearnerRoutine.Ok (ch : Nat) (l : LearnerRoutine) : Prop :=
  match l.pc with
  | .selecting c => c = ch ∧ l.signal = []
  | .received accept => accept.step = l.step ∧ l.signal = []
  | .started | .deciding _ | .signalling _ => l.signal = []
  | .broadcasting _ | .waiting => True
  | .panicked | .returned => False

namespace Clock

/-- All learners but the last one have returned, and this is the learner of `step`. -/
structure Learns (s : Clock) (step : Nat) (before : List LearnerRoutine) (l : LearnerRoutine) : Prop where
  learners : s.learners = before ++ [l]
  returned : ∀ x ∈ before, x.pc = .returned
  own : l.step = step
  ownAccepts : ∀ a ∈ s.accepts s.acceptCh, a.step = step
  ok : l.Ok s.acceptCh

def Live (s : Clock) (step : Nat) : Prop := ∃ before l, s.Learns step before l

def AllReturned (s : Clock) : Prop := ∀ l ∈ s.learners, l.pc = .returned

/-- While the clock advances, the learner is still the one of the old step. -/
def Inv (s : Clock) : Prop :=
  s.step < 2 ^ 64 ∧
    match s.advancing with
    | .idle => s.Live s.step ∧ s.stepFinish s.step = some []
    | .sending step _ => s.Live step ∧ prevStep s.step = step ∧ s.stepFinish step = some []
    | .renewing step _ => s.AllReturned ∧ prevStep s.step = step ∧ s.stepFinish step = some []
    | .finishing step _ =>
      s.Live s.step ∧ prevStep s.step = step ∧ s.stepFinish step = some [] ∧ s.stepFinish s.step = some []

end Clock

/-- What `next` can do. -/
inductive LearnerMove (s : Clock) (l : LearnerRoutine) : LearnerRoutine → Prop
  | select (hpc : l.pc = .started) : LearnerMove s l { l with pc := .selecting s.acceptCh }
  | panic (a : Accept) (hpc : l.pc = .received a) (hother : a.step ≠ l.step) : LearnerMove s l { l with pc := .panicked }
  | collect (a : Accept) (hpc : l.pc = .received a) :
    LearnerMove s l { l with idAccepts := l.idAccepts ++ [a], pc := .selecting s.acceptCh }
  | reach (a : Accept) (hpc : l.pc = .received a) :
    LearnerMove s l { l with idAccepts := l.idAccepts ++ [a], pc := .deciding a.value }
  | notify (v : PaxosValue) (hpc : l.pc = .deciding v) : LearnerMove s l { l with pc := .signalling v }
  | skip (v : PaxosValue) (hpc : l.pc = .deciding v) : LearnerMove s l { l with pc := .broadcasting v }
  | signal (v : PaxosValue) (hpc : l.pc = .signalling v) :
    LearnerMove s l { l with signal := l.signal ++ [v], pc := .broadcasting v }
  | broadcast (v : PaxosValue) (hpc : l.pc = .broadcasting v) : LearnerMove s l { l with pc := .waiting }

section Learner

variable {T step i : Nat} {s s' : Clock} {before : List LearnerRoutine} {l l' x x' : LearnerRoutine}

theorem next_move (h : l.next T s = some l') : LearnerMove s l l' := by
  unfold LearnerRoutine.next at h
  split at h
  · rename_i hpc
    cases h
    exact .select hpc
  · rename_i a hpc
    dsimp only at h
    split_ifs at h with hother
    · cases h
      exact .panic a hpc hother
    · cases h
      exact .reach a hpc
    · cases h
      exact .collect a hpc
  · rename_i v hpc
    split_ifs at h
    · cases h
      exact .notify v hpc
    · cases h
      exact .skip v hpc
  · rename_i v hpc
    split_ifs at h
    cases h
    exact .signal v hpc
  · rename_i v hpc
    cases h
    exact .broadcast v hpc
  all_goals cases h

theorem LearnerRoutine.Ok.not_returned {ch : Nat} (h : l.Ok ch) : l.pc ≠ .returned := by
  intro hpc
  rw [LearnerRoutine.Ok, hpc] at h
  exact h

theorem LearnerRoutine.Ok.signal {ch : Nat} (h : l.Ok ch) {tail : List PaxosValue} (htail : l.signal = [] → tail = []) :
    ({ l with signal := tail } : LearnerRoutine).Ok ch := by
  unfold LearnerRoutine.Ok at h ⊢
  split at h
  all_goals simp_all

/-- Only the last learner can have a step. -/
theorem Clock.Learns.index (h : s.Learns step before l) (hi : s.learners[i]? = some x) (hx : x.pc ≠ .returned) :
    i = before.length ∧ x = l := by
  rw [h.learners, List.getElem?_append] at hi
  split_ifs at hi with hlt
  · exact (hx (h.returned x (List.mem_of_getElem? hi))).elim
  · rw [List.getElem?_singleton] at hi
    split_ifs at hi with hzero
    exact ⟨by omega, (Option.some.inj hi).symm⟩

theorem Clock.Learns.learners_set (h : s.Learns step before l) (x : LearnerRoutine) :
    (s.setLearner before.length x).learners = before ++ [x] := by
  rw [Clock.setLearner, h.learners, List.set_append_right _ _ (Nat.le_refl _), Nat.sub_self]
  rfl

/-- One learner moves. -/
theorem Clock.Live.set (h : s.Live step) (hi : s.learners[i]? = some x)
    (hreturned : x.pc = .returned → x'.pc = .returned)
    (hok : x.step = step → x.Ok s.acceptCh → x'.step = step ∧ x'.Ok s.acceptCh) : (s.setLearner i x').Live step := by
  obtain ⟨before, l, h⟩ := h
  by_cases hx : x.pc = .returned
  · refine ⟨before.set i x', l, ?_, ?_, h.own, h.ownAccepts, h.ok⟩
    · have hlt : i < before.length := by
        obtain ⟨hlen, hget⟩ := List.getElem?_eq_some_iff.mp hi
        by_contra hge
        simp only [h.learners, List.length_append, List.length_singleton] at hlen
        have hlast : i = before.length := by omega
        subst hlast
        simp only [h.learners, List.getElem_concat_length] at hget
        subst hget
        exact h.ok.not_returned hx
      rw [Clock.setLearner, h.learners, List.set_append_left _ _ hlt]
    · intro y hy
      obtain hy | rfl := List.mem_or_eq_of_mem_set hy
      · exact h.returned y hy
      · exact hreturned hx
  · obtain ⟨rfl, rfl⟩ := h.index hi hx
    obtain ⟨hstep, hok⟩ := hok h.own h.ok
    exact ⟨before, x', h.learners_set x', h.returned, hstep, h.ownAccepts, hok⟩

theorem Clock.Live.accepts (h : s.Live step) {accepts : Nat → List Accept}
    (haccepts : ∀ a ∈ accepts s.acceptCh, a.step = step) : ({ s with accepts } : Clock).Live step := by
  obtain ⟨before, l, h⟩ := h
  exact ⟨before, l, h.learners, h.returned, h.own, haccepts, h.ok⟩

theorem Clock.AllReturned.set (h : s.AllReturned) (hi : s.learners[i]? = some x)
    (hreturned : x.pc = .returned → x'.pc = .returned) : (s.setLearner i x').AllReturned := by
  intro y hy
  obtain hy | rfl := List.mem_or_eq_of_mem_set hy
  · exact h y hy
  · exact hreturned (h x (List.mem_of_getElem? hi))

/-- The sanity check finds nothing. -/
theorem next_ok (hok : l.Ok s.acceptCh) (h : l.next T s = some l') : l'.step = l.step ∧ l'.Ok s.acceptCh := by
  unfold LearnerRoutine.Ok at hok
  cases next_move h with
  | select hpc =>
    simp only [hpc] at hok
    exact ⟨rfl, rfl, hok⟩
  | panic a hpc hother =>
    simp only [hpc] at hok
    exact (hother hok.1).elim
  | collect a hpc =>
    simp only [hpc] at hok
    exact ⟨rfl, rfl, hok.2⟩
  | reach a hpc =>
    simp only [hpc] at hok
    exact ⟨rfl, hok.2⟩
  | notify v hpc =>
    simp only [hpc] at hok
    exact ⟨rfl, hok⟩
  | skip v hpc => exact ⟨rfl, trivial⟩
  | signal v hpc => exact ⟨rfl, trivial⟩
  | broadcast v hpc => exact ⟨rfl, trivial⟩

end Learner

/-! ## Every step -/

section Step

variable {cap T : Nat} {s s' : Clock}

theorem Clock.inv_init : Clock.init.Inv := by
  refine ⟨by decide, ⟨[], learnerRoutine 0, rfl, nofun, rfl, nofun, rfl⟩, ?_⟩
  simp [Clock.init]

theorem Clock.inv_of_idle (hidle : s.advancing = .idle) :
    s.Inv ↔ s.step < 2 ^ 64 ∧ s.Live s.step ∧ s.stepFinish s.step = some [] := by
  unfold Clock.Inv
  rw [hidle]

/-- What a step of a learner or of the rest of the peer has to keep. -/
theorem Clock.Inv.keep (h : s.Inv) (hstep : s'.step = s.step) (hadvancing : s'.advancing = s.advancing)
    (hfinish : ∀ k, s.stepFinish k = some [] → s'.stepFinish k = some [])
    (hlive : ∀ step, s.Live step → s'.Live step) (hreturned : s.AllReturned → s'.AllReturned) : s'.Inv := by
  obtain ⟨hsmall, h⟩ := h
  unfold Clock.Inv
  rw [hstep, hadvancing]
  refine ⟨hsmall, ?_⟩
  cases hadv : s.advancing with
  | idle =>
    rw [hadv] at h
    exact ⟨hlive _ h.1, hfinish _ h.2⟩
  | sending step value =>
    rw [hadv] at h
    exact ⟨hlive _ h.1, h.2.1, hfinish _ h.2.2⟩
  | renewing step value =>
    rw [hadv] at h
    exact ⟨hreturned h.1, h.2.1, hfinish _ h.2.2⟩
  | finishing step value =>
    rw [hadv] at h
    exact ⟨hlive _ h.1, h.2.1, hfinish _ h.2.2.1, hfinish _ h.2.2.2⟩

theorem Clock.Live.congr {step : Nat} (h : s.Live step) (hlearners : s'.learners = s.learners)
    (hch : s'.acceptCh = s.acceptCh) (haccepts : s'.accepts = s.accepts) : s'.Live step := by
  obtain ⟨before, l, h⟩ := h
  exact ⟨before, l, by rw [hlearners, h.learners], h.returned, h.own, by rw [hch, haccepts]; exact h.ownAccepts,
    by rw [hch]; exact h.ok⟩

theorem lock_eq_some {f : Clock → Clock} (h : s.lock f = some s') : s.advancing = .idle ∧ s' = f s := by
  unfold Clock.lock at h
  split at h
  · rename_i hidle
    exact ⟨hidle, (Option.some.inj h).symm⟩
  · cases h

theorem handOff_live {a : Accept} (h : s.Live s.step) (ha : a.step = s.step) : (s.handOff a).Live s.step := by
  unfold Clock.handOff
  split
  · rename_i i hfind
    split
    · rename_i l hl
      have hwaits := (List.findIdx?_eq_some_iff_getElem.mp hfind).2.1
      obtain ⟨hlen, rfl⟩ := List.getElem?_eq_some_iff.mp hl
      refine h.set hl ?_ ?_
      · intro hpc
        simp [Clock.waitsOn, hpc] at hwaits
      · intro hown hok
        refine ⟨hown, ha.trans hown.symm, ?_⟩
        unfold Clock.waitsOn at hwaits
        unfold LearnerRoutine.Ok at hok
        split at hwaits
        · rename_i c hpc
          rw [hpc] at hok
          exact hok.2
        · cases hwaits
    · exact h
  · exact h

theorem handOff_frame (s : Clock) (a : Accept) : (s.handOff a).step = s.step ∧
    (s.handOff a).advancing = s.advancing ∧ (s.handOff a).stepFinish = s.stepFinish := by
  unfold Clock.handOff
  split
  · split <;> exact ⟨rfl, rfl, rfl⟩
  · exact ⟨rfl, rfl, rfl⟩

/-- The callback puts only accepts of the current step into the channel of the current learner. -/
theorem acceptCallback_inv {a : Accept} (h : s.Inv) (hidle : s.advancing = .idle) :
    (s.paxosAcceptCallback cap a).Inv := by
  obtain ⟨hsmall, hlive, hfinish⟩ := (Clock.inv_of_idle hidle).mp h
  unfold Clock.paxosAcceptCallback
  split_ifs with hstep hroom hcap
  · exact h
  · have hown : ∀ b ∈ s.accepts s.acceptCh ++ [a], b.step = s.step := by
      intro b hb
      obtain hb | hb := List.mem_append.mp hb
      · obtain ⟨before, l, hlearns⟩ := hlive
        exact hlearns.ownAccepts b hb
      · rw [List.mem_singleton.mp hb]
        exact not_not.mp hstep
    rw [Clock.inv_of_idle]
    · exact ⟨hsmall, hlive.accepts (by rwa [Function.update_self]), hfinish⟩
    · exact hidle
  · obtain ⟨hs, hadv, hfin⟩ := handOff_frame s a
    rw [Clock.inv_of_idle (hadv.trans hidle), hs, hfin]
    exact ⟨hsmall, handOff_live hlive (not_not.mp hstep), hfinish⟩
  · exact h

theorem advance_inv {step : Nat} {value : PaxosValue} (h : s.Inv) (hidle : s.advancing = .idle) :
    (s.advance step value).Inv := by
  unfold Clock.advance
  split_ifs with hstep
  · exact h
  · obtain ⟨hsmall, hlive, hfinish⟩ := (Clock.inv_of_idle hidle).mp h
    obtain rfl := not_not.mp hstep
    exact ⟨Nat.mod_lt _ (by decide), hlive.congr rfl rfl rfl, prevStep_nextStep hsmall, hfinish⟩

theorem handshake_inv {i : Nat} (h : s.Inv) (hstep : s.handshake i = some s') : s'.Inv := by
  unfold Clock.handshake at hstep
  split at hstep
  · rename_i step value l hadv hl
    obtain ⟨hsmall, hinv⟩ := h
    rw [hadv] at hinv
    obtain ⟨⟨before, l', hlearns⟩, hprev, hfinish⟩ := hinv
    have hnot : l.pc ≠ .returned := by
      intro hpc
      simp [hpc] at hstep
    obtain ⟨rfl, rfl⟩ := hlearns.index hl hnot
    have hall : (s.setLearner before.length { l with pc := .returned }).AllReturned := by
      intro x hx
      rw [hlearns.learners_set] at hx
      obtain hx | hx := List.mem_append.mp hx
      · exact hlearns.returned x hx
      · rw [List.mem_singleton.mp hx]
    split at hstep
    · cases hstep
      exact ⟨hsmall, hall, hprev, hfinish⟩
    · cases hstep
      exact ⟨hsmall, hall, hprev, hfinish⟩
    · cases hstep
  · cases hstep

theorem renew_inv (h : s.Inv) (hstep : s.renew = some s') : s'.Inv := by
  unfold Clock.renew at hstep
  split at hstep
  · rename_i step value hadv
    obtain ⟨hsmall, hinv⟩ := h
    rw [hadv] at hinv
    obtain ⟨hall, hprev, hfinish⟩ := hinv
    cases hstep
    refine ⟨hsmall, ⟨s.learners, learnerRoutine s.step, rfl, hall, rfl, ?_, rfl⟩, hprev, ?_, Function.update_self ..⟩
    · intro a ha
      simp at ha
    · have hne : step ≠ s.step := by
        rw [← hprev]
        exact prevStep_ne s.step
      simp only [Function.update_of_ne hne, hfinish]
  · cases hstep

theorem finish_inv (h : s.Inv) (hstep : s.finish = some s') : s'.Inv := by
  unfold Clock.finish at hstep
  split at hstep
  · rename_i step value held hadv hheld
    obtain ⟨hsmall, hinv⟩ := h
    rw [hadv] at hinv
    split_ifs at hstep
    cases hstep
    refine ⟨hsmall, hinv.1.congr rfl rfl rfl, ?_⟩
    simp only [Function.update_of_ne (prevStep_ne s.step).symm, hinv.2.2.2]
  · cases hstep

theorem learner_inv {i : Nat} (h : s.Inv) (hstep : s.learner T i = some s') : s'.Inv := by
  obtain ⟨l, hl, hstep⟩ := Option.bind_eq_some_iff.mp hstep
  obtain ⟨l', hnext, rfl⟩ := Option.map_eq_some_iff.mp hstep
  have hreturned : l.pc = .returned → l'.pc = .returned := by
    intro hpc
    simp [LearnerRoutine.next, hpc] at hnext
  refine h.keep rfl rfl (fun _ hk => hk) (fun step hlive => ?_) fun hall => hall.set hl hreturned
  refine hlive.set hl hreturned fun hown hok => ?_
  obtain ⟨hsame, hok'⟩ := next_ok hok hnext
  exact ⟨hsame.trans hown, hok'⟩

theorem receive_inv {i : Nat} (h : s.Inv) (hstep : s.receive i = some s') : s'.Inv := by
  obtain ⟨l, hl, hstep⟩ := Option.bind_eq_some_iff.mp hstep
  split at hstep
  · rename_i ch hpc
    split at hstep
    · rename_i a rest haccepts
      cases hstep
      have hreturned : l.pc = .returned → LearnerPC.received a = .returned := by
        rw [hpc]
        exact nofun
      refine h.keep rfl rfl (fun _ hk => hk) (fun step hlive => ?_) fun hall => hall.set hl hreturned
      obtain ⟨before, l', hlearns⟩ := hlive
      obtain ⟨-, rfl⟩ := hlearns.index hl (by rw [hpc]; exact nofun)
      have hok := hlearns.ok
      rw [LearnerRoutine.Ok, hpc] at hok
      obtain ⟨rfl, hsignal⟩ := hok
      have hown := hlearns.ownAccepts
      rw [haccepts, List.forall_mem_cons] at hown
      have hset : (s.setLearner i { l with pc := .received a }).Live step :=
        Clock.Live.set ⟨before, l, hlearns⟩ hl hreturned fun hstep _ => ⟨hstep, hown.1.trans hstep.symm, hsignal⟩
      refine hset.accepts ?_
      intro b hb
      rw [Clock.setLearner, Function.update_self] at hb
      exact hown.2 b hb
    · cases hstep
  · cases hstep

theorem takeSignal_inv {i : Nat} (h : s.Inv) (hstep : s.takeSignal i = some s') : s'.Inv := by
  obtain ⟨l, hl, rfl⟩ := Option.map_eq_some_iff.mp hstep
  refine h.keep rfl rfl (fun _ hk => hk) (fun step hlive => ?_) fun hall => hall.set hl id
  exact hlive.set hl id fun hown hok => ⟨hown, hok.signal fun hnil => by rw [hnil]; rfl⟩

theorem takeFinish_inv {k : Nat} (h : s.Inv) : (s.takeFinish k).Inv := by
  refine h.keep rfl rfl (fun k' hk => ?_) (fun step hlive => hlive.congr rfl rfl rfl) id
  simp only [Clock.takeFinish, Function.update_apply]
  split
  · rename_i heq
    rw [← heq, hk]
    rfl
  · exact hk

theorem clockStep_inv {e : ClockEvent} (h : s.Inv) (hstep : clockStep cap T s e = some s') : s'.Inv := by
  cases e with
  | accept a =>
    obtain ⟨hidle, rfl⟩ := lock_eq_some (f := fun s => s.paxosAcceptCallback cap a) hstep
    exact acceptCallback_inv h hidle
  | phase p =>
    obtain ⟨hidle, rfl⟩ := lock_eq_some (f := fun s => { s with phase := p }) hstep
    exact h.keep rfl rfl (fun _ hk => hk) (fun step hlive => hlive.congr rfl rfl rfl) id
  | advance step value =>
    obtain ⟨hidle, rfl⟩ := lock_eq_some (f := fun s => s.advance step value) hstep
    exact advance_inv h hidle
  | handshake i => exact handshake_inv h hstep
  | renew => exact renew_inv h hstep
  | finish => exact finish_inv h hstep
  | learner i => exact learner_inv h hstep
  | receive i => exact receive_inv h hstep
  | takeSignal i => exact takeSignal_inv h hstep
  | takeFinish k =>
    cases hstep
    exact takeFinish_inv h

end Step

/-! ## The handshake -/

/-- How far a learner is from the handshake, when its channel holds so many accepts. -/
def LearnerRoutine.work (held : Nat) (l : LearnerRoutine) : Nat :=
  match l.pc with
  | .started | .received _ => 2 * held + 5
  | .selecting _ => 2 * held + 4
  | .deciding _ => 3
  | .signalling _ => 2
  | .broadcasting _ => 1
  | .waiting | .panicked | .returned => 0

def Clock.rank (s : Clock) : Nat := (s.learners.map (·.work (s.accepts s.acceptCh).length)).sum

def ClockEvent.isLearner : ClockEvent → Bool
  | .learner _ | .receive _ => true
  | _ => false

def ClockEvent.isHandshake : ClockEvent → Bool
  | .handshake _ => true
  | _ => false

section Handshake

variable {cap T i step : Nat} {value : PaxosValue} {s s' : Clock} {e : ClockEvent} {l l' : LearnerRoutine}
  {before : List LearnerRoutine}

theorem rank_concat (hlearners : s.learners = before ++ [l]) (hreturned : ∀ x ∈ before, x.pc = .returned) :
    s.rank = l.work (s.accepts s.acceptCh).length := by
  have hzero : (before.map (·.work (s.accepts s.acceptCh).length)).sum = 0 := by
    apply List.sum_eq_zero
    intro n hn
    obtain ⟨x, hx, rfl⟩ := List.mem_map.mp hn
    simp only [LearnerRoutine.work, hreturned x hx]
  rw [Clock.rank, hlearners, List.map_append, List.sum_append, hzero, List.map_singleton, List.sum_singleton,
    Nat.zero_add]

/-- Every position is nearer to the handshake than the one before. -/
theorem next_work (h : l.next T s = some l') (held : Nat) : l'.work held + 1 ≤ l.work held := by
  unfold LearnerRoutine.work
  cases next_move h <;> simp [*]

theorem rank_set (hl : s.learners[i]? = some l) (l' : LearnerRoutine) :
    (s.setLearner i l').rank + l.work (s.accepts s.acceptCh).length =
      s.rank + l'.work (s.accepts s.acceptCh).length :=
  sum_map_set _ s.learners i l l' hl

theorem Clock.Inv.live_of_sending (h : s.Inv) (hadv : s.advancing = .sending step value) : s.Live step := by
  obtain ⟨-, h⟩ := h
  rw [hadv] at h
  exact h.1

theorem receive_rank (h : s.Live step) (hstep : s.receive i = some s') :
    s'.advancing = s.advancing ∧ s'.rank + 1 ≤ s.rank := by
  obtain ⟨before, l, h⟩ := h
  obtain ⟨x, hx, hstep⟩ := Option.bind_eq_some_iff.mp hstep
  split at hstep
  · rename_i ch hpc
    split at hstep
    · rename_i a rest haccepts
      obtain ⟨rfl, rfl⟩ := h.index hx (by rw [hpc]; exact nofun)
      have hch : ch = s.acceptCh := by
        have hok := h.ok
        rw [LearnerRoutine.Ok, hpc] at hok
        exact hok.1
      subst hch
      have hlast := h.learners_set { x with pc := .received a }
      have hleft : s'.learners = before ++ [{ x with pc := .received a }] ∧ s'.accepts s'.acceptCh = rest ∧
          s'.advancing = s.advancing := by
        cases hstep
        exact ⟨hlast, Function.update_self .., rfl⟩
      refine ⟨hleft.2.2, ?_⟩
      rw [rank_concat h.learners h.returned, rank_concat hleft.1 h.returned, hleft.2.1]
      simp only [LearnerRoutine.work, hpc, haccepts, List.length_cons]
      omega
    · cases hstep
  · cases hstep

/-- While the clock waits at its send, only its learner gets on, and it gets nearer to the handshake. -/
theorem sending_step (h : s.Inv) (hadv : s.advancing = .sending step value)
    (hstep : clockStep cap T s e = some s') (hnot : ¬ e.isHandshake) :
    s'.advancing = .sending step value ∧ s'.rank + e.isLearner.toNat ≤ s.rank := by
  have hlock {f : Clock → Clock} : s.lock f ≠ some s' := by
    intro hlocked
    obtain ⟨hidle, -⟩ := lock_eq_some hlocked
    rw [hadv] at hidle
    cases hidle
  cases e with
  | accept a => exact (hlock (f := fun s => s.paxosAcceptCallback cap a) hstep).elim
  | phase p => exact (hlock (f := fun s => { s with phase := p }) hstep).elim
  | advance step value => exact (hlock (f := fun s => s.advance step value) hstep).elim
  | handshake i => exact (hnot rfl).elim
  | renew => simp [clockStep, Clock.renew, hadv] at hstep
  | finish => simp [clockStep, Clock.finish, hadv] at hstep
  | learner i =>
    obtain ⟨l, hl, hstep⟩ := Option.bind_eq_some_iff.mp hstep
    obtain ⟨l', hnext, rfl⟩ := Option.map_eq_some_iff.mp hstep
    have hrank := rank_set hl l'
    have hwork := next_work hnext (s.accepts s.acceptCh).length
    refine ⟨hadv, ?_⟩
    simp only [ClockEvent.isLearner, Bool.toNat_true]
    omega
  | receive i =>
    obtain ⟨hadv', hrank⟩ := receive_rank (h.live_of_sending hadv) hstep
    exact ⟨hadv'.trans hadv, hrank⟩
  | takeSignal i =>
    obtain ⟨l, hl, rfl⟩ := Option.map_eq_some_iff.mp hstep
    have hrank := rank_set hl { l with signal := l.signal.tail }
    refine ⟨hadv, ?_⟩
    simp only [ClockEvent.isLearner, Bool.toNat_false]
    exact Nat.le_of_eq (Nat.add_right_cancel hrank)
  | takeFinish k =>
    cases hstep
    exact ⟨hadv, Nat.le_refl _⟩

/-- It has room for its signal, so only the receive of the handshake can hold it up. -/
theorem sending_enabled (h : s.Live step) (hadv : s.advancing = .sending step value) :
    ∃ i, (s.handshake i).isSome ∨ (s.learner T i).isSome := by
  obtain ⟨before, l, h⟩ := h
  have hl : s.learners[before.length]? = some l := by rw [h.learners, List.getElem?_concat_length]
  have hok := h.ok
  rw [LearnerRoutine.Ok] at hok
  refine ⟨before.length, ?_⟩
  cases hpc : l.pc with
  | selecting ch =>
    left
    simp [Clock.handshake, hadv, hl, hpc]
  | waiting =>
    left
    simp [Clock.handshake, hadv, hl, hpc]
  | panicked => simp [hpc] at hok
  | returned => simp [hpc] at hok
  | started =>
    right
    simp [Clock.learner, hl, LearnerRoutine.next, hpc]
  | received a =>
    right
    simp only [hpc] at hok
    simp only [Clock.learner, hl, LearnerRoutine.next, hpc, hok.1, Option.bind_some, Option.isSome_map]
    split_ifs <;> rfl
  | deciding v =>
    right
    simp only [Clock.learner, hl, LearnerRoutine.next, hpc, Option.bind_some, Option.isSome_map]
    split_ifs <;> rfl
  | signalling v =>
    right
    simp only [hpc] at hok
    simp [Clock.learner, hl, LearnerRoutine.next, hpc, hok]
  | broadcasting v =>
    right
    simp [Clock.learner, hl, LearnerRoutine.next, hpc]

theorem sending_run {es : List ClockEvent} (h : s.Inv) (hadv : s.advancing = .sending step value)
    (hrun : run (clockStep cap T) s es = some s') (hnot : ∀ e ∈ es, ¬ e.isHandshake) :
    s'.Inv ∧ s'.advancing = .sending step value ∧ s'.rank + es.countP ClockEvent.isLearner ≤ s.rank := by
  induction es generalizing s with
  | nil =>
    cases hrun
    exact ⟨h, hadv, Nat.le_refl _⟩
  | cons e es ih =>
    obtain ⟨s1, hstep, hrest⟩ := Option.bind_eq_some_iff.mp hrun
    rw [List.forall_mem_cons] at hnot
    obtain ⟨hadv1, hrank⟩ := sending_step h hadv hstep hnot.1
    obtain ⟨hinv, hadv', hrank'⟩ := ih (clockStep_inv h hstep) hadv1 hrest hnot.2
    refine ⟨hinv, hadv', ?_⟩
    rw [List.countP_cons]
    cases hlearner : e.isLearner
    · simp only [hlearner, Bool.toNat_false] at hrank
      simp only [Bool.false_eq_true, if_false]
      omega
    · simp only [hlearner, Bool.toNat_true] at hrank
      simp only [if_true]
      omega

/-- What `advanceClockAsStep` waits for comes. The learner has only `rank` steps before the handshake, and as long as
the handshake cannot happen it has one. -/
structure Clock.HandsOver (cap T : Nat) (s : Clock) : Prop where
  sending : ∀ step value, s.advancing = .sending step value → ∀ es s', run (clockStep cap T) s es = some s' →
    (∀ e ∈ es, ¬ e.isHandshake) →
      es.countP ClockEvent.isLearner ≤ s.rank ∧ ∃ i, (s'.handshake i).isSome ∨ (s'.learner T i).isSome
  renewing : ∀ step value, s.advancing = .renewing step value → s.renew.isSome
  finishing : ∀ step value, s.advancing = .finishing step value → s.finish.isSome

theorem Clock.Inv.handsOver (h : s.Inv) : s.HandsOver cap T where
  sending step value hadv es s' hrun hnot := by
    obtain ⟨hinv, hadv', hrank⟩ := sending_run h hadv hrun hnot
    exact ⟨by omega, sending_enabled (hinv.live_of_sending hadv') hadv'⟩
  renewing step value hadv := by simp [Clock.renew, hadv]
  finishing step value hadv := by
    obtain ⟨-, h⟩ := h
    rw [hadv] at h
    obtain ⟨-, hprev, hfinish, -⟩ := h
    simp [Clock.finish, hadv, hprev, hfinish]

/-- Someone who has not returned is the only learner there is. -/
theorem Clock.Inv.live_of_mem (h : s.Inv) (hl : l ∈ s.learners) (hpc : l.pc ≠ .returned) : ∃ step, s.Live step := by
  obtain ⟨-, h⟩ := h
  split at h
  · exact ⟨_, h.1⟩
  · exact ⟨_, h.1⟩
  · exact (hpc (h.1 l hl)).elim
  · exact ⟨_, h.1⟩

theorem Clock.Inv.learner_ok (h : s.Inv) (hl : l ∈ s.learners) (hpc : l.pc ≠ .returned) : l.Ok s.acceptCh := by
  obtain ⟨step, before, x, hlearns⟩ := h.live_of_mem hl hpc
  obtain ⟨i, hi⟩ := List.mem_iff_getElem?.mp hl
  obtain ⟨-, rfl⟩ := hlearns.index hi hpc
  exact hlearns.ok

end Handshake

/-- Every learner reads accepts of its own step, there is never a second one, and the handshake comes. -/
theorem learners_see_own_step (cap T : Nat) (es : List ClockEvent) (s : Clock)
    (hrun : run (clockStep cap T) .init es = some s) :
    (∀ l ∈ s.learners, l.pc ≠ .panicked ∧ ∀ a, l.pc = .received a → a.step = l.step) ∧
      (∀ (i j : Nat) (l l' : LearnerRoutine), s.learners[i]? = some l → s.learners[j]? = some l' →
        l.pc ≠ .returned → l'.pc ≠ .returned → i = j) ∧
      s.HandsOver cap T := by
  have hinv : s.Inv := run_preserves Clock.Inv (fun _ _ _ => clockStep_inv) es Clock.inv_init hrun
  refine ⟨fun l hl => ?_, fun i j l l' hi hj hl hl' => ?_, hinv.handsOver⟩
  · by_cases hreturned : l.pc = .returned
    · simp [hreturned]
    · have hok := hinv.learner_ok hl hreturned
      unfold LearnerRoutine.Ok at hok
      constructor
      · intro hpc
        simp [hpc] at hok
      · intro a hpc
        simp only [hpc] at hok
        exact hok.1
  · obtain ⟨step, before, x, h⟩ := hinv.live_of_mem (List.mem_of_getElem? hi) hl
    rw [(h.index hi hl).1, (h.index hj hl').1]

/-- Up to the second send, with the second learner at its sanity check. -/
def twoSends : List ClockEvent :=
  [.accept ⟨0, 0, 1, ⟨"a", "f", "m"⟩⟩, .learner 0, .receive 0, .advance 0 ⟨"a", "f", "m"⟩, .learner 0, .learner 0,
    .learner 0, .handshake 0, .renew, .finish, .accept ⟨1, 1, 2, ⟨"b", "g", "n"⟩⟩, .learner 1, .receive 1,
    .advance 1 ⟨"b", "g", "n"⟩]

theorem twoSends_hands_over :
    ∃ s, run (clockStep 3 1) .init twoSends = some s ∧
      s.learners.map (·.pc) = [.returned, .received ⟨1, 1, 2, ⟨"b", "g", "n"⟩⟩] ∧
      (∀ l ∈ s.learners, l.pc ≠ .panicked ∧ ∀ a, l.pc = .received a → a.step = l.step) ∧ s.HandsOver 3 1 := by
  have hrun : (run (clockStep 3 1) .init twoSends).map (·.learners.map (·.pc)) =
      some [.returned, .received ⟨1, 1, 2, ⟨"b", "g", "n"⟩⟩] := by rfl
  obtain ⟨s, hs, hpcs⟩ := Option.map_eq_some_iff.mp hrun
  have hseen := learners_see_own_step 3 1 twoSends s hs
  exact ⟨s, hs, hpcs, hseen.1, hseen.2.2⟩

end MarketPeer.Paxos

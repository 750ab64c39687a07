import Mathlib.Data.List.Basic
import MarketPeer.Lib.Counting
import MarketPeer.Chord.Model

/-!
# The mutex of the reply channels

One node, with `chMutex` and the channels that `FindSuccessorRemote` and `Get` wait on.
Both reply callbacks send to a channel of capacity ten while they hold the mutex. A
callback or a call that wants the mutex while it is held has not begun.
-/

namespace MarketPeer.Chord

variable {N : Nat} {V : Type}

/-! ## The model -/

/-- An entry of `findSuccessorCh` or of `acquireKVCh`. -/
inductive Chan where
  | findSuccessorCh (id : Nat)
  | acquireKVCh (key : Nat)
deriving DecidableEq

inductive Reply (N : Nat) (V : Type) where
  | findSuccessor (dest : Fin N)
  | giveKV (value : Option V)

/-- Who has `chMutex`: nobody, a callback that has returned with it, or one that is in its send. -/
inductive Holder (N : Nat) (V : Type) where
  | free
  | returned
  | sending (ch : Chan) (msg : Reply N V)

def Holder.isFree : Holder N V → Bool
  | .free => true
  | _ => false

/-- A call behind its critical section: before its request is sent, or at its select. -/
structure Awaiting where
  chan : Chan
  sent : Bool
deriving DecidableEq

structure ReplyNode (N : Nat) (V : Type) where
  channels : Chan → Option (List (Reply N V))
  holder : Holder N V
  calls : List Awaiting

def ReplyNode.init (N : Nat) (V : Type) : ReplyNode N V := ⟨fun _ => none, .free, []⟩

/-- The critical section that finds or makes the channel of a call. -/
def ReplyNode.makeChannel (s : ReplyNode N V) (ch : Chan) : Option (ReplyNode N V) :=
  if s.holder.isFree then
    some { s with
      channels := Function.update s.channels ch (some ((s.channels ch).getD []))
      calls := s.calls ++ [⟨ch, false⟩] }
  else none

def ReplyNode.findSuccessorRemote (s : ReplyNode N V) (id : Nat) : Option (ReplyNode N V) :=
  s.makeChannel (.findSuccessorCh id)

/-- `Get` behind its lookup, for a key of another node. -/
def ReplyNode.get (s : ReplyNode N V) (key : Nat) : Option (ReplyNode N V) := s.makeChannel (.acquireKVCh key)

/-- The request of a call goes out, or the call returns an error. -/
def ReplyNode.request (s : ReplyNode N V) (i : Nat) (sent : Bool) : Option (ReplyNode N V) :=
  (s.calls[i]?).bind fun c =>
    if c.sent then none
    else if sent then some { s with calls := s.calls.set i ⟨c.chan, true⟩ }
    else some { s with calls := s.calls.eraseIdx i }

/-- A receive makes room for a blocked send, whose callback then unlocks. -/
def ReplyNode.receive (s : ReplyNode N V) (i : Nat) : Option (ReplyNode N V) :=
  (s.calls[i]?).bind fun c =>
    match c.sent, s.channels c.chan with
    | true, some (_ :: rest) =>
      let s := { s with calls := s.calls.eraseIdx i }
      match s.holder with
      | .sending ch msg =>
        if ch = c.chan then
          some { s with channels := Function.update s.channels c.chan (some (rest ++ [msg])), holder := .free }
        else some { s with channels := Function.update s.channels c.chan (some rest) }
      | _ => some { s with channels := Function.update s.channels c.chan (some rest) }
    | _, _ => none

def ReplyNode.timeout (s : ReplyNode N V) (i : Nat) : Option (ReplyNode N V) :=
  (s.calls[i]?).bind fun c => if c.sent then some { s with calls := s.calls.eraseIdx i } else none

/-- Both reply callbacks. The error return does not unlock. -/
def ReplyNode.replyCallback (s : ReplyNode N V) (ch : Chan) (msg : Reply N V) : Option (ReplyNode N V) :=
  if s.holder.isFree then
    match s.channels ch with
    | some queue =>
      if queue.length < 10 then some { s with channels := Function.update s.channels ch (some (queue ++ [msg])) }
      else some { s with holder := .sending ch msg }
    | none => some { s with holder := .returned }
  else none

def ReplyNode.chordFindSuccessorReplyCallback (s : ReplyNode N V) (id : Nat) (dest : Fin N) :
    Option (ReplyNode N V) :=
  s.replyCallback (.findSuccessorCh id) (.findSuccessor dest)

def ReplyNode.chordGiveKVCallback (s : ReplyNode N V) (key : Nat) (value : Option V) : Option (ReplyNode N V) :=
  s.replyCallback (.acquireKVCh key) (.giveKV value)

inductive ReplyEvent (N : Nat) (V : Type) where
  | findSuccessorRemote (id : Nat)
  | get (key : Nat)
  | request (i : Nat) (sent : Bool)
  | receive (i : Nat)
  | timeout (i : Nat)
  | findSuccessorReply (id : Nat) (dest : Fin N)
  | giveKV (key : Nat) (value : Option V)

def replyStep (s : ReplyNode N V) : ReplyEvent N V → Option (ReplyNode N V)
  | .findSuccessorRemote id => s.findSuccessorRemote id
  | .get key => s.get key
  | .request i sent => s.request i sent
  | .receive i => s.receive i
  | .timeout i => s.timeout i
  | .findSuccessorReply id dest => s.chordFindSuccessorReplyCallback id dest
  | .giveKV key value => s.chordGiveKVCallback key value

/-- The lookup channels of a node of the other modules, where a callback that blocks is no step. -/
def Node.replyNode (node : Node N V) (calls : List Awaiting) : ReplyNode N V where
  channels
    | .findSuccessorCh id => (node.findSuccessorCh id).map (·.map .findSuccessor)
    | .acquireKVCh _ => none
  holder := if node.chMutexHeld then .returned else .free
  calls

theorem replyNode_callback {node node' : Node N V} {dest : Fin N} {id : Nat} (calls : List Awaiting)
    (h : chordFindSuccessorReplyCallback node dest id = some node') :
    (node.replyNode calls).chordFindSuccessorReplyCallback id dest = some (node'.replyNode calls) := by
  unfold chordFindSuccessorReplyCallback at h
  split_ifs at h with hheld
  unfold ReplyNode.chordFindSuccessorReplyCallback ReplyNode.replyCallback
  cases hch : node.findSuccessorCh id with
  | none =>
    simp only [hch, Option.some.injEq] at h
    subst h
    simp [Node.replyNode, hheld, hch, Holder.isFree]
  | some ch =>
    simp only [hch] at h
    split_ifs at h with hroom
    obtain rfl := Option.some.inj h
    simp only [Node.replyNode, hheld, hch, Holder.isFree, hroom, Option.map_some, List.length_map, if_true,
      Bool.false_eq_true, if_false, Option.some.injEq, ReplyNode.mk.injEq, and_true]
    funext c
    cases c with
    | acquireKVCh key => rfl
    | findSuccessorCh id' =>
      by_cases hid : id' = id
      · subst hid
        simp
      · simp [hid]

/-! ## What a run has to avoid -/

/-- The mutex can still become free. -/
def Releasable (s : ReplyNode N V) : Prop := ∃ es s', run replyStep s es = some s' ∧ s'.holder = .free

/-- Some call behind its critical section will receive from the channel, or time out. -/
def HasReader (calls : List Awaiting) (ch : Chan) : Prop := ∃ c ∈ calls, c.chan = ch

/-- The channel that a callback is blocked on. -/
def Holder.blockedOn : Holder N V → Option Chan
  | .sending ch _ => some ch
  | _ => none

/-- The callback finds its channel, with room in it or with a call that will make room. -/
def ReplyNode.Expects (s : ReplyNode N V) (ch : Chan) : Prop :=
  ∃ queue ∈ (s.channels ch).toList, queue.length < 10 ∨ HasReader s.calls ch

/-- A call that gives up is not the last one that could make room for a blocked callback. -/
def ReplyNode.Spares (s : ReplyNode N V) (i : Nat) : Prop :=
  ∀ ch ∈ s.holder.blockedOn.toList, HasReader (s.calls.eraseIdx i) ch

def Expected (s : ReplyNode N V) : ReplyEvent N V → Prop
  | .findSuccessorReply id _ => s.Expects (.findSuccessorCh id)
  | .giveKV key _ => s.Expects (.acquireKVCh key)
  | .request i false => s.Spares i
  | .timeout i => s.Spares i
  | _ => True

instance (calls : List Awaiting) (ch : Chan) : Decidable (HasReader calls ch) :=
  inferInstanceAs (Decidable (∃ c ∈ calls, _))

instance (s : ReplyNode N V) (ch : Chan) : Decidable (s.Expects ch) :=
  inferInstanceAs (Decidable (∃ queue ∈ (s.channels ch).toList, _))

instance (s : ReplyNode N V) (i : Nat) : Decidable (s.Spares i) :=
  inferInstanceAs (Decidable (∀ ch ∈ s.holder.blockedOn.toList, _))

instance (s : ReplyNode N V) : ∀ e : ReplyEvent N V, Decidable (Expected s e)
  | .findSuccessorReply id _ => inferInstanceAs (Decidable (s.Expects (.findSuccessorCh id)))
  | .giveKV key _ => inferInstanceAs (Decidable (s.Expects (.acquireKVCh key)))
  | .request i false => inferInstanceAs (Decidable (s.Spares i))
  | .timeout i => inferInstanceAs (Decidable (s.Spares i))
  | .request _ true => isTrue trivial
  | .findSuccessorRemote _ | .get _ | .receive _ => isTrue trivial

def Awaiting.steps (ch : Chan) (c : Awaiting) : Nat := if c.chan = ch then (if c.sent then 1 else 2) else 0

/-- How many steps the calls on a channel have before them. -/
def pendingSteps (calls : List Awaiting) (ch : Chan) : Nat := (calls.map (Awaiting.steps ch)).sum

/-- The event is a step of a call on the channel. -/
def ReplyNode.StepsOn (s : ReplyNode N V) (ch : Chan) : ReplyEvent N V → Prop
  | .request i _ => ∃ c ∈ s.calls[i]?, c.chan = ch
  | .receive i => ∃ c ∈ s.calls[i]?, c.chan = ch
  | .timeout i => ∃ c ∈ s.calls[i]?, c.chan = ch
  | _ => False

/-! ## Moves -/

/-- What a step can do. -/
inductive ReplyMove (s : ReplyNode N V) (e : ReplyEvent N V) : ReplyNode N V → Prop
  | ended (s' : ReplyNode N V) (hfree : s.holder = .free) (hfree' : s'.holder = .free) (hexpected : Expected s e) :
      ReplyMove s e s'
  | blocked (ch : Chan) (msg : Reply N V) (queue : List (Reply N V)) (hfree : s.holder = .free)
      (hqueue : s.channels ch = some queue) (hfull : 10 ≤ queue.length)
      (hexpected : Expected s e ↔ HasReader s.calls ch) : ReplyMove s e { s with holder := .sending ch msg }
  | leaked (hfree : s.holder = .free) (hexpected : ¬ Expected s e) : ReplyMove s e { s with holder := .returned }
  | sent (i : Nat) (c : Awaiting) (hcall : s.calls[i]? = some c) (hsteps : ∀ ch, s.StepsOn ch e → c.chan = ch)
      (hsent : c.sent = false) (hexpected : Expected s e) :
      ReplyMove s e { s with calls := s.calls.set i ⟨c.chan, true⟩ }
  | left (i : Nat) (c : Awaiting) (hcall : s.calls[i]? = some c) (hsteps : ∀ ch, s.StepsOn ch e → c.chan = ch)
      (hexpected : Expected s e ↔ s.Spares i) :
      ReplyMove s e { s with calls := s.calls.eraseIdx i }
  | released (s' : ReplyNode N V) (hfree' : s'.holder = .free) (hexpected : Expected s e)
      (hsending : ∃ ch msg, s.holder = .sending ch msg ∧ HasReader s.calls ch) : ReplyMove s e s'
  | received (i : Nat) (c : Awaiting) (rest : List (Reply N V)) (hcall : s.calls[i]? = some c)
      (hsteps : ∀ ch, s.StepsOn ch e → c.chan = ch) (hother : s.holder.blockedOn ≠ some c.chan)
      (hexpected : Expected s e) :
      ReplyMove s e { s with
        calls := s.calls.eraseIdx i
        channels := Function.update s.channels c.chan (some rest) }

section Moves

variable {s s' : ReplyNode N V} {e : ReplyEvent N V} {ch : Chan} {msg : Reply N V} {i : Nat} {c : Awaiting}

theorem Holder.isFree_iff {h : Holder N V} : h.isFree = true ↔ h = .free := by
  cases h <;> simp [Holder.isFree]

theorem Holder.blockedOn_eq_some {h : Holder N V} : h.blockedOn = some ch ↔ ∃ msg, h = .sending ch msg := by
  cases h <;> simp [Holder.blockedOn]

theorem makeChannel_move (h : s.makeChannel ch = some s') (hexpected : Expected s e) : ReplyMove s e s' := by
  unfold ReplyNode.makeChannel at h
  split_ifs at h with hfree
  obtain rfl := Option.some.inj h
  rw [Holder.isFree_iff] at hfree
  exact .ended _ hfree hfree hexpected

theorem replyCallback_move (h : s.replyCallback ch msg = some s') (hexpected : Expected s e ↔ s.Expects ch) :
    ReplyMove s e s' := by
  unfold ReplyNode.replyCallback at h
  split_ifs at h with hfree
  rw [Holder.isFree_iff] at hfree
  cases hqueue : s.channels ch with
  | none =>
    simp only [hqueue, Option.some.injEq] at h
    subst h
    exact .leaked hfree (by simp [hexpected, ReplyNode.Expects, hqueue])
  | some queue =>
    simp only [hqueue] at h
    have hexpects : s.Expects ch ↔ queue.length < 10 ∨ HasReader s.calls ch := by
      simp [ReplyNode.Expects, hqueue]
    split_ifs at h with hroom
    · obtain rfl := Option.some.inj h
      exact .ended _ hfree hfree (hexpected.mpr (hexpects.mpr (.inl hroom)))
    · obtain rfl := Option.some.inj h
      refine .blocked ch msg queue hfree hqueue (by omega) ?_
      rw [hexpected, hexpects]
      simp [hroom]

theorem hasReader_of_getElem? {calls : List Awaiting} (h : calls[i]? = some c) : HasReader calls c.chan :=
  ⟨c, List.mem_of_getElem? h, rfl⟩

theorem receive_move (h : s.receive i = some s') : ReplyMove s (.receive i) s' := by
  obtain ⟨c, hcall, h⟩ := Option.bind_eq_some_iff.mp h
  have hsteps : ∀ ch, s.StepsOn ch (.receive i) → c.chan = ch := by
    simp [ReplyNode.StepsOn, hcall]
  obtain ⟨channels, holder, calls⟩ := s
  split at h
  · rename_i reply rest hsent hqueue
    cases holder with
    | free =>
      obtain rfl := Option.some.inj h
      exact .ended _ rfl rfl trivial
    | returned =>
      obtain rfl := Option.some.inj h
      exact .received i c rest hcall hsteps (by simp [Holder.blockedOn]) trivial
    | sending ch msg =>
      dsimp only at h
      split_ifs at h with hch
      · obtain rfl := Option.some.inj h
        refine .released _ rfl trivial ⟨ch, msg, rfl, ?_⟩
        rw [hch]
        exact hasReader_of_getElem? hcall
      · obtain rfl := Option.some.inj h
        exact .received i c rest hcall hsteps (by simpa [Holder.blockedOn] using hch) trivial
  · cases h

theorem replyStep_move (h : replyStep s e = some s') : ReplyMove s e s' := by
  cases e with
  | findSuccessorRemote id => exact makeChannel_move h trivial
  | get key => exact makeChannel_move h trivial
  | request i sent =>
    obtain ⟨c, hcall, h⟩ := Option.bind_eq_some_iff.mp h
    split_ifs at h with hsent hgoes
    · obtain rfl := Option.some.inj h
      subst hgoes
      exact .sent i c hcall (by simp [ReplyNode.StepsOn, hcall]) (by simpa using hsent) trivial
    · obtain rfl := Option.some.inj h
      obtain rfl : sent = false := by simpa using hgoes
      exact .left i c hcall (by simp [ReplyNode.StepsOn, hcall]) Iff.rfl
  | receive i => exact receive_move h
  | timeout i =>
    obtain ⟨c, hcall, h⟩ := Option.bind_eq_some_iff.mp h
    split_ifs at h with hsent
    obtain rfl := Option.some.inj h
    exact .left i c hcall (by simp [ReplyNode.StepsOn, hcall]) Iff.rfl
  | findSuccessorReply id dest => exact replyCallback_move h Iff.rfl
  | giveKV key value => exact replyCallback_move h Iff.rfl

end Moves

/-! ## Stuck -/

/-- A callback has returned with the mutex, or it is blocked on a channel that no call will receive from. -/
def ReplyNode.Stuck (s : ReplyNode N V) : Prop :=
  s.holder = .returned ∨ ∃ ch msg, s.holder = .sending ch msg ∧ ¬ HasReader s.calls ch

/-- A callback is blocked on a full channel only. -/
def ReplyNode.Full (s : ReplyNode N V) : Prop :=
  ∀ ch msg, s.holder = .sending ch msg → ∃ queue, s.channels ch = some queue ∧ 10 ≤ queue.length

section Stuck

variable {s s' : ReplyNode N V} {e : ReplyEvent N V} {ch : Chan} {msg : Reply N V} {i : Nat} {c : Awaiting}
  {calls : List Awaiting}

theorem not_stuck_of_holder_free (h : s.holder = .free) : ¬ s.Stuck := by
  simp [ReplyNode.Stuck, h]

theorem stuck_sending (h : s.holder = .sending ch msg) : s.Stuck ↔ ¬ HasReader s.calls ch := by
  simp [ReplyNode.Stuck, h]

theorem hasReader_iff_erase (h : calls[i]? = some c) :
    HasReader calls ch ↔ c.chan = ch ∨ HasReader (calls.eraseIdx i) ch := by
  obtain ⟨hi, rfl⟩ := List.getElem?_eq_some_iff.mp h
  simp only [HasReader, ← (List.getElem_cons_eraseIdx_perm hi).mem_iff]
  simp

theorem hasReader_set (h : calls[i]? = some c) (sent : Bool) :
    HasReader (calls.set i ⟨c.chan, sent⟩) ch ↔ HasReader calls ch := by
  obtain ⟨hi, rfl⟩ := List.getElem?_eq_some_iff.mp h
  rw [hasReader_iff_erase h]
  simp only [HasReader, (List.set_perm_cons_eraseIdx hi _).mem_iff]
  simp

theorem ReplyNode.Full.keep (h : s.Full) (hmove : ReplyMove s e s') : s'.Full := by
  intro ch msg hsending
  cases hmove with
  | ended _ _ hfree' _ => rw [hfree'] at hsending; cases hsending
  | blocked ch' msg' queue _ hqueue hfull _ =>
    cases hsending
    exact ⟨queue, hqueue, hfull⟩
  | leaked _ _ => cases hsending
  | sent i c hcall _ _ _ => exact h ch msg hsending
  | left i c hcall _ _ => exact h ch msg hsending
  | released _ hfree' _ _ => rw [hfree'] at hsending; cases hsending
  | received i c rest hcall _ hother _ =>
    have hne : ch ≠ c.chan := by
      rintro rfl
      exact hother (Holder.blockedOn_eq_some.mpr ⟨msg, hsending⟩)
    obtain ⟨queue, hqueue, hfull⟩ := h ch msg hsending
    exact ⟨queue, (Function.update_of_ne hne _ _).trans hqueue, hfull⟩

/-- A step that changes the calls only. -/
theorem stuck_calls (hgood : ¬ s.Stuck) {channels : Chan → Option (List (Reply N V))} :
    ({ s with channels, calls }).Stuck ↔ ∃ ch ∈ s.holder.blockedOn, ¬ HasReader calls ch := by
  obtain ⟨_, holder, _⟩ := s
  cases holder with
  | free => simp [ReplyNode.Stuck, Holder.blockedOn]
  | returned => exact absurd (.inl rfl) hgood
  | sending ch msg => simp [ReplyNode.Stuck, Holder.blockedOn]

theorem hasReader_of_blockedOn (hgood : ¬ s.Stuck) (hch : ch ∈ s.holder.blockedOn) : HasReader s.calls ch := by
  obtain ⟨msg, hsending⟩ := Holder.blockedOn_eq_some.mp hch
  rw [stuck_sending hsending] at hgood
  exact not_not.mp hgood

/-- A step gets stuck exactly if it is not expected. -/
theorem stuck_iff_not_expected (hgood : ¬ s.Stuck) (hmove : ReplyMove s e s') : s'.Stuck ↔ ¬ Expected s e := by
  cases hmove with
  | ended _ _ hfree' hexpected => simp [not_stuck_of_holder_free hfree', hexpected]
  | blocked ch msg queue _ _ _ hexpected => rw [stuck_sending rfl, hexpected]
  | leaked _ hexpected => simp [ReplyNode.Stuck, hexpected]
  | sent i c hcall _ _ hexpected =>
    rw [stuck_calls hgood]
    simp only [hexpected, not_true, iff_false, not_exists, not_and, not_not]
    intro ch hch
    exact (hasReader_set hcall true).mpr (hasReader_of_blockedOn hgood hch)
  | left i c hcall _ hexpected =>
    rw [stuck_calls hgood, hexpected]
    simp [ReplyNode.Spares]
  | released _ hfree' hexpected _ => simp [not_stuck_of_holder_free hfree', hexpected]
  | received i c rest hcall _ hother hexpected =>
    rw [stuck_calls hgood]
    simp only [hexpected, not_true, iff_false, not_exists, not_and, not_not]
    intro ch hch
    have hne : c.chan ≠ ch := by
      rintro rfl
      exact hother hch
    exact ((hasReader_iff_erase hcall).mp (hasReader_of_blockedOn hgood hch)).resolve_left hne

/-- Nothing gets out of it. -/
theorem stuck_keep (hstuck : s.Stuck) (hmove : ReplyMove s e s') : s'.Stuck := by
  cases hmove with
  | ended _ hfree _ _ => exact absurd hstuck (not_stuck_of_holder_free hfree)
  | blocked _ _ _ hfree _ _ _ => exact absurd hstuck (not_stuck_of_holder_free hfree)
  | leaked hfree _ => exact absurd hstuck (not_stuck_of_holder_free hfree)
  | sent i c hcall _ _ _ =>
    refine hstuck.imp_right ?_
    rintro ⟨ch, msg, hsending, hnone⟩
    exact ⟨ch, msg, hsending, fun h => hnone ((hasReader_set hcall true).mp h)⟩
  | left i c hcall _ _ =>
    refine hstuck.imp_right ?_
    rintro ⟨ch, msg, hsending, hnone⟩
    exact ⟨ch, msg, hsending, fun h => hnone ((hasReader_iff_erase hcall).mpr (.inr h))⟩
  | released _ _ _ hsending =>
    obtain ⟨ch, msg, hsending, hreader⟩ := hsending
    exact absurd hreader ((stuck_sending hsending).mp hstuck)
  | received i c rest hcall _ _ _ =>
    refine hstuck.imp_right ?_
    rintro ⟨ch, msg, hsending, hnone⟩
    exact ⟨ch, msg, hsending, fun h => hnone ((hasReader_iff_erase hcall).mpr (.inr h))⟩

/-- A call at its select takes a message, and the blocked callback unlocks. -/
theorem receive_releases (hfull : s.Full) (hsending : s.holder = .sending ch msg)
    (hcall : s.calls[i]? = some ⟨ch, true⟩) :
    ∃ s', replyStep s (.receive i) = some s' ∧ s'.holder = .free := by
  obtain ⟨queue, hqueue, hlen⟩ := hfull ch msg hsending
  cases queue with
  | nil => simp at hlen
  | cons first rest => simp [replyStep, ReplyNode.receive, hcall, hqueue, hsending]

theorem not_releasable (hstuck : s.Stuck) : ¬ Releasable s := by
  rintro ⟨es, s', hrun, hfree⟩
  have hend : s'.Stuck :=
    run_preserves ReplyNode.Stuck (fun _ _ _ h hstep => stuck_keep h (replyStep_move hstep)) es hstuck hrun
  exact not_stuck_of_holder_free hfree hend

/-- The mutex can be released exactly if the node is not stuck. -/
theorem releasable_iff (hfull : s.Full) : Releasable s ↔ ¬ s.Stuck := by
  constructor
  · exact fun h hstuck => not_releasable hstuck h
  · intro hgood
    cases hholder : s.holder with
    | free => exact ⟨[], s, rfl, hholder⟩
    | returned => exact absurd (.inl hholder) hgood
    | sending ch msg =>
      rw [stuck_sending hholder, not_not] at hgood
      obtain ⟨⟨ch', sent⟩, hmem, rfl⟩ := hgood
      obtain ⟨i, hcall⟩ := List.getElem?_of_mem hmem
      cases sent with
      | true =>
        obtain ⟨s', hstep, hfree⟩ := receive_releases hfull hholder hcall
        exact ⟨[.receive i], s', by rw [run_cons hstep]; rfl, hfree⟩
      | false =>
        have hsend : replyStep s (.request i true) = some { s with calls := s.calls.set i ⟨ch', true⟩ } := by
          simp [replyStep, ReplyNode.request, hcall]
        obtain ⟨hi, -⟩ := List.getElem?_eq_some_iff.mp hcall
        have hfull' := hfull.keep (replyStep_move hsend)
        obtain ⟨s', hstep, hfree⟩ := receive_releases hfull' hholder (List.getElem?_set_self hi)
        exact ⟨[.request i true, .receive i], s', by rw [run_cons hsend, run_cons hstep]; rfl, hfree⟩

theorem Awaiting.steps_pos (h : c.chan = ch) : 0 < c.steps ch := by
  unfold Awaiting.steps
  rw [if_pos h]
  split_ifs <;> decide

theorem pendingSteps_erase (h : calls[i]? = some c) (ch : Chan) :
    pendingSteps (calls.eraseIdx i) ch + c.steps ch = pendingSteps calls ch := by
  obtain ⟨hi, rfl⟩ := List.getElem?_eq_some_iff.mp h
  unfold pendingSteps
  rw [← ((List.getElem_cons_eraseIdx_perm hi).map (Awaiting.steps ch)).sum_eq, List.map_cons, List.sum_cons]
  exact Nat.add_comm ..

theorem pendingSteps_set (h : calls[i]? = some c) (hsent : c.sent = false) (ch : Chan) :
    pendingSteps (calls.set i ⟨c.chan, true⟩) ch + (if c.chan = ch then 1 else 0) = pendingSteps calls ch := by
  have hset := sum_map_set (Awaiting.steps ch) calls i c ⟨c.chan, true⟩ h
  have hsteps : c.steps ch = Awaiting.steps ch ⟨c.chan, true⟩ + if c.chan = ch then 1 else 0 := by
    unfold Awaiting.steps
    by_cases hch : c.chan = ch <;> simp [hch, hsent]
  unfold pendingSteps
  omega

/-- While a callback is blocked every step of a call on its channel is one fewer to come, unless it
releases the mutex; nothing adds to them. -/
theorem blocked_progress (hsending : s.holder = .sending ch msg) (hmove : ReplyMove s e s') :
    s'.holder = .free ∨ s'.holder = s.holder ∧ pendingSteps s'.calls ch ≤ pendingSteps s.calls ch ∧
      (s.StepsOn ch e → pendingSteps s'.calls ch < pendingSteps s.calls ch) := by
  have hheld : s.holder ≠ .free := by simp [hsending]
  cases hmove with
  | ended _ hfree _ _ => exact absurd hfree hheld
  | blocked _ _ _ hfree _ _ _ => exact absurd hfree hheld
  | leaked hfree _ => exact absurd hfree hheld
  | released _ hfree' _ _ => exact .inl hfree'
  | sent i c hcall hsteps hsent _ =>
    have hset := pendingSteps_set hcall hsent ch
    refine .inr ⟨rfl, by dsimp only; omega, fun h => ?_⟩
    rw [if_pos (hsteps ch h)] at hset
    dsimp only
    omega
  | left i c hcall hsteps _ =>
    have herase := pendingSteps_erase hcall ch
    refine .inr ⟨rfl, by dsimp only; omega, fun h => ?_⟩
    have hpos := Awaiting.steps_pos (hsteps ch h)
    dsimp only
    omega
  | received i c rest hcall hsteps _ _ =>
    have herase := pendingSteps_erase hcall ch
    refine .inr ⟨rfl, by dsimp only; omega, fun h => ?_⟩
    have hpos := Awaiting.steps_pos (hsteps ch h)
    dsimp only
    omega

end Stuck

/-- In a run from the start every state can still release the mutex exactly if every callback is expected
and no call leaves a blocked callback alone; and until a blocked callback unlocks, the calls on its channel
have only so many steps to take. -/
theorem chMutex_released_iff {s : ReplyNode N V} (es : List (ReplyEvent N V))
    (hrun : run replyStep (.init N V) es = some s) :
    (Meets replyStep Expected (.init N V) es ↔
      ∀ pre suf t, es = pre ++ suf → run replyStep (.init N V) pre = some t → Releasable t) ∧
    ∀ e s' ch msg, s.holder = .sending ch msg → replyStep s e = some s' →
      s'.holder = .free ∨ s'.holder = s.holder ∧ pendingSteps s'.calls ch ≤ pendingSteps s.calls ch ∧
        (s.StepsOn ch e → pendingSteps s'.calls ch < pendingSteps s.calls ch) := by
  have hinit : (ReplyNode.init N V).Full := by
    intro ch msg h
    cases h
  have hkeep : ∀ s e s', s.Full → replyStep (N := N) (V := V) s e = some s' → s'.Full :=
    fun _ _ _ h hstep => h.keep (replyStep_move hstep)
  have hsafe := meets_iff_safe (C := Expected) ReplyNode.Full ReplyNode.Stuck hkeep
    (fun _ _ _ _ hgood hstep => stuck_iff_not_expected hgood (replyStep_move hstep)) es hinit
    (not_stuck_of_holder_free rfl) hrun
  refine ⟨hsafe.trans ?_, fun e s' ch msg hsending hstep => blocked_progress hsending (replyStep_move hstep)⟩
  refine forall_congr' fun pre => forall_congr' fun suf => forall_congr' fun t => ?_
  refine imp_congr_right fun _ => imp_congr_right fun hpre => ?_
  exact (releasable_iff (run_preserves ReplyNode.Full hkeep pre hinit hpre)).symm

/-! ## A reply that nobody expects -/

/-- A lookup that gets its reply and a second one. -/
def twoReplies : List (ReplyEvent 2 Nat) :=
  [.findSuccessorRemote 5, .request 0 true, .findSuccessorReply 5 1, .receive 0, .findSuccessorReply 5 1]

theorem twoReplies_released :
    ∃ s, run replyStep (.init 2 Nat) twoReplies = some s ∧ Releasable s :=
  ⟨_, rfl, (chMutex_released_iff twoReplies rfl).1.mp (by decide) twoReplies [] _ rfl rfl⟩

/-- A lookup that times out, and eleven replies to it. -/
def elevenReplies : List (ReplyEvent 2 Nat) :=
  [.findSuccessorRemote 5, .request 0 true, .timeout 0] ++ List.replicate 11 (.findSuccessorReply 5 1)

theorem chMutex_not_released :
    (∃ s, run replyStep (.init 2 Nat) [.giveKV 7 (some 3)] = some s ∧ s.holder = .returned ∧ ¬ Releasable s) ∧
      ∃ s ch msg, run replyStep (.init 2 Nat) elevenReplies = some s ∧ s.holder = .sending ch msg ∧
        ¬ Releasable s := by
  constructor
  · exact ⟨_, rfl, rfl, not_releasable (.inl rfl)⟩
  · exact ⟨_, .findSuccessorCh 5, .findSuccessor 1, rfl, rfl,
      not_releasable (.inr ⟨.findSuccessorCh 5, .findSuccessor 1, rfl, by decide⟩)⟩

end MarketPeer.Chord

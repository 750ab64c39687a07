import MarketPeer.Catalog.Answers

/-!
# A future that nobody reads

`searchFirstFromNei` leaves its future in the map when it has found a file, and so do both
searches when a request cannot be sent. The future has room for one reply, and the
handler of the next one waits for ever, and the listen daemon with it.
-/

namespace MarketPeer.Catalog

open Search (Dice)

variable {P : Type} [DecidableEq P] {matchString : String → String → Bool}

/-! ## What the listen daemon does -/

/-- The listen daemon of the peer handles a packet. -/
def Event.handledBy (p : P) : Event P → Bool
  | .packet q => q = p
  | .request r _ _ _ _ _ => r.dest = p
  | .requestPanics r => r.dest = p
  | .reply r => r.dest = p
  | _ => false

/-- It handles a reply to that request. -/
def Event.answers (p : P) (id : Nat) : Event P → Bool
  | .reply r => r.dest = p ∧ r.requestID = id
  | _ => false

/-! ## What one step does to the inquiries -/

inductive Inquiry.Step (q : Inquiry P) : Inquiry P → Prop where
  | same : Inquiry.Step q q
  | notified (r : Reply P) : q.registered → q.future = none → Inquiry.Step q { q with future := some r }
  | received (r : Reply P) (q' : Inquiry P) (future : Option (Reply P)) : q.reading → q.read r = some q' →
      Inquiry.Step q { q' with future }
  | timedOut : q.reading → Inquiry.Step q { q with reading := false, registered := false }

theorem learns_rest (p source : P) (fs : List FileInfo) (w : World P) :
    (fs.foldl (fun w f => w.learn p source f) w).inquiries = w.inquiries ∧
      (fs.foldl (fun w f => w.learn p source f) w).sending = w.sending := by
  induction fs generalizing w with
  | nil => exact ⟨rfl, rfl⟩
  | cons f fs ih => exact ih (w.learn p source f)

theorem inquire_inquiries {w w' : World P} {caller : P} {pattern : String} {first allSent : Bool} {budget : UInt64}
    {dice : Dice P} {sent : Nat} (hstep : w.inquire caller pattern first budget dice sent = some (w', allSent)) :
    w'.sending = w.sending ∧ ∃ q, w'.inquiries = w.inquiries ++ [q] ∧ q.registered ∧ q.fullKnownName = none := by
  unfold World.inquire at hstep
  obtain ⟨budgets, -, hstep⟩ := Option.bind_eq_some_iff.mp hstep
  split at hstep
  · cases hstep
    exact ⟨rfl, _, rfl, rfl, rfl⟩
  · cases hstep

/-- The part of a call that asks the neighbors adds an inquiry at most. -/
theorem stepAsk_inquiries {w w' : World P} {i : Nat} {c : Call P} {dice : Dice P} {sent : Nat}
    (hstep : stepAsk w i c dice sent = some w') :
    w'.sending = w.sending ∧ (w'.inquiries = w.inquiries ∨
      ∃ q, w'.inquiries = w.inquiries ++ [q] ∧ q.registered ∧ q.fullKnownName = none) := by
  unfold stepAsk at hstep
  split at hstep
  · split at hstep
    · cases hstep
      exact ⟨rfl, .inl rfl⟩
    · obtain ⟨⟨w'', allSent⟩, hinquire, rfl⟩ := Option.map_eq_some_iff.mp hstep
      obtain ⟨hsending, hnew⟩ := inquire_inquiries hinquire
      dsimp only
      split
      · exact ⟨hsending, .inr hnew⟩
      · exact ⟨hsending, .inr hnew⟩
  · split at hstep
    · cases hstep
      exact ⟨rfl, .inl rfl⟩
    · split at hstep
      · cases hstep
        exact ⟨rfl, .inl rfl⟩
      · obtain ⟨⟨w'', allSent⟩, hinquire, rfl⟩ := Option.map_eq_some_iff.mp hstep
        obtain ⟨hsending, hnew⟩ := inquire_inquiries hinquire
        dsimp only
        split
        · exact ⟨hsending, .inr hnew⟩
        · exact ⟨hsending, .inr hnew⟩

/-- What comes of a reply: nothing, it gets into the future, or its handler waits. -/
theorem step_reply {w w' : World P} {r : Reply P} (hstep : step matchString w (.reply r) = some w') :
    w.sending r.dest = none ∧
      ((w'.inquiries = w.inquiries ∧ w'.sending = w.sending ∧
          ∀ q, w.inquiries[r.requestID]? = some q → q.caller = r.dest → q.registered = false) ∨
        ∃ q, w.inquiries[r.requestID]? = some q ∧ q.registered ∧
          ((q.future = none ∧ w'.inquiries = w.inquiries.set r.requestID { q with future := some r } ∧
              w'.sending = w.sending) ∨
            (w'.inquiries = w.inquiries ∧ w'.sending = Function.update w.sending r.dest (some r)))) := by
  simp only [step, Option.ite_none_right_eq_some, Option.some.injEq] at hstep
  obtain ⟨⟨-, hidle⟩, rfl⟩ := hstep
  obtain ⟨hinquiries, hsending⟩ := learns_rest r.dest r.source r.responses w
  refine ⟨hidle, ?_⟩
  unfold World.searchReplyMessageCallback World.notify
  rw [hinquiries]
  split
  · next hnone => exact .inl ⟨hinquiries, hsending, fun q hq => by rw [hnone] at hq; cases hq⟩
  · next q hq =>
    split
    · next hown =>
      refine .inr ⟨q, hq, hown.2, ?_⟩
      split
      · next hempty => exact .inl ⟨hempty, by rw [World.setInquiry, hinquiries], hsending⟩
      · exact .inr ⟨rfl, by rw [hsending]⟩
    · next hother =>
      refine .inl ⟨hinquiries, hsending, ?_⟩
      intro q' hq' hcaller
      rw [hq, Option.some.injEq] at hq'
      subst hq'
      simpa [hcaller] using hother

/-- What comes of a turn of the routine that reads. -/
theorem step_receive {w w' : World P} {id : Nat} (hstep : step matchString w (.receive id) = some w') :
    ∃ q r q' future, w.inquiries[id]? = some q ∧ q.reading ∧ q.read r = some q' ∧
      w'.inquiries = w.inquiries.set id { q' with future } ∧
      (w'.sending = w.sending ∨ ∃ waiting, w.sending q'.caller = some waiting ∧ waiting.requestID = id ∧
        w'.sending = Function.update w.sending q'.caller none) := by
  obtain ⟨q, hq, hstep⟩ := Option.bind_eq_some_iff.mp hstep
  rw [Option.ite_none_right_eq_some] at hstep
  obtain ⟨hreading, hstep⟩ := hstep
  obtain ⟨r, -, hstep⟩ := Option.bind_eq_some_iff.mp hstep
  obtain ⟨q', hread, hstep⟩ := Option.map_eq_some_iff.mp hstep
  split at hstep
  · next waiting hwaiting =>
    split at hstep
    · next hid =>
      subst hstep
      exact ⟨q, r, q', some waiting, hq, hreading, hread, rfl, .inr ⟨waiting, hwaiting, hid, rfl⟩⟩
    · subst hstep
      exact ⟨q, r, q', none, hq, hreading, hread, rfl, .inl rfl⟩
  · subst hstep
    exact ⟨q, r, q', none, hq, hreading, hread, rfl, .inl rfl⟩

theorem searchRequestMessageCallback_rest {w w' : World P} {r : Request P} {order : Names} {moments : Moments}
    {dice : Dice P} {sent : Nat} {replied : Bool}
    (hstep : w.searchRequestMessageCallback matchString r order moments dice sent replied = some w') :
    w'.inquiries = w.inquiries ∧ w'.sending = w.sending := by
  unfold World.searchRequestMessageCallback at hstep
  split at hstep
  · cases hstep
    exact ⟨rfl, rfl⟩
  · obtain ⟨budgets, -, rfl⟩ := Option.map_eq_some_iff.mp hstep
    dsimp only
    split
    · exact ⟨rfl, rfl⟩
    · exact ⟨rfl, rfl⟩

/-- One step, as the inquiries and the handlers see it. -/
theorem step_cases {w w' : World P} {e : Event P} (hstep : step matchString w e = some w') :
    (∃ r, e = .reply r) ∨ (∃ id, e = .receive id) ∨
      (∃ id q, e = .timeout id ∧ w.inquiries[id]? = some q ∧ q.reading ∧
        w'.inquiries = w.inquiries.set id { q with reading := false, registered := false } ∧ w'.sending = w.sending) ∨
      (w'.sending = w.sending ∧ (w'.inquiries = w.inquiries ∨
        ∃ q, w'.inquiries = w.inquiries ++ [q] ∧ q.registered ∧ q.fullKnownName = none)) := by
  cases e with
  | reply r => exact .inl ⟨r, rfl⟩
  | receive id => exact .inr (.inl ⟨id, rfl⟩)
  | timeout id =>
    obtain ⟨q, hq, hstep⟩ := Option.bind_eq_some_iff.mp hstep
    simp only [Option.ite_none_right_eq_some, Option.some.injEq] at hstep
    obtain ⟨hreading, rfl⟩ := hstep
    exact .inr (.inr (.inl ⟨id, q, rfl, hq, hreading, rfl, rfl⟩))
  | ask i dice sent =>
    obtain ⟨c, hc, hstep⟩ := Option.bind_eq_some_iff.mp hstep
    rw [Option.ite_none_right_eq_some] at hstep
    exact .inr (.inr (.inr (stepAsk_inquiries hstep.2)))
  | request r order moments dice sent replied =>
    simp only [step, Option.ite_none_right_eq_some] at hstep
    obtain ⟨hinquiries, hsending⟩ := searchRequestMessageCallback_rest hstep.2
    exact .inr (.inr (.inr ⟨hsending, .inl hinquiries⟩))
  | tag p name metahash | store p key value | addNeighbor p nei =>
    cases hstep
    exact .inr (.inr (.inr ⟨rfl, .inl rfl⟩))
  | packet p | searchAll p pattern budget order | requestPanics r =>
    simp only [step, Option.ite_none_right_eq_some, Option.some.injEq] at hstep
    obtain ⟨-, rfl⟩ := hstep
    exact .inr (.inr (.inr ⟨rfl, .inl rfl⟩))
  | searchFirst p pattern conf order moments =>
    simp only [step, Option.ite_none_right_eq_some] at hstep
    obtain ⟨-, hstep⟩ := hstep
    split at hstep
    · cases hstep
      exact .inr (.inr (.inr ⟨rfl, .inl rfl⟩))
    · cases hstep
      exact .inr (.inr (.inr ⟨rfl, .inl rfl⟩))
  | finish i order =>
    obtain ⟨c, hc, hstep⟩ := Option.bind_eq_some_iff.mp hstep
    obtain ⟨id, hid, hstep⟩ := Option.bind_eq_some_iff.mp hstep
    obtain ⟨q, hq, hstep⟩ := Option.bind_eq_some_iff.mp hstep
    unfold stepFinish at hstep
    split at hstep
    · rw [Option.ite_none_right_eq_some, Option.some.injEq] at hstep
      obtain ⟨-, rfl⟩ := hstep
      exact .inr (.inr (.inr ⟨rfl, .inl rfl⟩))
    · cases hstep
      exact .inr (.inr (.inr ⟨rfl, .inl rfl⟩))
  | found i =>
    obtain ⟨c, hc, hstep⟩ := Option.bind_eq_some_iff.mp hstep
    obtain ⟨id, hid, hstep⟩ := Option.bind_eq_some_iff.mp hstep
    obtain ⟨q, hq, hstep⟩ := Option.bind_eq_some_iff.mp hstep
    obtain ⟨name, hname, rfl⟩ := Option.map_eq_some_iff.mp hstep
    exact .inr (.inr (.inr ⟨rfl, .inl rfl⟩))

omit [DecidableEq P] in
theorem inquiry_set {w w' : World P} {id id' : Nat} {q q₀ q' : Inquiry P} (hq₀ : w.inquiries[id']? = some q₀)
    (hset : w'.inquiries = w.inquiries.set id' q') (hstep : q₀.Step q') (hq : w.inquiries[id]? = some q) :
    ∃ q', w'.inquiries[id]? = some q' ∧ q.Step q' := by
  rw [hset, List.getElem?_set]
  split
  · next heq =>
    subst heq
    rw [hq₀, Option.some.injEq] at hq
    subst hq
    rw [if_pos (List.getElem?_eq_some_iff.mp hq₀).1]
    exact ⟨q', rfl, hstep⟩
  · exact ⟨q, hq, .same⟩

theorem step_inquiry {w w' : World P} {e : Event P} (hstep : step matchString w e = some w') {id : Nat}
    {q : Inquiry P} (hq : w.inquiries[id]? = some q) : ∃ q', w'.inquiries[id]? = some q' ∧ q.Step q' := by
  obtain ⟨r, rfl⟩ | ⟨id', rfl⟩ | ⟨id', q₀, rfl, hq₀, hreading, hset, -⟩ | ⟨-, hrest⟩ := step_cases hstep
  · obtain ⟨-, ⟨hsame, -⟩ | ⟨q₀, hq₀, hregistered, ⟨hempty, hset, -⟩ | ⟨hsame, -⟩⟩⟩ := step_reply hstep
    · exact ⟨q, by rw [hsame]; exact hq, .same⟩
    · exact inquiry_set hq₀ hset (.notified r hregistered hempty) hq
    · exact ⟨q, by rw [hsame]; exact hq, .same⟩
  · obtain ⟨q₀, r, q', future, hq₀, hreading, hread, hset, -⟩ := step_receive hstep
    exact inquiry_set hq₀ hset (.received r q' future hreading hread) hq
  · exact inquiry_set hq₀ hset (.timedOut hreading) hq
  · rcases hrest with hsame | ⟨q', hnew, -⟩
    · exact ⟨q, by rw [hsame]; exact hq, .same⟩
    · refine ⟨q, ?_, .same⟩
      rw [hnew, List.getElem?_append_left (List.getElem?_eq_some_iff.mp hq).1]
      exact hq

theorem step_new {w w' : World P} {e : Event P} (hstep : step matchString w e = some w') {id : Nat} {q : Inquiry P}
    (hnone : w.inquiries[id]? = none) (hq : w'.inquiries[id]? = some q) : q.registered ∧ q.fullKnownName = none := by
  have hset {id' : Nat} {q' : Inquiry P} : (w.inquiries.set id' q')[id]? = none := by
    rw [List.getElem?_eq_none_iff] at hnone ⊢
    rw [List.length_set]
    exact hnone
  obtain ⟨r, rfl⟩ | ⟨id', rfl⟩ | ⟨id', q₀, rfl, -, -, hinquiries, -⟩ | ⟨-, hinquiries | ⟨q', hnew, hq'⟩⟩ :=
    step_cases hstep
  · obtain ⟨-, ⟨hinquiries, -⟩ | ⟨q₀, -, -, ⟨-, hinquiries, -⟩ | ⟨hinquiries, -⟩⟩⟩ := step_reply hstep
    all_goals simp [hinquiries, hnone, hset] at hq
  · obtain ⟨q₀, r, q', future, -, -, -, hinquiries, -⟩ := step_receive hstep
    simp [hinquiries, hset] at hq
  · simp [hinquiries, hset] at hq
  · simp [hinquiries, hnone] at hq
  · rw [hnew, List.getElem?_append_right (List.getElem?_eq_none_iff.mp hnone)] at hq
    obtain rfl := List.mem_singleton.mp (List.mem_of_getElem? hq)
    exact hq'

/-- A handler that waits keeps its peer from any packet, until the routine that reads takes a reply. -/
theorem step_sending {w w' : World P} {e : Event P} (hstep : step matchString w e = some w') {p : P} {r : Reply P}
    (hr : w.sending p = some r) : e.handledBy p = false ∧
      (w'.sending p = some r ∨ ∃ q, w.inquiries[r.requestID]? = some q ∧ q.reading) := by
  refine ⟨?_, ?_⟩
  · have hbusy : w.sending p ≠ none := by simp [hr]
    cases e with
    | packet p' =>
      simp only [step, Option.ite_none_right_eq_some] at hstep
      refine decide_eq_false fun hp => hbusy ?_
      rw [← hp]
      exact hstep.1
    | request r' order dice sent replied =>
      simp only [step, Option.ite_none_right_eq_some] at hstep
      refine decide_eq_false fun hp => hbusy ?_
      rw [← hp]
      exact hstep.1.2.1
    | requestPanics r' =>
      simp only [step, Option.ite_none_right_eq_some] at hstep
      refine decide_eq_false fun hp => hbusy ?_
      rw [← hp]
      exact hstep.1.2.1
    | reply r' =>
      refine decide_eq_false fun hp => hbusy ?_
      rw [← hp]
      exact (step_reply hstep).1
    | _ => rfl
  · obtain ⟨r', rfl⟩ | ⟨id', rfl⟩ | ⟨id', q₀, rfl, -, -, -, hsending⟩ | ⟨hsending, -⟩ := step_cases hstep
    · obtain ⟨hidle, ⟨-, hsending, -⟩ | ⟨q₀, -, -, ⟨-, -, hsending⟩ | ⟨-, hsending⟩⟩⟩ := step_reply hstep
      · exact .inl (by rw [hsending]; exact hr)
      · exact .inl (by rw [hsending]; exact hr)
      · left
        rw [hsending, Function.update_of_ne]
        · exact hr
        · intro hp
          rw [hp, hidle] at hr
          cases hr
    · obtain ⟨q₀, r', q', future, hq₀, hreading, -, -, hsending | ⟨waiting, hwaiting, hid, hsending⟩⟩ :=
        step_receive hstep
      · exact .inl (by rw [hsending]; exact hr)
      · by_cases hp : p = q'.caller
        · subst hp
          rw [hr, Option.some.injEq] at hwaiting
          subst hwaiting
          exact .inr ⟨q₀, by rw [hid]; exact hq₀, hreading⟩
        · left
          rw [hsending, Function.update_of_ne hp]
          exact hr
    · exact .inl (by rw [hsending]; exact hr)
    · exact .inl (by rw [hsending]; exact hr)

/-! ## Nobody reads -/

/-- The handler of the peer waits for room in a future that nobody reads. -/
def World.Frozen (w : World P) (p : P) : Prop :=
  ∃ r q, w.sending p = some r ∧ w.inquiries[r.requestID]? = some q ∧ q.reading = false

omit [DecidableEq P] in
theorem Inquiry.Step.unread {q q' : Inquiry P} (h : q.Step q') (hreading : q.reading = false) :
    q'.reading = false ∧ q'.caller = q.caller ∧ q'.registered = q.registered ∧
      (q.future ≠ none → q'.future = q.future) := by
  cases h with
  | same => exact ⟨hreading, rfl, rfl, fun _ => rfl⟩
  | notified r _ hempty => exact ⟨hreading, rfl, rfl, fun hfull => (hfull hempty).elim⟩
  | received r q' future hread _ => rw [hreading] at hread; cases hread
  | timedOut hread => rw [hreading] at hread; cases hread

theorem frozen_step {w w' : World P} {p : P} {e : Event P} (h : w.Frozen p)
    (hstep : step matchString w e = some w') : w'.Frozen p ∧ e.handledBy p = false := by
  obtain ⟨r, q, hr, hq, hreading⟩ := h
  obtain ⟨hhandled, hstays⟩ := step_sending hstep hr
  obtain ⟨q', hq', hqstep⟩ := step_inquiry hstep hq
  refine ⟨⟨r, q', ?_, hq', (hqstep.unread hreading).1⟩, hhandled⟩
  rcases hstays with hstays | ⟨q₀, hq₀, hread⟩
  · exact hstays
  · rw [hq, Option.some.injEq] at hq₀
    subst hq₀
    rw [hreading] at hread
    cases hread

theorem frozen_run {w w' : World P} {p : P} {es : List (Event P)} (h : w.Frozen p)
    (hrun : run (step matchString) w es = some w') : w'.Frozen p ∧ ∀ e ∈ es, e.handledBy p = false := by
  induction es generalizing w with
  | nil =>
    cases hrun
    exact ⟨h, by simp⟩
  | cons e es ih =>
    obtain ⟨w₁, hstep, hrun⟩ := Option.bind_eq_some_iff.mp hrun
    obtain ⟨hnext, hhandled⟩ := frozen_step h hstep
    obtain ⟨hlast, hall⟩ := ih hnext hrun
    rw [List.forall_mem_cons]
    exact ⟨hlast, hhandled, hall⟩

/-- The future of the request is in the map, with a reply or without one, and nobody reads it. -/
def World.Abandoned (w : World P) (p : P) (id : Nat) : Prop :=
  ∃ q, w.inquiries[id]? = some q ∧ q.caller = p ∧ q.registered ∧ q.reading = false

/-- Nobody reads the future, and it is full. -/
def World.Clogged (w : World P) (p : P) (id : Nat) : Prop :=
  ∃ q, w.inquiries[id]? = some q ∧ q.caller = p ∧ q.registered ∧ q.reading = false ∧ q.future ≠ none

theorem answers_eq {e : Event P} {p : P} {id : Nat} (h : e.answers p id) :
    ∃ r, e = .reply r ∧ r.dest = p ∧ r.requestID = id := by
  cases e with
  | reply r => exact ⟨r, rfl, of_decide_eq_true h⟩
  | _ => cases h

theorem abandoned_step {w w' : World P} {p : P} {id : Nat} {e : Event P} (h : w.Abandoned p id)
    (hstep : step matchString w e = some w') :
    w'.Abandoned p id ∧ (e.answers p id → w'.Clogged p id ∨ w'.Frozen p) := by
  obtain ⟨q, hq, hcaller, hregistered, hreading⟩ := h
  obtain ⟨q', hq', hqstep⟩ := step_inquiry hstep hq
  obtain ⟨hreading', hcaller', hregistered', -⟩ := hqstep.unread hreading
  have hleft : q'.caller = p ∧ q'.registered ∧ q'.reading = false :=
    ⟨hcaller'.trans hcaller, by rwa [hregistered'], hreading'⟩
  refine ⟨⟨q', hq', hleft⟩, ?_⟩
  intro hanswers
  obtain ⟨r, rfl, hdest, hid⟩ := answers_eq hanswers
  subst hdest hid
  obtain ⟨-, ⟨-, -, hnone⟩ | ⟨q₀, hq₀, -, ⟨-, hset, -⟩ | ⟨hsame, hsending⟩⟩⟩ := step_reply hstep
  · rw [hnone q hq hcaller] at hregistered
    cases hregistered
  · rw [hset, List.getElem?_set_self (List.getElem?_eq_some_iff.mp hq).1, Option.some.injEq] at hq'
    subst hq'
    exact .inl ⟨_, by rw [hset]; exact List.getElem?_set_self (List.getElem?_eq_some_iff.mp hq).1, hleft.1, hleft.2.1,
      hleft.2.2, Option.some_ne_none r⟩
  · exact .inr ⟨r, q', by rw [hsending, Function.update_self], hq', hreading'⟩

theorem clogged_step {w w' : World P} {p : P} {id : Nat} {e : Event P} (h : w.Clogged p id)
    (hstep : step matchString w e = some w') : w'.Clogged p id ∧ (e.answers p id → w'.Frozen p) := by
  obtain ⟨q, hq, hcaller, hregistered, hreading, hfull⟩ := h
  obtain ⟨q', hq', hqstep⟩ := step_inquiry hstep hq
  obtain ⟨hreading', hcaller', hregistered', hfuture⟩ := hqstep.unread hreading
  refine ⟨⟨q', hq', hcaller'.trans hcaller, by rwa [hregistered'], hreading', by rw [hfuture hfull]; exact hfull⟩, ?_⟩
  intro hanswers
  obtain ⟨r, rfl, hdest, hid⟩ := answers_eq hanswers
  subst hdest hid
  obtain ⟨-, ⟨-, -, hnone⟩ | ⟨q₀, hq₀, -, ⟨hempty, -, -⟩ | ⟨-, hsending⟩⟩⟩ := step_reply hstep
  · rw [hnone q hq hcaller] at hregistered
    cases hregistered
  · rw [hq, Option.some.injEq] at hq₀
    subst hq₀
    exact (hfull hempty).elim
  · exact ⟨r, q', by rw [hsending, Function.update_self], hq', hreading'⟩

/-- With a full future, one more reply stops the peer. -/
theorem clogged_run {w w' : World P} {p : P} {id : Nat} {es : List (Event P)} (h : w.Clogged p id)
    (hrun : run (step matchString) w es = some w') (hone : 1 ≤ es.countP (Event.answers p id)) : w'.Frozen p := by
  induction es generalizing w with
  | nil => cases hone
  | cons e es ih =>
    obtain ⟨w₁, hstep, hrun⟩ := Option.bind_eq_some_iff.mp hrun
    obtain ⟨hclogged, hfrozen⟩ := clogged_step h hstep
    by_cases hanswers : e.answers p id
    · exact (frozen_run (hfrozen hanswers) hrun).1
    · rw [List.countP_cons_of_neg hanswers] at hone
      exact ih hclogged hrun hone

/-- Without a reader, two more replies stop it. -/
theorem abandoned_run {w w' : World P} {p : P} {id : Nat} {es : List (Event P)} (h : w.Abandoned p id)
    (hrun : run (step matchString) w es = some w') (htwo : 2 ≤ es.countP (Event.answers p id)) : w'.Frozen p := by
  induction es generalizing w with
  | nil => cases htwo
  | cons e es ih =>
    obtain ⟨w₁, hstep, hrun⟩ := Option.bind_eq_some_iff.mp hrun
    obtain ⟨habandoned, hstops⟩ := abandoned_step h hstep
    by_cases hanswers : e.answers p id
    · rw [List.countP_cons_of_pos hanswers] at htwo
      rcases hstops hanswers with hclogged | hfrozen
      · exact clogged_run hclogged hrun (by omega)
      · exact (frozen_run hfrozen hrun).1
    · rw [List.countP_cons_of_neg hanswers] at htwo
      exact ih habandoned hrun htwo

/-! ## A file that was found -/

/-- The routine that reads has its future in the map, and has found nothing yet. -/
structure Inquiry.Kept (q : Inquiry P) : Prop where
  reading : q.reading → q.registered ∧ q.fullKnownName = none
  found : q.fullKnownName ≠ none → q.registered ∧ q.reading = false

omit [DecidableEq P] in
theorem read_kept {q q' : Inquiry P} {r : Reply P} (h : q.Kept) (hreading : q.reading) (hread : q.read r = some q') :
    q'.Kept := by
  obtain ⟨hregistered, hnone⟩ := h.reading hreading
  unfold Inquiry.read at hread
  split at hread
  · cases hread
  · cases hread
    split
    · unfold Inquiry.check
      split
      · exact ⟨by simp, fun _ => ⟨hregistered, rfl⟩⟩
      · exact ⟨fun _ => ⟨hregistered, hnone⟩, fun hfound => (hfound hnone).elim⟩
    · exact ⟨fun _ => ⟨hregistered, hnone⟩, fun hfound => (hfound hnone).elim⟩

omit [DecidableEq P] in
theorem Inquiry.Step.kept {q q' : Inquiry P} (hstep : q.Step q') (h : q.Kept) : q'.Kept := by
  cases hstep with
  | same => exact h
  | notified r _ _ => exact ⟨h.reading, h.found⟩
  | received r q' future hreading hread =>
    have hkept := read_kept h hreading hread
    exact ⟨hkept.reading, hkept.found⟩
  | timedOut hreading => exact ⟨by simp, fun hfound => (hfound (h.reading hreading).2).elim⟩

theorem run_kept {w : World P} {es : List (Event P)} (hrun : run (step matchString) (.start P) es = some w) :
    ∀ q ∈ w.inquiries, q.Kept := by
  refine run_preserves (fun w => ∀ q ∈ w.inquiries, q.Kept) ?_ es (by simp [World.start]) hrun
  intro w e w' ih hstep q' hq'
  obtain ⟨id, hid⟩ := List.mem_iff_getElem?.mp hq'
  cases hq : w.inquiries[id]? with
  | some q =>
    obtain ⟨q₁, hq₁, hqstep⟩ := step_inquiry hstep hq
    rw [hid, Option.some.injEq] at hq₁
    subst hq₁
    exact hqstep.kept (ih q (List.mem_of_getElem? hq))
  | none =>
    obtain ⟨hregistered, hnone⟩ := step_new hstep hq hid
    exact ⟨fun _ => ⟨hregistered, hnone⟩, fun hfound => (hfound hnone).elim⟩

/-- A search that found its file stops its peer. Any run: once `searchFirstFromNei` has found a file, its future stays
in the map without a reader. Of a request with such a future the listen daemon handles two more replies at most, and
after the second one no packet of any kind. The same holds at once of a peer whose handler waits for room in a future
that nobody reads. -/
theorem found_file_stops_peer (matchString : String → String → Bool) (es later : List (Event P)) (w w' : World P)
    (hrun : run (step matchString) (.start P) es = some w) (hlater : run (step matchString) w later = some w')
    (id : Nat) (q : Inquiry P) (hq : w.inquiries[id]? = some q) :
    (q.fullKnownName ≠ none → q.registered ∧ q.reading = false) ∧
      (q.registered → q.reading = false → ∀ pre post, later = pre ++ post →
        2 ≤ pre.countP (Event.answers q.caller id) → ∀ e ∈ post, e.handledBy q.caller = false) ∧
      (q.reading = false → ∀ p r, w.sending p = some r → r.requestID = id →
        ∀ e ∈ later, e.handledBy p = false) := by
  refine ⟨(run_kept hrun q (List.mem_of_getElem? hq)).found, ?_, ?_⟩
  · rintro hregistered hreading pre post rfl htwo
    obtain ⟨v, hpre, hpost⟩ := run_split pre post hlater
    exact (frozen_run (abandoned_run ⟨q, hq, rfl, hregistered, hreading⟩ hpre htwo) hpost).2
  · rintro hreading p r hr rfl
    exact (frozen_run ⟨r, q, hr, hq, hreading⟩ hlater).2

/-! ## Three neighbors that answer -/

/-- The first neighbor has the file, and `SearchFirst` has read that. -/
def askThree : List (Event (Fin 4)) :=
  [.tag 1 "report" reportMetahash, .store 1 reportMetahash (some reportChunk), .store 1 reportChunk (some [1]),
    .addNeighbor 0 1, .addNeighbor 0 2, .addNeighbor 0 3,
    .searchFirst 0 "report" ⟨3, 2, 1⟩ [] atOnce, .ask 0 ⟨[], 0⟩ 3,
    .request ⟨0, 0, "report", 1, 0, 1⟩ [("report", reportMetahash)] atOnce ⟨[], 0⟩ 0 true,
    .request ⟨0, 0, "report", 1, 0, 2⟩ [] atOnce ⟨[], 0⟩ 0 true,
    .request ⟨0, 0, "report", 1, 0, 3⟩ [] atOnce ⟨[], 0⟩ 0 true,
    .reply ⟨0, 1, 0, [report]⟩, .receive 0]

/-- It returns the name, and the other two answer as well. -/
def othersAnswer : List (Event (Fin 4)) := [.found 0, .reply ⟨0, 2, 0, []⟩, .reply ⟨0, 3, 0, []⟩]

theorem askThree_stops : ∃ w w' q, run (step sameString) (.start (Fin 4)) askThree = some w ∧
    run (step sameString) w othersAnswer = some w' ∧ w.inquiries[0]? = some q ∧ q.fullKnownName = some "report" ∧
    w'.answers.map (·.names) = [["report"]] ∧ (w'.sending 0).isSome ∧
    ((q.fullKnownName ≠ none → q.registered ∧ q.reading = false) ∧
      (q.registered → q.reading = false → ∀ pre post, othersAnswer = pre ++ post →
        2 ≤ pre.countP (Event.answers q.caller 0) → ∀ e ∈ post, e.handledBy q.caller = false) ∧
      (q.reading = false → ∀ p r, w.sending p = some r → r.requestID = 0 →
        ∀ e ∈ othersAnswer, e.handledBy p = false)) := by
  have hcheck : (run (step sameString) (.start (Fin 4)) askThree).any (fun w =>
      (run (step sameString) w othersAnswer).any fun w' => w.inquiries[0]?.any fun q => decide
        (q.fullKnownName = some "report" ∧ w'.answers.map (·.names) = [["report"]] ∧
          (w'.sending 0).isSome)) = true := by
    decide +kernel
  obtain ⟨w, hrun, hcheck⟩ := (Option.any_eq_true _ _).mp hcheck
  obtain ⟨w', hlater, hcheck⟩ := (Option.any_eq_true _ _).mp hcheck
  obtain ⟨q, hq, hcheck⟩ := (Option.any_eq_true _ _).mp hcheck
  obtain ⟨hfound, hanswers, hsending⟩ := of_decide_eq_true hcheck
  exact ⟨w, w', q, hrun, hlater, hq, hfound, hanswers, hsending,
    found_file_stops_peer sameString askThree othersAnswer w w' hrun hlater 0 q hq⟩

end MarketPeer.Catalog

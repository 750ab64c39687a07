import MarketPeer.Dispatch.Model

/-!
# What a step does

`Next` says once what a call does to the registry; `Move` is a step of the node.
-/

namespace MarketPeer.Dispatch

variable {M μ P H : Type} {T : Types M μ P} {n n' : Node M μ P H} {e : Event M P H}
  {r r' : Registry M μ H} {c c' : Call M μ P H}

/-- The call has the read lock and will not give it back. -/
def Call.Unhandled (r : Registry M μ H) : Call M μ P H → Prop
  | .reading pkt _ => r.handlers pkt.type = none
  | .returned (some (.handlerNotFound _)) => True
  | _ => False

/-- The call has got past `r.RLock()`. -/
def Call.past : Call M μ P H → Bool
  | .reading .. | .found .. | .handling .. | .notifying .. => true
  | .returned (some (.notRegistered _)) | .returned (some (.unmarshal _)) => false
  | .returned _ => true
  | _ => false

/-- The call has put its message into the log. -/
def Call.logged : Call M μ P H → Bool
  | .handling .. | .notifying .. | .returned none => true
  | .returned (some (.handler _)) | .returned (some .notifications) => true
  | _ => false

theorem Call.Unhandled.hold (h : c.Unhandled r) : c.hold = .reads := by
  unfold Call.Unhandled at h
  split at h
  · rfl
  · rfl
  · cases h

theorem Call.reads_cases (h : c.hold = .reads) (r : Registry M μ H) :
    c.Unhandled r ∨ ∃ pkt msg exec, c = .reading pkt msg ∧ r.handlers pkt.type = some exec := by
  unfold Call.hold at h
  split at h
  · rename_i pkt msg
    cases hexec : r.handlers pkt.type with
    | none => exact .inl hexec
    | some exec => exact .inr ⟨pkt, msg, exec, rfl, hexec⟩
  · exact .inl trivial
  · cases h
  · cases h
  · cases h

theorem Call.eq_waiting (h : c.hold = .waits) : ∃ m exec, c = .waiting m exec := by
  unfold Call.hold at h
  split at h <;> first | exact ⟨_, _, rfl⟩ | cases h

theorem Call.eq_writing (h : c.hold = .writes) : ∃ m exec, c = .writing m exec := by
  unfold Call.hold at h
  split at h <;> first | exact ⟨_, _, rfl⟩ | cases h

/-- What a call does to the registry on its way from `c` to `c'`. -/
structure Next (r r' : Registry M μ H) (c c' : Call M μ P H) : Prop where
  pass : r.lock.pass c.hold c'.hold = some r'.lock
  handlers : c.hold ≠ .writes → r'.handlers = r.handlers
  registered : c.hold ≠ .writes → ∀ m exec, c' ≠ .registered m exec
  unhandled : c.Unhandled r → c'.Unhandled r'
  past : c'.past = true → c.past = true ∨ r.lock.writer = .none
  log : r'.msgs.length + (if c.logged then 1 else 0) = r.msgs.length + if c'.logged then 1 else 0

theorem getMessage_error {pkt : Packet P} {err : Failure} (h : r.getMessage T pkt = .error err) :
    (Call.returned (some err) : Call M μ P H).hold = .nothing ∧
      (Call.returned (some err) : Call M μ P H).past = false ∧
      (Call.returned (some err) : Call M μ P H).logged = false := by
  unfold Registry.getMessage at h
  split at h
  · cases h
    exact ⟨rfl, rfl, rfl⟩
  · split at h <;> cases h
    exact ⟨rfl, rfl, rfl⟩

theorem next_spec (h : r.next T c = some (r', c')) : Next r r' c c' := by
  cases c with
  | getMessage pkt =>
    simp only [Registry.next] at h
    split at h <;> cases h
    · exact ⟨rfl, fun _ => rfl, nofun, nofun, nofun, rfl⟩
    · rename_i err herr
      obtain ⟨hhold, hpast, hlogged⟩ := getMessage_error (H := H) herr
      refine ⟨by rw [hhold]; rfl, fun _ => rfl, nofun, nofun, fun h => ?_, by rw [hlogged]; rfl⟩
      rw [hpast] at h
      cases h
  | rLock pkt msg =>
    obtain ⟨l, hl, hnext⟩ := Option.map_eq_some_iff.mp h
    cases hnext
    exact ⟨hl, fun _ => rfl, nofun, nofun, fun _ => .inr (Option.dite_none_right_eq_some.mp hl).1, rfl⟩
  | reading pkt msg =>
    simp only [Registry.next] at h
    split at h
    · cases h
      exact ⟨rfl, fun _ => rfl, nofun, fun _ => trivial, fun _ => .inl rfl, rfl⟩
    · rename_i h' hh
      obtain ⟨l, hl, hnext⟩ := Option.map_eq_some_iff.mp h
      cases hnext
      refine ⟨hl, fun _ => rfl, nofun, fun hnone => ?_, fun _ => .inl rfl, rfl⟩
      cases hh.symm.trans hnone
  | found pkt msg h' =>
    cases h
    exact ⟨rfl, fun _ => rfl, nofun, nofun, fun _ => .inl rfl, by simp [Call.logged]⟩
  | add m exec =>
    cases h
    exact ⟨rfl, fun _ => rfl, nofun, nofun, nofun, rfl⟩
  | lock m exec | waiting m exec =>
    obtain ⟨l, hl, hnext⟩ := Option.map_eq_some_iff.mp h
    cases hnext
    exact ⟨hl, fun _ => rfl, nofun, nofun, nofun, rfl⟩
  | writing m exec =>
    obtain ⟨l, hl, hnext⟩ := Option.map_eq_some_iff.mp h
    cases hnext
    exact ⟨hl, fun hne => absurd rfl hne, fun hne => absurd rfl hne, nofun, nofun, rfl⟩
  | handling | notifying | returned | registered => cases h

/-- When the handlers have returned. -/
theorem result_spec (h : (∃ err, c.handled err = some c') ∨ ∃ late, c.notified late = some c') : Next r r c c' := by
  rcases h with ⟨err, h⟩ | ⟨late, h⟩
  · unfold Call.handled at h
    split at h
    · split at h <;> cases h
      · exact ⟨rfl, fun _ => rfl, nofun, nofun, fun _ => .inl rfl, rfl⟩
      · exact ⟨rfl, fun _ => rfl, nofun, nofun, fun _ => .inl rfl, rfl⟩
    · cases h
  · unfold Call.notified at h
    split at h
    · cases h
      cases late
      · exact ⟨rfl, fun _ => rfl, nofun, nofun, fun _ => .inl rfl, rfl⟩
      · exact ⟨rfl, fun _ => rfl, nofun, nofun, fun _ => .inl rfl, rfl⟩
    · cases h

/-- A step is a new call, a new type, or one call that goes on. -/
inductive Move (n n' : Node M μ P H) : Prop
  | call (c : Call M μ P H) (hhold : c.hold = .nothing) (hpast : c.past = false)
      (hreg : ∀ m exec, c ≠ .registered m exec) (hn : n' = { n with calls := n.calls ++ [c] })
  | type (r : Registry M μ H) (hlock : r.lock = n.registry.lock) (hhandlers : r.handlers = n.registry.handlers)
      (hn : n' = { n with registry := r })
  | next (i : Nat) (c c' : Call M μ P H) (r : Registry M μ H) (hi : n.calls[i]? = some c)
      (hnext : Next n.registry r c c') (hn : n' = ⟨r, n.calls.set i c'⟩)

theorem step_move (h : step T n e = some n') : Move n n' := by
  cases e with
  | processPacket pkt => exact .call (.getMessage pkt) rfl rfl nofun (Option.some.inj h).symm
  | registerMessageCallback m exec => exact .call (.add m exec) rfl rfl nofun (Option.some.inj h).symm
  | globalAdd m => exact .type (n.registry.globalAdd T m) rfl rfl (Option.some.inj h).symm
  | next i =>
    obtain ⟨c, hi, h⟩ := Option.bind_eq_some_iff.mp h
    obtain ⟨⟨r, c'⟩, hr, hn⟩ := Option.map_eq_some_iff.mp h
    exact .next i c c' r hi (next_spec hr) hn.symm
  | handled i err =>
    obtain ⟨c, hi, h⟩ := Option.bind_eq_some_iff.mp h
    obtain ⟨c', hc, hn⟩ := Option.map_eq_some_iff.mp h
    exact .next i c c' n.registry hi (result_spec (.inl ⟨err, hc⟩)) hn.symm
  | notified i late =>
    obtain ⟨c, hi, h⟩ := Option.bind_eq_some_iff.mp h
    obtain ⟨c', hc, hn⟩ := Option.map_eq_some_iff.mp h
    exact .next i c c' n.registry hi (result_spec (.inr ⟨late, hc⟩)) hn.symm

end MarketPeer.Dispatch

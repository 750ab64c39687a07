import MarketPeer.Dispatch.Steps

/-!
# A packet that nobody handles

`ProcessPacket` returns with the read lock when its node has no handler for the type of
the packet. From then on `RegisterMessageCallback` does not get the write lock, and once it
waits for it no packet comes to a handler.
-/

namespace MarketPeer.Dispatch

variable {M μ P H : Type} {T : Types M μ P} {n n' : Node M μ P H} {e : Event M P H}
  {r r' : Registry M μ H} {c c' : Call M μ P H}

/-! ## The lock -/

def Node.Tracked (n : Node M μ P H) : Prop := n.registry.lock.Tracks Call.hold n.calls

theorem Node.new_tracked (messages : String → Option M) : (Node.new messages : Node M μ P H).Tracked :=
  RWLock.Tracks.free nofun

theorem Move.tracked (h : Move n n') (ht : n.Tracked) : n'.Tracked := by
  cases h with
  | call c hhold hpast hreg hn =>
    subst hn
    exact RWLock.Tracks.append ht hhold
  | type r hlock hhandlers hn =>
    subst hn
    unfold Node.Tracked
    rw [hlock]
    exact ht
  | next i c c' r hi hnext hn =>
    subst hn
    exact RWLock.Tracks.pass ht hi hnext.pass

/-- The lock is held by the calls alone, those included that returned with it. -/
theorem run_tracked (es : List (Event M P H)) (ht : n.Tracked) (hrun : run (step T) n es = some n') : n'.Tracked :=
  run_preserves Node.Tracked (fun _ _ _ ht hstep => (step_move hstep).tracked ht) es ht hrun

/-! ## Stuck -/

def Node.Leaks (n : Node M μ P H) : Prop := ∃ c ∈ n.calls, c.Unhandled n.registry

theorem Node.Leaks.readers_pos (h : n.Leaks) (ht : n.Tracked) : 0 < n.registry.lock.readers := by
  obtain ⟨c, hc, hunhandled⟩ := h
  exact ht.readers_pos hc hunhandled.hold

theorem Node.Leaks.not_writing (h : n.Leaks) (ht : n.Tracked) (hc : c ∈ n.calls) : c.hold ≠ .writes := by
  intro hwrites
  exact absurd (n.registry.lock.alone (ht.writing hc hwrites)) (Nat.ne_of_gt (h.readers_pos ht))

/-- What stays as it is while the read lock is leaked; with a writer that waits, also no call gets past
`r.RLock()`. -/
structure Stuck (n n' : Node M μ P H) : Prop where
  handlers : n'.registry.handlers = n.registry.handlers
  registered : ∀ (i : Nat) (m : M) (exec : H),
    n'.calls[i]? = some (.registered m exec) → n.calls[i]? = some (.registered m exec)
  waiting : n.registry.lock.writer = .waiting → n'.registry.lock.writer = .waiting
  past : n.registry.lock.writer = .waiting → ∀ (i : Nat) (c' : Call M μ P H), n'.calls[i]? = some c' →
    c'.past = true → ∃ c, n.calls[i]? = some c ∧ c.past = true

theorem Stuck.refl (n : Node M μ P H) : Stuck n n := ⟨rfl, fun _ _ _ h => h, fun h => h, fun _ _ c h hc => ⟨c, h, hc⟩⟩

theorem Stuck.trans {n'' : Node M μ P H} (h : Stuck n n') (h' : Stuck n' n'') : Stuck n n'' where
  handlers := h'.handlers.trans h.handlers
  registered i m exec hreg := h.registered i m exec (h'.registered i m exec hreg)
  waiting hw := h'.waiting (h.waiting hw)
  past hw i c' hi hpast := by
    obtain ⟨c, hi', hpast'⟩ := h'.past (h.waiting hw) i c' hi hpast
    exact h.past hw i c hi' hpast'

theorem Call.Unhandled.congr (h : c.Unhandled r) (hr : r'.handlers = r.handlers) : c.Unhandled r' := by
  unfold Call.Unhandled at h ⊢
  split at h
  · rw [hr]
    exact h
  · trivial
  · cases h

theorem Move.leaks (h : Move n n') (ht : n.Tracked) (hleaks : n.Leaks) : n'.Leaks := by
  obtain ⟨d, hd, hunhandled⟩ := hleaks
  cases h with
  | call c hhold hpast hreg hn =>
    subst hn
    exact ⟨d, List.mem_append_left [c] hd, hunhandled⟩
  | type r hlock hhandlers hn =>
    subst hn
    exact ⟨d, hd, hunhandled.congr hhandlers⟩
  | next i c c' r hi hnext hn =>
    subst hn
    have hsame := hnext.handlers (Node.Leaks.not_writing ⟨d, hd, hunhandled⟩ ht (List.mem_of_getElem? hi))
    obtain ⟨j, hj⟩ := List.mem_iff_getElem?.mp hd
    by_cases hij : i = j
    · subst hij
      cases hi.symm.trans hj
      have hset : (n.calls.set i c')[i]? = some c' := (List.getElem?_set_self' ..).trans (by rw [hi]; rfl)
      exact ⟨c', List.mem_of_getElem? hset, hnext.unhandled hunhandled⟩
    · refine ⟨d, List.mem_of_getElem? ((List.getElem?_set_ne hij).trans hj), hunhandled.congr hsame⟩

theorem Move.stuck (h : Move n n') (ht : n.Tracked) (hleaks : n.Leaks) : Stuck n n' := by
  cases h with
  | call c hhold hpast hreg hn =>
    subst hn
    have hnew (i : Nat) (d : Call M μ P H) (hi : (n.calls ++ [c])[i]? = some d) : n.calls[i]? = some d ∨ d = c := by
      rcases Nat.lt_or_ge i n.calls.length with hlt | hge
      · exact .inl ((List.getElem?_append_left hlt).symm.trans hi)
      · rw [List.getElem?_append_right hge] at hi
        exact .inr (List.mem_singleton.mp (List.mem_of_getElem? hi))
    refine ⟨rfl, fun i m exec hi => ?_, fun h => h, fun _ i d hi hd => ?_⟩
    · exact (hnew i _ hi).resolve_right fun heq => hreg m exec heq.symm
    · rcases hnew i d hi with hi | rfl
      · exact ⟨d, hi, hd⟩
      · cases hpast.symm.trans hd
  | type r hlock hhandlers hn =>
    subst hn
    exact ⟨hhandlers, fun _ _ _ h => h, fun h => hlock ▸ h, fun _ _ d h hd => ⟨d, h, hd⟩⟩
  | next j c c' r hj hnext hn =>
    subst hn
    have hhold := hleaks.not_writing ht (List.mem_of_getElem? hj)
    have hset (i : Nat) (d : Call M μ P H) (hi : (n.calls.set j c')[i]? = some d) :
        n.calls[i]? = some d ∨ (i = j ∧ d = c') := by
      by_cases hij : j = i
      · subst hij
        rw [List.getElem?_set_self' , hj] at hi
        exact .inr ⟨rfl, (Option.some.inj hi).symm⟩
      · exact .inl ((List.getElem?_set_ne hij).symm.trans hi)
    refine ⟨hnext.handlers hhold, fun i m exec hi => ?_, fun hw => ?_, fun hw i d hi hd => ?_⟩
    · exact (hset i _ hi).resolve_right fun heq => hnext.registered hhold m exec heq.2.symm
    · exact RWLock.pass_waiting hnext.pass hw (hleaks.readers_pos ht)
    · rcases hset i d hi with hi | ⟨rfl, rfl⟩
      · exact ⟨d, hi, hd⟩
      · refine ⟨c, hj, (hnext.past hd).resolve_right fun hnone => ?_⟩
        cases hw.symm.trans hnone

theorem run_stuck (es : List (Event M P H)) (ht : n.Tracked) (hleaks : n.Leaks) (hrun : run (step T) n es = some n') :
    Stuck n n' := by
  have hall : n'.Tracked ∧ n'.Leaks ∧ Stuck n n' :=
    run_preserves (fun w => w.Tracked ∧ w.Leaks ∧ Stuck n w)
      (fun _ _ _ ⟨ht, hleaks, hstuck⟩ hstep =>
        have hmove := step_move hstep
        ⟨hmove.tracked ht, hmove.leaks ht hleaks, hstuck.trans (hmove.stuck ht hleaks)⟩)
      es ⟨ht, hleaks, .refl n⟩ hrun
  exact hall.2.2

/-! ## Not stuck -/

/-- A call that has returned stays so. -/
theorem step_registered {i : Nat} {m : M} {exec : H} (h : step T n e = some n')
    (hi : n.calls[i]? = some (.registered m exec)) : n'.calls[i]? = some (.registered m exec) := by
  have hkeep (j : Nat) (d d' : Call M μ P H) (hj : n.calls[j]? = some d) (hd : d ≠ .registered m exec) :
      (n.calls.set j d')[i]? = some (.registered m exec) := by
    rw [List.getElem?_set_ne fun hij => hd ?_]
    · exact hi
    · subst hij
      exact Option.some.inj (hj.symm.trans hi)
  have happend (c : Call M μ P H) : (n.calls ++ [c])[i]? = some (.registered m exec) :=
    (List.getElem?_append_left (List.getElem?_eq_some_iff.mp hi).1).trans hi
  cases e with
  | processPacket pkt =>
    cases h
    exact happend _
  | registerMessageCallback m exec =>
    cases h
    exact happend _
  | globalAdd m =>
    cases h
    exact hi
  | next j =>
    obtain ⟨c, hj, h⟩ := Option.bind_eq_some_iff.mp h
    obtain ⟨⟨r, c'⟩, hr, hn⟩ := Option.map_eq_some_iff.mp h
    cases hn
    exact hkeep j c c' hj fun hc => by rw [hc] at hr; cases hr
  | handled j err =>
    obtain ⟨c, hj, h⟩ := Option.bind_eq_some_iff.mp h
    obtain ⟨c', hr, hn⟩ := Option.map_eq_some_iff.mp h
    cases hn
    exact hkeep j c c' hj fun hc => by rw [hc] at hr; cases hr
  | notified j late =>
    obtain ⟨c, hj, h⟩ := Option.bind_eq_some_iff.mp h
    obtain ⟨c', hr, hn⟩ := Option.map_eq_some_iff.mp h
    cases hn
    exact hkeep j c c' hj fun hc => by rw [hc] at hr; cases hr

/-- A call of `RegisterMessageCallback` returns between `n` and `n'`. -/
def Registers (n n' : Node M μ P H) : Prop :=
  ∃ (i : Nat) (m : M) (exec : H), n'.calls[i]? = some (.registered m exec) ∧ n.calls[i]? ≠ some (.registered m exec)

theorem Registers.of_run {n'' : Node M μ P H} (es : List (Event M P H)) (hrun : run (step T) n es = some n')
    (h : Registers n' n'') : Registers n n'' := by
  obtain ⟨i, m, exec, hreg, hnot⟩ := h
  refine ⟨i, m, exec, hreg, fun hi => hnot ?_⟩
  exact run_preserves (fun w => w.calls[i]? = some (.registered m exec))
    (fun _ _ _ hi hstep => step_registered hstep hi) es hi hrun

theorem step_next {i : Nat} (hi : n.calls[i]? = some c) (hr : n.registry.next T c = some (r, c')) :
    step T n (.next i) = some ⟨r, n.calls.set i c'⟩ := by
  simp [step, hi, hr]

/-- The readers leave the lock, one after the other. -/
theorem drain (hclean : ¬ n.Leaks) (ht : n.Tracked) : ∃ es n', run (step T) n es = some n' ∧
    n'.registry.lock.readers = 0 ∧ n'.registry.lock.writer = n.registry.lock.writer := by
  induction hk : n.registry.lock.readers generalizing n with
  | zero => exact ⟨[], n, rfl, hk, rfl⟩
  | succ k ih =>
    obtain ⟨c, hc, hreads⟩ := ht.exists_reader (by omega)
    obtain ⟨pkt, msg, h, rfl, hh⟩ := (Call.reads_cases hreads n.registry).resolve_left fun hu => hclean ⟨c, hc, hu⟩
    obtain ⟨i, hi⟩ := List.mem_iff_getElem?.mp hc
    obtain ⟨r, hr, hhandlers, hreaders, hsame⟩ : ∃ r,
        n.registry.next T (.reading pkt msg) = some (r, .found pkt msg h) ∧ r.handlers = n.registry.handlers ∧
        r.lock.readers = k ∧ r.lock.writer = n.registry.lock.writer := by
      simp [Registry.next, hh, RWLock.rUnlock, hk]
    have hstep := step_next hi hr
    have hclean' : ¬ Node.Leaks ⟨r, n.calls.set i (.found pkt msg h)⟩ := by
      rintro ⟨d, hd, hu⟩
      rcases List.mem_or_eq_of_mem_set hd with hd | rfl
      · exact hclean ⟨d, hd, hu.congr hhandlers.symm⟩
      · exact hu
    obtain ⟨es, n', hrun, hzero, hwriter⟩ := ih hclean' ((step_move hstep).tracked ht) hreaders
    exact ⟨.next i :: es, n', (run_cons hstep es).trans hrun, hzero, hwriter.trans hsame⟩

/-- The writer has the lock. -/
theorem registers_of_writing (ht : n.Tracked) (hw : n.registry.lock.writer = .writing) :
    ∃ es n', run (step T) n es = some n' ∧ Registers n n' := by
  obtain ⟨c, hc, hwrites⟩ := ht.exists_writing hw
  obtain ⟨m, exec, rfl⟩ := Call.eq_writing hwrites
  obtain ⟨i, hi⟩ := List.mem_iff_getElem?.mp hc
  obtain ⟨l, hl⟩ : ∃ l, n.registry.lock.unlock = some l := by simp [RWLock.unlock, hw]
  have hr : n.registry.next T (.writing m exec) =
      some ({ n.registry.setHandler T m exec with lock := l }, .registered m exec) := by
    simp [Registry.next, hl]
  refine ⟨[.next i], _, run_cons (step_next hi hr) [], i, m, exec, ?_, ?_⟩
  · exact (List.getElem?_set_self' ..).trans (by rw [hi]; rfl)
  · simp [hi]

theorem registers_of_waiting (hclean : ¬ n.Leaks) (ht : n.Tracked) (hw : n.registry.lock.writer = .waiting) :
    ∃ es n', run (step T) n es = some n' ∧ Registers n n' := by
  obtain ⟨es, n₁, hrun, hzero, hwriter⟩ := drain (T := T) hclean ht
  have ht₁ := run_tracked es ht hrun
  obtain ⟨c, hc, hwaits⟩ := ht₁.exists_waiting (hwriter.trans hw)
  obtain ⟨m, exec, rfl⟩ := Call.eq_waiting hwaits
  obtain ⟨i, hi⟩ := List.mem_iff_getElem?.mp hc
  obtain ⟨l, hl, hwriting⟩ : ∃ l, n₁.registry.lock.acquire = some l ∧ l.writer = .writing := by
    simp [RWLock.acquire, hwriter, hw, hzero]
  have hr : n₁.registry.next T (.waiting m exec) = some ({ n₁.registry with lock := l }, .writing m exec) := by
    simp [Registry.next, hl]
  have hstep := step_next hi hr
  obtain ⟨es', n', hrun', hreg⟩ := registers_of_writing (T := T) ((step_move hstep).tracked ht₁) hwriting
  have hgo := run_append es _ hrun (run_cons hstep es' |>.trans hrun')
  exact ⟨_, n', hgo, (hreg.of_run [.next i] (run_cons hstep [])).of_run es hrun⟩

/-- A new call announces itself. -/
theorem announces (hclean : ¬ n.Leaks) (hw : n.registry.lock.writer = .none) (m : M) (exec : H) :
    ∃ es n', run (step T) n es = some n' ∧ ¬ n'.Leaks ∧ n'.registry.lock.writer = .waiting := by
  obtain ⟨l, hl, hwaiting⟩ : ∃ l, n.registry.lock.announce = some l ∧ l.writer = .waiting := by
    simp [RWLock.announce, hw]
  have hfirst : step T n (.registerMessageCallback m exec) = some ⟨n.registry, n.calls ++ [.add m exec]⟩ := rfl
  have hadd : step T ⟨n.registry, n.calls ++ [.add m exec]⟩ (.next n.calls.length) =
      some ⟨n.registry.globalAdd T m, n.calls ++ [.lock m exec]⟩ := by
    simp [step, Registry.next]
  have hlock : step T ⟨n.registry.globalAdd T m, n.calls ++ [.lock m exec]⟩ (.next n.calls.length) =
      some ⟨{ n.registry.globalAdd T m with lock := l }, n.calls ++ [.waiting m exec]⟩ := by
    simp [step, Registry.next, Registry.globalAdd, hl]
  refine ⟨_, _, (run_cons hfirst _).trans ((run_cons hadd _).trans (run_cons hlock [])), ?_, hwaiting⟩
  rintro ⟨d, hd, hu⟩
  rcases List.mem_append.mp hd with hd | hd
  · exact hclean ⟨d, hd, hu.congr rfl⟩
  · cases List.mem_singleton.mp hd
    exact hu

section Node

variable {messages : String → Option M} (es : List (Event M P H))

/-- A call of `RegisterMessageCallback` can return for as long as no call of `ProcessPacket` has kept the
read lock, or is about to. -/
theorem can_register_iff_not_leaks (m : M) (exec : H) (hrun : run (step T) (Node.new messages) es = some n) :
    (∃ es' n', run (step T) n es' = some n' ∧ Registers n n') ↔ ¬ n.Leaks := by
  have ht : n.Tracked := run_tracked es (Node.new_tracked messages) hrun
  constructor
  · rintro ⟨es', n', hrun', i, m', exec', hreg, hnot⟩ hleaks
    exact hnot ((run_stuck es' ht hleaks hrun').registered i m' exec' hreg)
  · intro hclean
    cases hw : n.registry.lock.writer with
    | none =>
      obtain ⟨es₁, n₁, hrun₁, hclean₁, hw₁⟩ := announces (T := T) hclean hw m exec
      obtain ⟨es₂, n', hrun₂, hreg⟩ := registers_of_waiting (T := T) hclean₁ (run_tracked es₁ ht hrun₁) hw₁
      exact ⟨es₁ ++ es₂, n', run_append es₁ es₂ hrun₁ hrun₂, hreg.of_run es₁ hrun₁⟩
    | waiting => exact registers_of_waiting hclean ht hw
    | writing => exact registers_of_writing ht hw

/-- From the moment that a call of `RegisterMessageCallback` waits for a lock that has been kept, no packet
comes to its handler that is not with it already, and the handlers stay what they are. -/
theorem no_packet_is_handled (hrun : run (step T) (Node.new messages) es = some n) (hleaks : n.Leaks)
    (hw : n.registry.lock.writer = .waiting) (es' : List (Event M P H)) (hrun' : run (step T) n es' = some n') :
    n'.registry.handlers = n.registry.handlers ∧
    ∀ (i : Nat) (c' : Call M μ P H), n'.calls[i]? = some c' → c'.past = true →
      ∃ c, n.calls[i]? = some c ∧ c.past = true := by
  have ht : n.Tracked := run_tracked es (Node.new_tracked messages) hrun
  have hstuck := run_stuck es' ht hleaks hrun'
  exact ⟨hstuck.handlers, hstuck.past hw⟩

end Node

/-! ## A node without a miner -/

/-- Messages that are their own name; handlers are numbers. -/
def plainTypes : Types String String String := ⟨id, fun _ payload => .ok payload⟩

/-- Another node of the process has a miner. This one gets a block first and starts its miner then. -/
def earlyBlock : List (Event String String Nat) :=
  [.globalAdd "blockmessage", .processPacket ⟨"blockmessage", "block"⟩, .next 0, .next 0, .next 0,
    .registerMessageCallback "blockmessage" 0, .next 1, .next 1]

theorem earlyBlock_keeps_out_miner : ∃ n, run (step plainTypes) (Node.new fun _ => none) earlyBlock = some n ∧
    ¬ ∃ es' n', run (step plainTypes) n es' = some n' ∧ Registers n n' :=
  ⟨_, rfl, fun h => (can_register_iff_not_leaks earlyBlock "blockmessage" 0 rfl).mp h
    ⟨.returned (some (.handlerNotFound "blockmessage")), List.mem_cons_self, trivial⟩⟩

theorem earlyBlock_stops_node : ∃ n, run (step plainTypes) (Node.new fun _ => none) earlyBlock = some n ∧
    ∀ es' n', run (step plainTypes) n es' = some n' → n'.registry.handlers = n.registry.handlers ∧
      ∀ (i : Nat) (c' : Call String String String Nat), n'.calls[i]? = some c' → c'.past = true →
        ∃ c, n.calls[i]? = some c ∧ c.past = true :=
  ⟨_, rfl, fun es' _ => no_packet_is_handled earlyBlock rfl
    ⟨.returned (some (.handlerNotFound "blockmessage")), List.mem_cons_self, trivial⟩ rfl es'⟩

end MarketPeer.Dispatch

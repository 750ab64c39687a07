import MarketPeer.Dispatch.Unhandled

/-!
# Delivery

What a handler is called with, and what the registry logs.
-/

namespace MarketPeer.Dispatch

variable {M μ P H : Type} (T : Types M μ P) {n n' : Node M μ P H} {e : Event M P H} {es es' : List (Event M P H)}
  {r r' : Registry M μ H} {c c' : Call M μ P H}

/-- The packet came in, and `msg` is what it holds under the type that it names. -/
def Decodes (es : List (Event M P H)) (pkt : Packet P) (msg : μ) : Prop :=
  .processPacket pkt ∈ es ∧ ∃ m, T.name m = pkt.type ∧ T.unmarshal m pkt.payload = .ok msg

/-- `exec` was registered for the type. -/
def RegisteredFor (es : List (Event M P H)) (type : String) (exec : H) : Prop :=
  ∃ m, .registerMessageCallback m exec ∈ es ∧ T.name m = type

def Call.Sound (es : List (Event M P H)) : Call M μ P H → Prop
  | .getMessage pkt => .processPacket pkt ∈ es
  | .rLock pkt msg | .reading pkt msg | .notifying pkt msg => Decodes T es pkt msg
  | .found pkt msg h | .handling pkt msg h => Decodes T es pkt msg ∧ RegisteredFor T es pkt.type h
  | .returned _ => True
  | .add m exec | .lock m exec | .waiting m exec | .writing m exec | .registered m exec =>
    .registerMessageCallback m exec ∈ es

/-- Both tables are filled under the names of the types. -/
structure Registry.Sound (es : List (Event M P H)) (r : Registry M μ H) : Prop where
  messages : ∀ t m, r.messages t = some m → T.name m = t
  handlers : ∀ t h, r.handlers t = some h → RegisteredFor T es t h
  msgs : ∀ msg ∈ r.msgs, ∃ pkt, Decodes T es pkt msg

structure Node.Sound (es : List (Event M P H)) (n : Node M μ P H) : Prop where
  registry : n.registry.Sound T es
  calls : ∀ c ∈ n.calls, c.Sound T es
  log : n.registry.msgs.length = n.calls.countP Call.logged

variable {T}

theorem Decodes.mono {pkt : Packet P} {msg : μ} (h : Decodes T es pkt msg) (hes : es ⊆ es') : Decodes T es' pkt msg :=
  ⟨hes h.1, h.2⟩

theorem RegisteredFor.mono {type : String} {exec : H} (h : RegisteredFor T es type exec) (hes : es ⊆ es') :
    RegisteredFor T es' type exec := by
  obtain ⟨m, hm, hname⟩ := h
  exact ⟨m, hes hm, hname⟩

theorem Call.Sound.mono (h : c.Sound T es) (hes : es ⊆ es') : c.Sound T es' := by
  cases c with
  | rLock | reading | notifying => exact Decodes.mono h hes
  | found | handling => exact ⟨Decodes.mono h.1 hes, RegisteredFor.mono h.2 hes⟩
  | returned => trivial
  | getMessage | add | lock | waiting | writing | registered => exact hes h

theorem Registry.Sound.mono (h : r.Sound T es) (hes : es ⊆ es') : r.Sound T es' where
  messages := h.messages
  handlers t exec ht := (h.handlers t exec ht).mono hes
  msgs msg hmsg := by
    obtain ⟨pkt, hpkt⟩ := h.msgs msg hmsg
    exact ⟨pkt, hpkt.mono hes⟩

theorem Registry.Sound.globalAdd (h : r.Sound T es) (m : M) : (r.globalAdd T m).Sound T es where
  messages t m' hm := by
    by_cases ht : t = T.name m
    · subst ht
      simp only [Registry.globalAdd, Function.update_self, Option.some.injEq] at hm
      rw [← hm]
    · simp only [Registry.globalAdd, Function.update_of_ne ht] at hm
      exact h.messages t m' hm
  handlers := h.handlers
  msgs := h.msgs

theorem Registry.Sound.setHandler (h : r.Sound T es) {m : M} {exec : H} (hm : .registerMessageCallback m exec ∈ es) :
    (r.setHandler T m exec).Sound T es where
  messages := h.messages
  handlers t exec' ht := by
    by_cases hname : t = T.name m
    · subst hname
      simp only [Registry.setHandler, Function.update_self, Option.some.injEq] at ht
      exact ⟨m, ht ▸ hm, rfl⟩
    · simp only [Registry.setHandler, Function.update_of_ne hname] at ht
      exact h.handlers t exec' ht
  msgs := h.msgs

theorem getMessage_decodes (hr : r.Sound T es) {pkt : Packet P} {msg : μ} (hpkt : .processPacket pkt ∈ es)
    (h : r.getMessage T pkt = .ok msg) : Decodes T es pkt msg := by
  unfold Registry.getMessage at h
  split at h
  · cases h
  · rename_i m hm
    split at h <;> cases h
    rename_i hmsg
    exact ⟨hpkt, m, hr.messages _ m hm, hmsg⟩

theorem next_sound (h : r.next T c = some (r', c')) (hr : r.Sound T es) (hc : c.Sound T es) :
    r'.Sound T es ∧ c'.Sound T es := by
  cases c with
  | getMessage pkt =>
    simp only [Registry.next] at h
    split at h <;> cases h
    · rename_i hmsg
      exact ⟨hr, getMessage_decodes hr hc hmsg⟩
    · exact ⟨hr, trivial⟩
  | reading pkt msg =>
    simp only [Registry.next] at h
    split at h
    · cases h
      exact ⟨hr, trivial⟩
    · rename_i exec hexec
      obtain ⟨l, -, hnext⟩ := Option.map_eq_some_iff.mp h
      cases hnext
      exact ⟨⟨hr.messages, hr.handlers, hr.msgs⟩, hc, hr.handlers _ exec hexec⟩
  | found pkt msg exec =>
    cases h
    refine ⟨⟨hr.messages, hr.handlers, fun msg' hmsg => ?_⟩, hc⟩
    rcases List.mem_append.mp hmsg with hmsg | hmsg
    · exact hr.msgs msg' hmsg
    · exact ⟨pkt, List.mem_singleton.mp hmsg ▸ hc.1⟩
  | add m exec =>
    cases h
    exact ⟨hr.globalAdd m, hc⟩
  | rLock pkt msg | lock m exec | waiting m exec =>
    obtain ⟨l, -, hnext⟩ := Option.map_eq_some_iff.mp h
    cases hnext
    exact ⟨⟨hr.messages, hr.handlers, hr.msgs⟩, hc⟩
  | writing m exec =>
    obtain ⟨l, -, hnext⟩ := Option.map_eq_some_iff.mp h
    cases hnext
    have hset := hr.setHandler hc
    exact ⟨⟨hset.messages, hset.handlers, hset.msgs⟩, hc⟩
  | handling | notifying | returned | registered => cases h

theorem handled_sound {err : Option String} (h : c.handled err = some c') (hc : c.Sound T es) : c'.Sound T es := by
  unfold Call.handled at h
  split at h
  · split at h <;> cases h
    · trivial
    · exact hc.1
  · cases h

theorem notified_sound {late : Bool} (h : c.notified late = some c') : c'.Sound T es := by
  unfold Call.notified at h
  split at h <;> cases h
  trivial

theorem Node.Sound.mono (h : n.Sound T es) (hes : es ⊆ es') : n.Sound T es' :=
  ⟨h.registry.mono hes, fun c hc => (h.calls c hc).mono hes, h.log⟩

theorem Node.Sound.append (h : n.Sound T es) (hc : c.Sound T es) (hlogged : c.logged = false) :
    Node.Sound T es { n with calls := n.calls ++ [c] } where
  registry := h.registry
  calls d hd := by
    rcases List.mem_append.mp hd with hd | hd
    · exact h.calls d hd
    · exact List.mem_singleton.mp hd ▸ hc
  log := by simp [h.log, hlogged]

theorem Node.Sound.set (h : n.Sound T es) {i : Nat} (hi : n.calls[i]? = some c) (hr : r.Sound T es)
    (hc : c'.Sound T es)
    (hlog : r.msgs.length + (if c.logged then 1 else 0) = n.registry.msgs.length + if c'.logged then 1 else 0) :
    Node.Sound T es ⟨r, n.calls.set i c'⟩ where
  registry := hr
  calls d hd := by
    rcases List.mem_or_eq_of_mem_set hd with hd | rfl
    · exact h.calls d hd
    · exact hc
  log := by
    have hcount := countP_set_add hi c' Call.logged
    rw [← h.log] at hcount
    exact Nat.add_right_cancel (hlog.trans hcount.symm)

theorem step_sound (h : n.Sound T es) (hstep : step T n e = some n') : n'.Sound T (es ++ [e]) := by
  have hmono : n.Sound T (es ++ [e]) := h.mono (List.subset_append_left es [e])
  have hlast : e ∈ es ++ [e] := List.mem_append_right es (List.mem_singleton.mpr rfl)
  cases e with
  | processPacket pkt =>
    cases hstep
    exact hmono.append hlast rfl
  | registerMessageCallback m exec =>
    cases hstep
    exact hmono.append hlast rfl
  | globalAdd m =>
    cases hstep
    exact ⟨hmono.registry.globalAdd m, hmono.calls, hmono.log⟩
  | next i =>
    obtain ⟨c, hi, hnext⟩ := Option.bind_eq_some_iff.mp hstep
    obtain ⟨⟨r, c'⟩, hr, hn⟩ := Option.map_eq_some_iff.mp hnext
    cases hn
    obtain ⟨hsound, hsound'⟩ := next_sound hr hmono.registry (hmono.calls c (List.mem_of_getElem? hi))
    exact hmono.set hi hsound hsound' (next_spec hr).log
  | handled i err =>
    obtain ⟨c, hi, hnext⟩ := Option.bind_eq_some_iff.mp hstep
    obtain ⟨c', hc, hn⟩ := Option.map_eq_some_iff.mp hnext
    cases hn
    have hsound := handled_sound hc (hmono.calls c (List.mem_of_getElem? hi))
    exact hmono.set hi hmono.registry hsound (result_spec (.inl ⟨err, hc⟩)).log
  | notified i late =>
    obtain ⟨c, hi, hnext⟩ := Option.bind_eq_some_iff.mp hstep
    obtain ⟨c', hc, hn⟩ := Option.map_eq_some_iff.mp hnext
    cases hn
    exact hmono.set hi hmono.registry (notified_sound hc) (result_spec (.inr ⟨late, hc⟩)).log

/-- A handler is called with what a packet held, and is one that was registered for its type; the log has a
message of a packet for each call that has got so far, and no others. -/
theorem run_delivers {messages : String → Option M} (hmessages : ∀ t m, messages t = some m → T.name m = t)
    (es : List (Event M P H)) (hrun : run (step T) (Node.new messages) es = some n) :
    (∀ pkt msg h, Call.handling pkt msg h ∈ n.calls → Decodes T es pkt msg ∧ RegisteredFor T es pkt.type h) ∧
    (∀ msg ∈ n.registry.msgs, ∃ pkt, Decodes T es pkt msg) ∧
    n.registry.msgs.length = n.calls.countP Call.logged := by
  have hnew : (Node.new messages).Sound T ([] : List (Event M P H)) := ⟨⟨hmessages, nofun, nofun⟩, nofun, rfl⟩
  have hsound : n.Sound T es :=
    run_snoc_induction (motive := fun es n => n.Sound T es) hnew (fun _ _ _ _ _ ih hstep => step_sound ih hstep) es hrun
  exact ⟨fun pkt msg h hc => hsound.calls _ hc, hsound.registry.msgs, hsound.log⟩

/-- A node with a handler for blocks gets a block. -/
def handledBlock : List (Event String String Nat) :=
  [.registerMessageCallback "blockmessage" 7, .next 0, .next 0, .next 0, .next 0,
    .processPacket ⟨"blockmessage", "block"⟩, .next 1, .next 1, .next 1, .next 1]

theorem handledBlock_delivers : ∃ n, run (step plainTypes) (Node.new fun _ => none) handledBlock = some n ∧
    n.registry.msgs = ["block"] ∧
    (∀ pkt msg h, Call.handling pkt msg h ∈ n.calls →
      Decodes plainTypes handledBlock pkt msg ∧ RegisteredFor plainTypes handledBlock pkt.type h) ∧
    n.registry.msgs.length = n.calls.countP Call.logged := by
  have hrun : ∃ n, run (step plainTypes) (Node.new fun _ => none) handledBlock = some n ∧ n.registry.msgs = ["block"] :=
    ⟨_, rfl, rfl⟩
  obtain ⟨n, hrun, hmsgs⟩ := hrun
  obtain ⟨hhandling, -, hlog⟩ := run_delivers (by nofun) handledBlock hrun
  exact ⟨n, hrun, hmsgs, hhandling, hlog⟩

end MarketPeer.Dispatch

import MarketPeer.Gossip.Changes
import Mathlib.Data.List.Infix

/-!
# Who hears what in a network

Whatever happens to packets, a node has the first rumors of each origin and no others,
and hands them on in their order. The origin handles its own messages in the routines of
its broadcasts, once each.
-/

namespace MarketPeer.Gossip

/-! ## Rumors are those of their origin -/

/-- What the node has of its own rumors is all there is. -/
def Network.rumorsOf (w : Network) (o : String) : List Rumor := (w.nodes o).messager.store.rumorsOf o

/-- The rumor is from its origin, or a zero. -/
def Network.Original (w : Network) (r : Rumor) : Prop := r = .zero ∨ r ∈ w.rumorsOf r.origin

structure Genuine (w : Network) : Prop where
  prefixes : ∀ a o, (w.nodes a).messager.store.rumorsOf o <+: w.rumorsOf o
  heard : ∀ a, ∀ c ∈ (w.nodes a).messager.calls, (∀ r ∈ c.rest, w.Original r) ∧ ∀ r ∈ c.message, w.Original r
  carried : ∀ f ∈ w.flights, ∀ rumors, f.packet.body = .gossip (.rumors rumors) → ∀ r ∈ rumors, w.Original r

section Steps

variable {w w' : Network} {a : String} {e : NodeEvent} {m' : Messager}

theorem init_rumorsOf (o : String) : Network.init.rumorsOf o = [] := by
  have hnil : Store.empty.rumorsOf o = [] := Std.ExtTreeMap.getD_empty
  exact hnil

theorem genuine_init : Genuine .init where
  prefixes a o := List.prefix_rfl
  heard _ := by simp [Network.init, newNode, newMessager]
  carried := by simp [Network.init]

theorem Change.rumorsOf (h : Change w w' a e m') (o : String) : w.rumorsOf o <+: w'.rumorsOf o := by
  unfold Network.rumorsOf
  rcases h.node_or o with ⟨rfl, ho⟩ | ⟨-, ho⟩
  · rw [ho]
    cases h.took with
    | nothing store taken route => rw [store]
    | rumor call r hcall hr store taken route =>
      rw [store.rumorsOf]
      split_ifs
      · exact List.prefix_append ..
      · exact List.prefix_rfl
    | own r plain origin store taken route event =>
      rw [store.rumorsOf, if_pos origin]
      exact List.prefix_append ..
  · rw [ho]

theorem Change.original (h : Change w w' a e m') {r : Rumor} (hr : w.Original r) : w'.Original r := by
  rcases hr with hzero | hmem
  · exact .inl hzero
  · exact .inr ((h.rumorsOf r.origin).subset hmem)

/-- The next rumor of an origin, at another node. -/
theorem Genuine.next (hg : Genuine w) (hw : Wired w) {call : Call} {r : Rumor} {s : Store}
    (hcall : call ∈ (w.nodes a).messager.calls) (hr : r ∈ call.rest)
    (hstore : (w.nodes a).messager.store.Extends r s) :
    r.origin ≠ a ∧ (w.rumorsOf r.origin)[((w.nodes a).messager.store.rumorsOf r.origin).length]? = some r := by
  have hnext := hstore.next
  rcases (hg.heard a call hcall).1 r hr with rfl | hmem
  · exact absurd hnext (by simp [Rumor.zero, Rumor.sequence])
  · obtain ⟨i, hi⟩ := List.getElem?_of_mem hmem
    obtain ⟨-, hsequence⟩ := (hw.delivered r.origin).ok.numbered _ i r hi
    have hindex : i = ((w.nodes a).messager.store.rumorsOf r.origin).length := by omega
    rw [hindex] at hi
    refine ⟨?_, hi⟩
    intro horigin
    have hlt := (List.getElem?_eq_some_iff.mp hi).1
    unfold Network.rumorsOf at hlt
    rw [horigin] at hlt
    exact Nat.lt_irrefl _ hlt

theorem Genuine.prefixes_step (hg : Genuine w) (hw : Wired w) (h : Change w w' a e m') (b o : String) :
    (w'.nodes b).messager.store.rumorsOf o <+: w'.rumorsOf o := by
  have hgrown := h.rumorsOf o
  rcases h.node_or b with ⟨rfl, hb⟩ | ⟨-, hb⟩
  · rw [hb]
    cases h.took with
    | nothing store taken route =>
      rw [store]
      exact (hg.prefixes b o).trans hgrown
    | rumor call r hcall hr store taken route =>
      obtain ⟨horigin, hnext⟩ := hg.next hw hcall hr store
      rw [store.rumorsOf]
      split_ifs with ho
      · subst ho
        refine List.IsPrefix.trans ?_ hgrown
        obtain ⟨rest, hrest⟩ := hg.prefixes b r.origin
        rw [← hrest, List.getElem?_append_right (Nat.le_refl _), Nat.sub_self] at hnext
        cases rest with
        | nil => cases hnext
        | cons x rest =>
          rw [List.getElem?_cons_zero, Option.some.injEq] at hnext
          subst hnext
          exact ⟨rest, by rw [← hrest, List.append_assoc]; rfl⟩
      · exact (hg.prefixes b o).trans hgrown
    | own r plain origin store taken route event =>
      by_cases ho : o = b
      · subst ho
        unfold Network.rumorsOf
        rw [hb]
      · rw [store.rumorsOf, if_neg (by rw [origin]; exact Ne.symm ho)]
        exact (hg.prefixes b o).trans hgrown
  · rw [hb]
    exact (hg.prefixes b o).trans hgrown

theorem genuine_step (hw : Wired w) (hw' : Wired w') (hg : Genuine w) (h : Change w w' a e m') : Genuine w' := by
  have hprefixes := hg.prefixes_step hw h
  -- What is in a store comes from its origin.
  have hstored {r : Rumor} (hr : m'.store.Sends r) : w'.Original r := by
    rcases hr with hzero | ⟨o, i, hi⟩
    · exact .inl hzero
    · rw [← h.node] at hi
      obtain ⟨rfl, -⟩ := (hw'.delivered a).ok.numbered o i r hi
      exact .inr ((hprefixes a r.origin).subset (List.mem_of_getElem? hi))
  refine ⟨hprefixes, ?_, ?_⟩
  · intro b
    rcases h.node_or b with ⟨rfl, hb⟩ | ⟨-, hb⟩
    · rw [hb]
      intro c hc
      cases (h.calls c hc).1 with
      | old c₀ hc₀ relayedBy message rest =>
        obtain ⟨hrest, hmessage⟩ := hg.heard _ c₀ hc₀
        exact ⟨fun r hr => h.original (hrest r (rest r hr)), fun r hr => h.original (hmessage r (message ▸ hr))⟩
      | new f hf hop body relayedBy rest =>
        have horiginal := fun r hr => h.original (hg.carried f hf _ body r hr)
        exact ⟨rest ▸ horiginal, horiginal⟩
    · rw [hb]
      intro c hc
      obtain ⟨hrest, hmessage⟩ := hg.heard b c hc
      exact ⟨fun r hr => h.original (hrest r hr), fun r hr => h.original (hmessage r hr)⟩
  · obtain ⟨new, hflights, hnew⟩ := h.flights
    intro f hf rumors hbody r hr
    rw [hflights] at hf
    rcases List.mem_append.mp hf with hf | hf
    · exact h.original (hg.carried f hf rumors hbody r hr)
    · cases hnew f hf with
      | gossip id sent heq hop content =>
        rw [heq] at hbody
        cases hbody
        rcases content with hfrom | ⟨randNei, call, outer, -, hcalls, -, hsame⟩
        · exact hstored (hfrom r hr)
        · cases hsame
          exact h.original ((hg.heard a call (by rw [hcalls]; exact List.mem_cons_self)).2 r hr)
      | app id dest content hsend =>
        rw [(mem_send hsend).2.1] at hbody
        cases hbody
      | relay f₀ h₀ hop dest hsend =>
        rw [(mem_send hsend).2.1] at hbody
        exact h.original (hg.carried f₀ h₀ rumors hbody r hr)

end Steps

/-! ## Every run -/

/-- What every network that runs this code keeps to. -/
structure Sound (w : Network) : Prop where
  wired : Wired w
  genuine : Genuine w

theorem sound_step (w : Network) (ev : NetEvent) (w' : Network) (h : Sound w) (hstep : netStep w ev = some w') :
    Sound w' := by
  have hwired := wired_step w ev w' h.wired hstep
  obtain ⟨-, m', hchange⟩ := netStep_change h.wired hstep
  exact ⟨hwired, genuine_step h.wired hwired h.genuine hchange⟩

theorem sound_run {es : List NetEvent} {w : Network} (hrun : run netStep .init es = some w) : Sound w :=
  run_preserves Sound sound_step es ⟨wired_init, genuine_init⟩ hrun

section Broadcasts

variable {w w' : Network} {ev : NetEvent}

/-- The rumors of a node itself grow by what it broadcasts. -/
theorem rumorsOf_step (hs : Sound w) (hstep : netStep w ev = some w') (o : String) :
    (w'.rumorsOf o).map Rumor.msg = (w.rumorsOf o).map Rumor.msg ++ (ev.broadcastAt o).toList.map some := by
  obtain ⟨-, m', hchange⟩ := netStep_change hs.wired hstep
  obtain ⟨a, e⟩ := ev
  unfold Network.rumorsOf
  by_cases hbroadcast : ∃ msg, e = .broadcast msg
  · obtain ⟨msg, rfl⟩ := hbroadcast
    rw [netStep, Option.ite_none_left_eq_some, nodeStep, Option.ite_none_right_eq_some] at hstep
    obtain ⟨-, -, hstep⟩ := hstep
    obtain ⟨n', hn', rfl⟩ := Option.map_eq_some_iff.mp hstep
    obtain ⟨store, hextends, rfl⟩ := broadcast_eq (hs.wired.delivered a).ok hn'
    by_cases ho : a = o
    · subst ho
      have haddr := (hs.wired.delivered a).addr
      rw [commit_node, hextends.rumorsOf, Rumor.origin, if_pos haddr]
      simp [NetEvent.broadcastAt, Rumor.msg]
    · rw [commit_others w a _ [] o (Ne.symm ho)]
      simp [NetEvent.broadcastAt, ho]
  · have hnone : NetEvent.broadcastAt o ⟨a, e⟩ = none := by
      unfold NetEvent.broadcastAt
      split
      · rename_i msg hevent
        exact absurd ⟨msg, hevent⟩ hbroadcast
      · rfl
    rw [hnone]
    rcases hchange.node_or o with ⟨rfl, ho⟩ | ⟨-, ho⟩
    · rw [ho]
      cases hchange.took with
      | nothing store taken route => simp [store]
      | rumor call r hcall hr store taken route =>
        rw [store.rumorsOf, if_neg (hs.genuine.next hs.wired hcall hr store).1]
        simp
      | own r plain origin store taken route event => exact absurd event hbroadcast
    · simp [ho]

theorem rumorsOf_run {es : List NetEvent} (hrun : run netStep .init es = some w) (o : String) :
    (w.rumorsOf o).map Rumor.msg = (broadcastsOf o es).map some := by
  refine run_snoc_induction (motive := fun es w => (w.rumorsOf o).map Rumor.msg = (broadcastsOf o es).map some)
    ?_ ?_ es hrun
  · rw [init_rumorsOf]
    rfl
  · intro es ev s s' hs ih hstep
    rw [rumorsOf_step (sound_run hs) hstep, ih, broadcastsOf, broadcastsOf, List.filterMap_append, List.map_append]
    cases h : ev.broadcastAt o <;> simp [h]

/-- What a node hands on of the messages of another node are the first ones that this node was told to
broadcast, in the same order; and of two nodes one has heard the same as the other, or more. -/
theorem deliveries_are_prefixes (es : List NetEvent) (w : Network) (hrun : run netStep .init es = some w) (o : String) :
    (∀ a, a ≠ o → ((w.nodes a).messager.processed.filter (·.origin = o)).map Rumor.msg <+: (broadcastsOf o es).map some) ∧
    ∀ a b, (w.nodes a).messager.store.rumorsOf o <+: (w.nodes b).messager.store.rumorsOf o ∨
      (w.nodes b).messager.store.rumorsOf o <+: (w.nodes a).messager.store.rumorsOf o := by
  have hsound := sound_run hrun
  refine ⟨?_, fun a b => List.prefix_or_prefix_of_prefix (hsound.genuine.prefixes a o) (hsound.genuine.prefixes b o)⟩
  intro a ha
  rw [(hsound.wired.delivered a).processed o (Ne.symm ha), ← rumorsOf_run hrun o]
  exact (hsound.genuine.prefixes a o).map _

/-- What one node does. -/
def eventsOf (a : String) (events : List NodeEvent) : List NetEvent := events.map (⟨a, ·⟩)

/-- A packet with `n` rumors comes, and they are handled. -/
def heed (k n : Nat) (randNei : String) : List NodeEvent :=
  .receive k [] none :: List.replicate n .nextRumor ++ [.done randNei]

/-- `A` and `C` only know `B`, which passes on what `A` broadcasts and relays the answer. -/
def helloRun : List NetEvent :=
  eventsOf "B" [.addPeer "A", .addPeer "C"] ++ eventsOf "A" [.addPeer "B", .broadcast (.payload "hello"), .attempt 0 "B" true] ++
    eventsOf "B" (heed 0 1 "C") ++ eventsOf "C" (heed 2 1 "B") ++ eventsOf "A" [.receive 1 [] none, .acked 0] ++
      eventsOf "C" [.unicast "A" "hi"] ++ eventsOf "B" [.receive 4 [] none]

theorem deliveries_are_prefixes_hello : ∃ w, run netStep .init helloRun = some w ∧
    (w.nodes "C").messager.processed.length = 1 ∧
      ((w.nodes "C").messager.processed.filter (·.origin = "A")).map Rumor.msg <+: (broadcastsOf "A" helloRun).map some := by
  have hcheck : (run netStep .init helloRun).any (fun w => (w.nodes "C").messager.processed.length = 1) = true := by
    decide +kernel
  obtain ⟨w, hrun, hlength⟩ := (Option.any_eq_true _ _).mp hcheck
  exact ⟨w, hrun, of_decide_eq_true hlength, (deliveries_are_prefixes helloRun w hrun "A").1 "C" (by decide)⟩

end Broadcasts

/-! ## A node's own messages -/

/-- The own messages whose routine has not had its first round. -/
def Node.pending (n : Node) : List Rumor := (n.broadcasts.filter (·.tried = 0)).map (·.rumor)

structure HandledOnce (w : Network) (a : String) : Prop where
  processed : ∀ b ∈ (w.nodes a).broadcasts, b.processed = true ↔ b.tried ≠ 0
  waiting : ∀ b ∈ (w.nodes a).broadcasts, b.waiting ≠ none → b.tried ≠ 0
  own : (((w.nodes a).handled ++ (w.nodes a).pending).map Rumor.msg).Perm ((w.rumorsOf a).map Rumor.msg)

theorem perm_take_out {bs : List Attempt} {i : Nat} {b : Attempt} (h : bs[i]? = some b) : bs.Perm (b :: bs.eraseIdx i) := by
  obtain ⟨hi, rfl⟩ := List.getElem?_eq_some_iff.mp h
  exact (List.getElem_cons_eraseIdx_perm hi).symm

theorem perm_set {bs : List Attempt} {i : Nat} {b : Attempt} (h : bs[i]? = some b) (b' : Attempt) :
    (bs.set i b').Perm (b' :: bs.eraseIdx i) := by
  obtain ⟨hi, -⟩ := List.getElem?_eq_some_iff.mp h
  have hset : (bs.set i b')[i]? = some b' := List.getElem?_set_self hi
  have := perm_take_out hset
  rwa [List.eraseIdx_set_eq] at this

/-- Routines that are through with their message do not count. -/
theorem pending_of_perm {n : Node} {bs : List Attempt} {b : Attempt} (h : n.broadcasts.Perm (b :: bs)) :
    n.pending.Perm ((if b.tried = 0 then [b.rumor] else []) ++ (bs.filter (·.tried = 0)).map (·.rumor)) := by
  unfold Node.pending
  refine ((h.filter _).map _).trans ?_
  rw [List.filter_cons]
  split_ifs <;> simp_all

section Own

variable {w w' : Network} {ev : NetEvent}

/-- One step of the routines. -/
theorem RoutinesMove.once {n n' : Node} {own : Option Message} (h : RoutinesMove n n' own)
    (hprocessed : ∀ b ∈ n.broadcasts, b.processed = true ↔ b.tried ≠ 0)
    (hwaiting : ∀ b ∈ n.broadcasts, b.waiting ≠ none → b.tried ≠ 0) :
    (∀ b ∈ n'.broadcasts, b.processed = true ↔ b.tried ≠ 0) ∧ (∀ b ∈ n'.broadcasts, b.waiting ≠ none → b.tried ≠ 0) ∧
    ((n'.handled ++ n'.pending).map Rumor.msg).Perm
      ((n.handled ++ n.pending).map Rumor.msg ++ own.toList.map some) := by
  have hgone {i : Nat} {b : Attempt} (hbs : n'.broadcasts = n.broadcasts.eraseIdx i) (hb : b ∈ n'.broadcasts) :
      b ∈ n.broadcasts := List.mem_of_mem_eraseIdx (hbs ▸ hb)
  cases h with
  | same broadcasts handled =>
    unfold Node.pending
    rw [broadcasts, handled]
    exact ⟨hprocessed, hwaiting, by simp⟩
  | started r msg content plain origin store broadcasts handled =>
    refine ⟨?_, ?_, ?_⟩
    · intro b hb
      rw [broadcasts] at hb
      rcases List.mem_append.mp hb with hb | hb
      · exact hprocessed b hb
      · rw [List.mem_singleton.mp hb]
        simp
    · intro b hb
      rw [broadcasts] at hb
      rcases List.mem_append.mp hb with hb | hb
      · exact hwaiting b hb
      · rw [List.mem_singleton.mp hb]
        simp
    · unfold Node.pending
      rw [broadcasts, handled]
      simp [content]
  | alone i b hb tried broadcasts handled =>
    refine ⟨fun b hb => hprocessed b (hgone broadcasts hb), fun b hb => hwaiting b (hgone broadcasts hb), ?_⟩
    have hold := pending_of_perm (perm_take_out hb)
    rw [if_pos tried] at hold
    have hnew : n'.pending = ((n.broadcasts.eraseIdx i).filter (·.tried = 0)).map (·.rumor) := by
      rw [Node.pending, broadcasts]
    rw [handled, hnew, Option.toList_none, List.map_nil, List.append_nil, List.append_assoc]
    exact (hold.symm.append_left _).map _
  | tried i b b' hb neighbors rumor next processed broadcasts handled =>
    have hmem := List.mem_of_getElem? hb
    have hold := pending_of_perm (perm_take_out hb)
    -- The routine that goes on, or ends, has had its first round.
    have hnew : n'.pending.Perm (((n.broadcasts.eraseIdx i).filter (·.tried = 0)).map (·.rumor)) := by
      rcases broadcasts with broadcasts | broadcasts
      · have := pending_of_perm (n := n') (broadcasts ▸ perm_set hb b')
        rwa [if_neg next, List.nil_append] at this
      · rw [Node.pending, broadcasts]
    have hrest : ∀ x ∈ n'.broadcasts, x ∈ n.broadcasts ∨ x = b' := by
      intro x hx
      rcases broadcasts with broadcasts | broadcasts
      · exact List.mem_or_eq_of_mem_set (broadcasts ▸ hx)
      · exact .inl (hgone broadcasts hx)
    refine ⟨?_, ?_, ?_⟩
    · intro x hx
      rcases hrest x hx with hx | rfl
      · exact hprocessed x hx
      · simp [processed, next]
    · intro x hx
      rcases hrest x hx with hx | rfl
      · exact hwaiting x hx
      · exact fun _ => next
    · rw [handled, Option.toList_none, List.map_nil, List.append_nil]
      refine List.Perm.map _ ?_
      by_cases hzero : b.tried = 0
      · have hfirst : ¬ b.processed = true := fun h => (hprocessed b hmem).mp h hzero
        rw [if_neg hfirst, List.append_assoc]
        rw [if_pos hzero] at hold
        exact ((hnew.append_left _).trans hold.symm).append_left _
      · rw [if_pos ((hprocessed b hmem).mpr hzero)]
        rw [if_neg hzero, List.nil_append] at hold
        exact (hnew.trans hold.symm).append_left _
  | waited i b hb waiting broadcasts handled =>
    have hmem := List.mem_of_getElem? hb
    have hnext := hwaiting b hmem waiting
    have hold := pending_of_perm (perm_take_out hb)
    rw [if_neg hnext, List.nil_append] at hold
    have hnew : n'.pending.Perm (((n.broadcasts.eraseIdx i).filter (·.tried = 0)).map (·.rumor)) := by
      rcases broadcasts with broadcasts | broadcasts
      · have := pending_of_perm (n := n') (broadcasts ▸ perm_set hb { b with waiting := none })
        rwa [if_neg hnext, List.nil_append] at this
      · rw [Node.pending, broadcasts]
    have hrest : ∀ x ∈ n'.broadcasts, x ∈ n.broadcasts ∨ x = { b with waiting := none } := by
      intro x hx
      rcases broadcasts with broadcasts | broadcasts
      · exact List.mem_or_eq_of_mem_set (broadcasts ▸ hx)
      · exact .inl (hgone broadcasts hx)
    refine ⟨?_, ?_, ?_⟩
    · intro x hx
      rcases hrest x hx with hx | rfl
      · exact hprocessed x hx
      · exact hprocessed b hmem
    · intro x hx
      rcases hrest x hx with hx | rfl
      · exact hwaiting x hx
      · exact fun _ => hnext
    · rw [handled, Option.toList_none, List.map_nil, List.append_nil]
      exact ((hnew.trans hold.symm).append_left _).map _

theorem handledOnce_step (a : String) (h : Sound w ∧ HandledOnce w a) (hstep : netStep w ev = some w') :
    Sound w' ∧ HandledOnce w' a := by
  obtain ⟨hs, honce⟩ := h
  refine ⟨sound_step w ev w' hs hstep, ?_⟩
  have hown := rumorsOf_step hs hstep a
  obtain ⟨-, m', hchange⟩ := netStep_change hs.wired hstep
  rcases hchange.node_or a with ⟨rfl, -⟩ | ⟨hne, ha⟩
  · obtain ⟨hprocessed, hwaiting, hperm⟩ := (netStep_routines hs.wired hstep).once honce.processed honce.waiting
    refine ⟨hprocessed, hwaiting, ?_⟩
    rw [hown]
    exact hperm.trans (honce.own.append_right _)
  · have hnone : ev.broadcastAt a = none := by
      unfold NetEvent.broadcastAt
      split
      · rw [if_neg (Ne.symm hne)]
      · rfl
    rw [hnone, Option.toList_none, List.map_nil, List.append_nil] at hown
    refine ⟨by rw [ha]; exact honce.processed, by rw [ha]; exact honce.waiting, ?_⟩
    rw [hown, ha]
    exact honce.own

/-- A node handles every message that it was told to broadcast once, when it is the turn of its routine,
whatever becomes of acks and neighbors. -/
theorem own_messages_handled_once (es : List NetEvent) (w : Network) (hrun : run netStep .init es = some w) (a : String) :
    (((w.nodes a).handled ++ (w.nodes a).pending).map Rumor.msg).Perm ((broadcastsOf a es).map some) := by
  have hinit : HandledOnce .init a := by
    refine ⟨by simp [Network.init, newNode], by simp [Network.init, newNode], ?_⟩
    rw [init_rumorsOf]
    simp [Network.init, newNode, Node.pending]
  obtain ⟨-, honce⟩ := run_preserves (fun w => Sound w ∧ HandledOnce w a)
    (fun w ev w' h hstep => handledOnce_step a h hstep) es ⟨⟨wired_init, genuine_init⟩, hinit⟩ hrun
  rw [← rumorsOf_run hrun a]
  exact honce.own

theorem own_messages_handled_once_hello : ∃ w, run netStep .init helloRun = some w ∧
    (w.nodes "A").handled.length = 1 ∧
      (((w.nodes "A").handled ++ (w.nodes "A").pending).map Rumor.msg).Perm ((broadcastsOf "A" helloRun).map some) := by
  have hcheck : (run netStep .init helloRun).any (fun w => (w.nodes "A").handled.length = 1) = true := by decide +kernel
  obtain ⟨w, hrun, hlength⟩ := (Option.any_eq_true _ _).mp hcheck
  exact ⟨w, hrun, of_decide_eq_true hlength, own_messages_handled_once helloRun w hrun "A"⟩

end Own

end MarketPeer.Gossip

import MarketPeer.Gossip.Routes
import Mathlib.Algebra.Order.BigOperators.Group.Finset
import Mathlib.Logic.Relation

/-!
# Everybody can hear everything

Whatever has happened to a network, nodes that are linked can still come to the same
rumors without a new broadcast: they go through with what they are at, and ask their
neighbors for what they lack, until nobody lacks anything.
-/

namespace MarketPeer.Gossip

/-! ## What never goes back -/

/-- A later network has at least what it had. -/
structure Grown (w w' : Network) : Prop where
  heard : ∀ a o, w.heard a o ≤ w'.heard a o
  neighbors : ∀ a, ∀ x ∈ (w.nodes a).messager.neighbors, x ∈ (w'.nodes a).messager.neighbors
  flights : w.flights <+: w'.flights

theorem Grown.refl (w : Network) : Grown w w := ⟨fun _ _ => Nat.le_refl _, fun _ _ h => h, List.prefix_rfl⟩

theorem Grown.trans {w w' w'' : Network} (h : Grown w w') (h' : Grown w' w'') : Grown w w'' where
  heard a o := (h.heard a o).trans (h'.heard a o)
  neighbors a x hx := h'.neighbors a x (h.neighbors a x hx)
  flights := h.flights.trans h'.flights

/-- The network can go on to `w'` without a new message and without a new wait. -/
structure GoesOn (w w' : Network) : Prop where
  runs : ∃ es, run netStep w es = some w' ∧ ∀ o, broadcastsOf o es = []
  sound : Sound w'
  grown : Grown w w'
  own : ∀ o, w'.rumorsOf o = w.rumorsOf o
  waits : ∀ a, (w'.nodes a).waitsFor = (w.nodes a).waitsFor

theorem GoesOn.heard_own {w w' : Network} (h : GoesOn w w') (o : String) : w'.heard o o = w.heard o o :=
  congrArg List.length (h.own o)

theorem GoesOn.refl {w : Network} (hs : Sound w) : GoesOn w w :=
  ⟨⟨[], rfl, fun _ => rfl⟩, hs, .refl w, fun _ => rfl, fun _ => rfl⟩

theorem GoesOn.trans {w w' w'' : Network} (h : GoesOn w w') (h' : GoesOn w' w'') : GoesOn w w'' := by
  obtain ⟨es, hrun, hes⟩ := h.runs
  obtain ⟨es', hrun', hes'⟩ := h'.runs
  refine ⟨⟨es ++ es', run_append es es' hrun hrun', ?_⟩, h'.sound, h.grown.trans h'.grown,
    fun o => (h'.own o).trans (h.own o), fun a => (h'.waits a).trans (h.waits a)⟩
  intro o
  rw [broadcastsOf, List.filterMap_append]
  exact List.append_eq_nil_iff.mpr ⟨hes o, hes' o⟩

section Steps

variable {w w' : Network} {ev : NetEvent} {a : String}

theorem grown_step (hs : Sound w) (hstep : netStep w ev = some w') : Grown w w' := by
  obtain ⟨-, m', h⟩ := netStep_change hs.wired hstep
  obtain ⟨new, hflights, -⟩ := h.flights
  refine ⟨h.heard_le, ?_, ⟨new, hflights.symm⟩⟩
  intro a x hx
  rcases h.node_or a with ⟨rfl, ha⟩ | ⟨-, ha⟩
  · rw [ha]
    exact h.known x hx
  · rwa [ha]

/-- A step that broadcasts nothing. -/
theorem goesOn_step (hs : Sound w) (hstep : netStep w ev = some w') (hquiet : ∀ o, ev.broadcastAt o = none)
    (hwaits : ∀ a, (w'.nodes a).waitsFor = (w.nodes a).waitsFor) : GoesOn w w' := by
  refine ⟨⟨[ev], by rw [run_cons hstep]; rfl, ?_⟩, sound_step w ev w' hs hstep, grown_step hs hstep, ?_, hwaits⟩
  · intro o
    simp [broadcastsOf, hquiet]
  · intro o
    obtain ⟨-, m', h⟩ := netStep_change hs.wired hstep
    have hown := congrArg List.length (rumorsOf_step hs hstep o)
    simp only [hquiet, Option.toList_none, List.map_nil, List.append_nil, List.length_map] at hown
    exact ((h.rumorsOf o).eq_of_length hown.symm).symm

/-- A step of the messager alone. -/
theorem commit_waits (m' : Messager) (b : String) :
    ((w.commit a { w.nodes a with messager := m' } []).nodes b).waitsFor = (w.nodes b).waitsFor := by
  by_cases hb : b = a
  · rw [hb, commit_node]
  · rw [commit_others w a _ [] b hb]

/-! ## Going through with calls -/

/-- What there is to do in the calls of a node. -/
def work (calls : List Call) : Nat := (calls.map fun c => c.rest.length + 1).sum

theorem neighborsExcept_ne_nil {m : Messager} (hnodup : m.neighbors.Nodup) (except : String) : m.neighborsExcept except ≠ [] := by
  unfold Messager.neighborsExcept
  split
  · simp
  · simp
  · rename_i hnone hone
    match hneis : m.neighbors with
    | [] => exact absurd hneis hnone
    | [x] => exact absurd hneis (hone x)
    | x :: y :: neis =>
      rw [hneis] at hnodup
      simp only [List.nodup_cons, List.mem_cons, not_or] at hnodup
      intro hempty
      simp only [List.filter_eq_nil_iff, List.mem_cons, decide_eq_true_eq, not_not] at hempty
      exact hnodup.1.1 ((hempty x (.inl rfl)).trans (hempty y (.inr (.inl rfl))).symm)

/-- A rumor of a call can be stored when it is the next one. -/
theorem accept_heard (hs : Sound w) {call : Call} {r : Rumor} (hcall : call ∈ (w.nodes a).messager.calls) (hr : r ∈ call.rest)
    (hexpects : (w.nodes a).messager.store.expects r) : ∃ s, (w.nodes a).messager.store.accept r = some s := by
  have hok := (hs.wired.delivered a).ok
  rcases (hs.genuine.heard a call hcall).1 r hr with rfl | hmem
  · exact absurd hexpects (Store.not_expects_zero hok)
  · obtain ⟨i, hi⟩ := List.getElem?_of_mem hmem
    have howner := (hs.wired.delivered r.origin).ok
    obtain ⟨-, hsequence⟩ := howner.numbered _ i r hi
    have hnext := (Store.expects_iff hok r).mp hexpects
    have hlt := (List.getElem?_eq_some_iff.mp hi).1
    have hsmall := howner.small r.origin
    unfold Network.rumorsOf at hlt
    exact Store.accept_eq_some (by omega)

/-- One round of `RumorsMsgCallback` in a network. -/
theorem nextRumor_goes (hs : Sound w) {call : Call} {outer : List Call} {r : Rumor} {rest : List Rumor}
    (hcalls : (w.nodes a).messager.calls = call :: outer) (hrest : call.rest = r :: rest) :
    ∃ m', step (w.nodes a).messager .nextRumor = some m' ∧ work m'.calls < work (w.nodes a).messager.calls ∧
      ((w.nodes a).messager.store.Extends r m'.store ∨
        (¬ (w.nodes a).messager.store.expects r ∧ m'.store = (w.nodes a).messager.store ∧
          m'.calls = { call with rest } :: outer)) := by
  have hcall : call ∈ (w.nodes a).messager.calls := by rw [hcalls]; exact List.mem_cons_self
  have hr : r ∈ call.rest := by rw [hrest]; exact List.mem_cons_self
  have hstep : step (w.nodes a).messager .nextRumor = nextRumor (w.nodes a).messager call r rest outer := by
    simp only [step, hcalls, hrest]
  have hless (isNew : Bool) : work ({ call with rest, isNew } :: outer) < work (w.nodes a).messager.calls := by
    simp only [work, hcalls, List.map_cons, List.sum_cons, hrest, List.length_cons]
    omega
  rw [hstep]
  unfold nextRumor
  split_ifs with hexpects
  · obtain ⟨s, haccept⟩ := accept_heard hs hcall hr hexpects
    have hextends := Store.accept_extends (hs.wired.delivered a).ok hexpects haccept
    have hplain := (hs.wired.heard a call hcall).1 r hr
    have hne := (hs.wired.calls a call hcall).1
    rw [haccept]
    refine ⟨_, rfl, ?_⟩
    simp only [setRoutingEntry_eq hne]
    cases hmsg : r.msg with
    | none =>
      refine ⟨?_, .inl hextends⟩
      simp only [work, hcalls, List.map_cons, List.sum_cons]
      omega
    | some msg =>
      simp only [process]
      rw [opened_of_higher _ msg (hplain msg (by simp [hmsg]))]
      exact ⟨hless true, .inl hextends⟩
  · exact ⟨_, rfl, hless call.isNew, .inr ⟨hexpects, rfl, rfl⟩⟩

/-- A call that is through can end. -/
theorem done_goes (hs : Sound w) {call : Call} {outer : List Call}
    (hcalls : (w.nodes a).messager.calls = call :: outer) (hrest : call.rest = []) :
    ∃ nei m', step (w.nodes a).messager (.done nei) = some m' ∧ work m'.calls < work (w.nodes a).messager.calls := by
  obtain ⟨nei, hnei⟩ := List.exists_mem_of_ne_nil _ (neighborsExcept_ne_nil (hs.wired.neighbors a).1 call.relayedBy)
  obtain ⟨new, hfinish, -⟩ := finish_sends { (w.nodes a).messager with calls := outer } call nei
  refine ⟨nei, finish { (w.nodes a).messager with calls := outer } call nei, ?_, ?_⟩
  · simp only [step, hcalls]
    rw [if_pos ⟨hrest, hnei⟩]
  · rw [hfinish]
    simp only [work, hcalls, List.map_cons, List.sum_cons]
    omega

/-- The innermost call has a rumor that the node lacks. -/
def Fresh (m : Messager) : Prop := ∃ call outer, m.calls = call :: outer ∧ ∃ r ∈ call.rest, m.store.expects r

theorem netStep_nextRumor (ha : a ≠ "") {m' : Messager} (h : step (w.nodes a).messager .nextRumor = some m') :
    netStep w ⟨a, .nextRumor⟩ = some (w.commit a { w.nodes a with messager := m' } []) := by
  unfold netStep
  rw [if_neg ha, nodeStep, h, Option.map_some]

theorem netStep_done (ha : a ≠ "") {nei : String} {m' : Messager} (h : step (w.nodes a).messager (.done nei) = some m') :
    netStep w ⟨a, .done nei⟩ = some (w.commit a { w.nodes a with messager := m' } []) := by
  unfold netStep
  rw [if_neg ha, nodeStep, h, Option.map_some]

/-- A node goes through with its calls, and hears something when there is something new. -/
theorem goesOn_drained (hs : Sound w) (ha : a ≠ "") : ∃ w', GoesOn w w' ∧ (w'.nodes a).messager.calls = [] ∧
    (∀ b, b ≠ a → w'.nodes b = w.nodes b) ∧ (Fresh (w.nodes a).messager → ∃ o, w.heard a o < w'.heard a o) := by
  -- By induction on what there is to do.
  induction hk : work (w.nodes a).messager.calls using Nat.strongRecOn generalizing w with
  | ind k ih =>
    cases hcalls : (w.nodes a).messager.calls with
    | nil =>
      refine ⟨w, .refl hs, hcalls, fun _ _ => rfl, ?_⟩
      rintro ⟨call, outer, hfresh, -⟩
      rw [hcalls] at hfresh
      cases hfresh
    | cons call outer =>
      cases hrest : call.rest with
      | nil =>
        obtain ⟨nei, m', hm', hless⟩ := done_goes hs hcalls hrest
        have hstep := netStep_done ha hm'
        have hgoes := goesOn_step hs hstep (fun o => rfl) (commit_waits _)
        obtain ⟨w', hgoes', hdrained, hothers, -⟩ := ih _ (by rw [commit_node, ← hk]; exact hless) hgoes.sound rfl
        refine ⟨w', hgoes.trans hgoes', hdrained, ?_, ?_⟩
        · intro b hb
          rw [hothers b hb, commit_others w a _ [] b hb]
        · rintro ⟨call', outer', hfresh, r, hr, -⟩
          obtain ⟨rfl, rfl⟩ := List.cons.inj (hcalls.symm.trans hfresh)
          rw [hrest] at hr
          cases hr
      | cons r rest =>
        obtain ⟨m', hm', hless, hmoved⟩ := nextRumor_goes hs hcalls hrest
        have hstep := netStep_nextRumor ha hm'
        have hgoes := goesOn_step hs hstep (fun o => rfl) (commit_waits _)
        obtain ⟨w', hgoes', hdrained, hothers, hfresh⟩ := ih _ (by rw [commit_node, ← hk]; exact hless) hgoes.sound rfl
        refine ⟨w', hgoes.trans hgoes', hdrained, ?_, ?_⟩
        · intro b hb
          rw [hothers b hb, commit_others w a _ [] b hb]
        · rintro ⟨call', outer', hcalls', x, hx, hexpects⟩
          obtain ⟨rfl, rfl⟩ := List.cons.inj (hcalls.symm.trans hcalls')
          rcases hmoved with hextends | ⟨hnot, hstore, hcalls''⟩
          · refine ⟨r.origin, Nat.lt_of_lt_of_le ?_ (hgoes'.grown.heard a r.origin)⟩
            unfold Network.heard
            rw [commit_node, hextends.rumorsOf, if_pos rfl, List.length_append]
            exact Nat.lt_succ_self _
          · have hlater : x ∈ rest := by
              rw [hrest] at hx
              rcases List.mem_cons.mp hx with rfl | hx
              · exact absurd hexpects hnot
              · exact hx
            obtain ⟨o, ho⟩ := hfresh ⟨{ call with rest }, outer, by rw [commit_node]; exact hcalls'', x, hlater, by
              rw [commit_node]; simpa only [hstore] using hexpects⟩
            exact ⟨o, (hgoes.grown.heard a o).trans_lt ho⟩

/-! ## Asking a neighbor -/

theorem Genuine.agree (hg : Genuine w) (a b : String) :
    Store.Agree (w.nodes a).messager.store (w.nodes b).messager.store := by
  intro o i r r' hr hr'
  have hown {c : String} {x : Rumor} (hx : ((w.nodes c).messager.store.rumorsOf o)[i]? = some x) :
      (w.rumorsOf o)[i]? = some x := by
    obtain ⟨rest, hrest⟩ := hg.prefixes c o
    rw [← hrest, List.getElem?_append_left (List.getElem?_eq_some_iff.mp hx).1, hx]
  exact Option.some.inj ((hown hr).symm.trans (hown hr'))

/-- A message that brings something has a rumor that is expected. -/
theorem exists_expected {s s' : Store} (msg : List Rumor) (h : s.acceptAll msg = some s') (hmore : s.total < s'.total) :
    ∃ r ∈ msg, s.expects r := by
  induction msg with
  | nil =>
    cases h
    exact absurd hmore (Nat.lt_irrefl _)
  | cons r msg ih =>
    by_cases hexpects : s.expects r
    · exact ⟨r, List.mem_cons_self, hexpects⟩
    · unfold Store.acceptAll at h
      rw [if_neg hexpects] at h
      obtain ⟨x, hx, hexpects⟩ := ih h
      exact ⟨x, List.mem_cons_of_mem r hx, hexpects⟩

/-- What node `a` sent to `b` is among the packets. -/
def Network.Carries (w : Network) (a b : String) (sent : Sent) : Prop :=
  ∃ (k : Nat) (id : String), w.flights[k]? = some ⟨b, ⟨id, a, a, b, .gossip sent⟩, []⟩

theorem Network.Carries.grown {sent : Sent} {b : String} (h : w.Carries a b sent) (hg : Grown w w') : w'.Carries a b sent := by
  obtain ⟨k, id, hk⟩ := h
  obtain ⟨new, hnew⟩ := hg.flights
  refine ⟨k, id, ?_⟩
  rw [← hnew, List.getElem?_append_left (List.getElem?_eq_some_iff.mp hk).1, hk]

/-- A message to a neighbor. -/
theorem commit_carries {b : String} {sent : Sent} {m' : Messager} (haddr : m'.addr = a)
    (hsent : m'.sent = (w.nodes a).messager.sent ++ [(b, sent)]) (hb : b ∈ m'.neighbors) :
    (w.commit a { w.nodes a with messager := m' } []).Carries a b sent := by
  refine ⟨w.flights.length, toString w.flights.length, ?_⟩
  simp [Network.commit, hsent, launch, nextHop_of_neighbor hb, haddr]

theorem reports (hs : Sound w) (ha : a ≠ "") {b : String} (hb : b ∈ (w.nodes a).messager.neighbors) :
    ∃ w', GoesOn w w' ∧ w'.Carries a b (.status (w.nodes a).messager.store.seqs) ∧
      (∀ c, c ≠ a → w'.nodes c = w.nodes c) ∧ (w'.nodes a).messager.calls = (w.nodes a).messager.calls ∧
        (w'.nodes a).messager.store = (w.nodes a).messager.store := by
  have hunicast : (w.nodes a).messager.unicast b (.status (w.nodes a).messager.store.seqs) = some
      { (w.nodes a).messager with
        sent := (w.nodes a).messager.sent ++ [(b, .status (w.nodes a).messager.store.seqs)] } := by
    unfold Messager.unicast
    rw [nextHop_of_neighbor hb, Option.map_some]
  have hstep : netStep w ⟨a, .report b⟩ = some (w.commit a { w.nodes a with messager :=
      { (w.nodes a).messager with
        sent := (w.nodes a).messager.sent ++ [(b, .status (w.nodes a).messager.store.seqs)] } } []) := by
    unfold netStep
    rw [if_neg ha, nodeStep, if_pos hb, hunicast, Option.map_some]
  refine ⟨_, goesOn_step hs hstep (fun o => rfl) (commit_waits _), commit_carries (hs.wired.delivered a).addr rfl hb,
    commit_others w a _ [], ?_, ?_⟩
  · rw [commit_node]
  · rw [commit_node]

/-- The answer to a status. -/
theorem answers (hs : Sound w) {b : String} (hb : b ≠ "") (hab : a ≠ b) {view : StatusMessage} {msg : List Rumor}
    (hcarries : w.Carries a b (.status view)) (hcalls : (w.nodes b).messager.calls = [])
    (hfree : (w.nodes b).waitsFor = none)
    (hreply : statusReply (w.nodes b).messager.store view (meExceptOther (w.nodes b).messager.store view).keys =
      some (.rumors msg)) :
    ∃ w', GoesOn w w' ∧ w'.Carries b a (.rumors msg) ∧ ∀ c, c ≠ b → w'.nodes c = w.nodes c := by
  obtain ⟨k, id, hk⟩ := hcarries
  obtain ⟨new, hnbr, -, hmem⟩ := addNeighbor_eq (w.nodes b).messager a
  have hmem := hmem (by rwa [(hs.wired.delivered b).addr])
  have hunicast : ((w.nodes b).messager.addNeighbor a).unicast a (.rumors msg) = some
      { (w.nodes b).messager.addNeighbor a with sent := (w.nodes b).messager.sent ++ [(a, .rumors msg)] } := by
    rw [hnbr]
    unfold Messager.unicast
    rw [nextHop_of_neighbor hmem, Option.map_some]
  have hstore : ((w.nodes b).messager.addNeighbor a).store = (w.nodes b).messager.store := by rw [hnbr]
  have hcallback : step (w.nodes b).messager (.receiveStatus a a view
      (meExceptOther (w.nodes b).messager.store view).keys none) = some
        { (w.nodes b).messager.addNeighbor a with sent := (w.nodes b).messager.sent ++ [(a, .rumors msg)] } := by
    rw [step, if_pos ⟨hcalls, List.Perm.refl _, by simp⟩]
    unfold statusMsgCallback
    rw [hstore, hreply]
    simp only [hunicast, Option.getD_some]
  have hstep : netStep w ⟨b, .receive k (meExceptOther (w.nodes b).messager.store view).keys none⟩ =
      some (w.commit b { w.nodes b with messager :=
        { (w.nodes b).messager.addNeighbor a with sent := (w.nodes b).messager.sent ++ [(a, .rumors msg)] } } []) := by
    unfold netStep
    rw [if_neg hb, nodeStep, hk, Option.bind_some, Network.receive]
    simp only [ne_eq, hfree, not_true_eq_false, or_self, if_false, if_true, Node.processPacket,
      hcallback, Option.map_some]
  refine ⟨_, goesOn_step hs hstep (fun o => rfl) (commit_waits _), commit_carries ?_ rfl ?_, commit_others w b _ []⟩
  · rw [hnbr]
    exact (hs.wired.delivered b).addr
  · rw [hnbr]
    exact hmem

/-- A message with a rumor that the node lacks comes. -/
theorem hears (hs : Sound w) (ha : a ≠ "") {b : String} {msg : List Rumor} (hcarries : w.Carries b a (.rumors msg))
    (hcalls : (w.nodes a).messager.calls = []) (hfree : (w.nodes a).waitsFor = none)
    (hfresh : ∃ r ∈ msg, (w.nodes a).messager.store.expects r) :
    ∃ w', GoesOn w w' ∧ ∃ o, w.heard a o < w'.heard a o := by
  obtain ⟨k, id, hk⟩ := hcarries
  obtain ⟨new, hnbr, -, hmem⟩ := addNeighbor_eq (w.nodes a).messager b
  have hprocess : step (w.nodes a).messager (.receive b id (.rumors msg)) = some
      { (w.nodes a).messager.addNeighbor b with calls := [⟨b, id, msg, msg, false⟩] } := by
    rw [step, if_pos hcalls, process, opened, hnbr, hcalls]
  have hstep : netStep w ⟨a, .receive k [] none⟩ = some (w.commit a { w.nodes a with messager :=
      { (w.nodes a).messager.addNeighbor b with calls := [⟨b, id, msg, msg, false⟩] } } []) := by
    unfold netStep
    rw [if_neg ha, nodeStep, hk, Option.bind_some, Network.receive]
    simp only [ne_eq, hfree, not_true_eq_false, or_self, if_false, if_true, Node.processPacket,
      hprocess, Option.map_some]
  have hgoes := goesOn_step hs hstep (fun o => rfl) (commit_waits _)
  obtain ⟨w', hgoes', -, -, hheard⟩ := goesOn_drained hgoes.sound ha
  obtain ⟨r, hr, hexpects⟩ := hfresh
  obtain ⟨o, ho⟩ := hheard ⟨_, [], by rw [commit_node], r, hr, by rw [commit_node, hnbr]; exact hexpects⟩
  exact ⟨w', hgoes.trans hgoes', o, (hgoes.grown.heard a o).trans_lt ho⟩

/-- A node that lacks something of a neighbor can hear something new. -/
theorem pull (hs : Sound w) (ha : a ≠ "") {b : String} (hb : b ≠ "") (hnei : b ∈ (w.nodes a).messager.neighbors)
    (hfreeA : (w.nodes a).waitsFor = none) (hfreeB : (w.nodes b).waitsFor = none) {o : String}
    (hlacks : w.heard a o < w.heard b o) : ∃ w', GoesOn w w' ∧ ∃ o, w.heard a o < w'.heard a o := by
  have hab : a ≠ b := by
    rintro rfl
    exact (hs.wired.neighbors a).2 hnei
  -- Both are through with their calls.
  obtain ⟨w₁, h₁, hcalls₁, -, -⟩ := goesOn_drained hs ha
  obtain ⟨w₂, h₂, hcalls₂, hothers₂, -⟩ := goesOn_drained h₁.sound hb
  have h₁₂ := h₁.trans h₂
  by_cases hmore : ∃ o, w.heard a o < w₂.heard a o
  · exact ⟨w₂, h₁₂, hmore⟩
  have hsame : w₂.heard a o = w.heard a o :=
    Nat.le_antisymm (Nat.not_lt.mp fun hlt => hmore ⟨o, hlt⟩) (h₁₂.grown.heard a o)
  have hlt : ((w₂.nodes a).messager.store.seq o).toNat < ((w₂.nodes b).messager.store.seq o).toNat := by
    rw [← (h₂.sound.wired.delivered a).ok.length, ← (h₂.sound.wired.delivered b).ok.length]
    have := h₁₂.grown.heard b o
    unfold Network.heard at hsame this hlacks
    omega
  -- The status of `a`, the answer of `b`, and what `a` makes of it.
  obtain ⟨msg, s', hreply, haccept, htotal, -⟩ := answer_of_lt (h₂.sound.wired.delivered b).ok
    (h₂.sound.wired.delivered a).ok (h₂.sound.genuine.agree b a) hlt _ (List.Perm.refl _)
  obtain ⟨w₃, h₃, hcarries₃, hothers₃, hcalls₃, hstore₃⟩ := reports h₂.sound ha (h₁₂.grown.neighbors a b hnei)
  have hb₃ := hothers₃ b (Ne.symm hab)
  obtain ⟨w₄, h₄, hcarries₄, hothers₄⟩ := answers h₃.sound hb hab hcarries₃ (by rw [hb₃]; exact hcalls₂)
    (by rw [(h₁₂.trans h₃).waits]; exact hfreeB) (by rw [hb₃]; exact hreply)
  have ha₄ := hothers₄ a hab
  obtain ⟨w₅, h₅, o', ho'⟩ := hears h₄.sound ha hcarries₄
    (by rw [ha₄, hcalls₃, hothers₂ a hab]; exact hcalls₁) (by rw [(h₁₂.trans (h₃.trans h₄)).waits]; exact hfreeA)
    (by rw [ha₄, hstore₃]; exact exists_expected msg haccept htotal)
  have h := h₁₂.trans (h₃.trans h₄)
  exact ⟨w₅, h.trans h₅, o', (h.grown.heard a o').trans_lt ho'⟩

end Steps

/-! ## Until nobody lacks anything -/

/-- A path of neighbors inside the group. -/
def Linked (w : Network) (group : List String) : String → String → Prop :=
  Relation.ReflTransGen fun a b => b ∈ group ∧ b ∈ (w.nodes a).messager.neighbors

/-- What the nodes of the group lack of these origins. -/
def lacking (w : Network) (group origins : Finset String) : Nat :=
  ∑ x ∈ group ×ˢ origins, (w.heard x.2 x.2 - w.heard x.1 x.2)

section Converging

variable {w w' : Network} {group : List String} {origins : Finset String}

theorem GoesOn.lacking_lt (h : GoesOn w w') {a o : String} (ha : a ∈ group.toFinset) (ho : o ∈ origins)
    (hheard : w.heard a o < w'.heard a o) : lacking w' group.toFinset origins < lacking w group.toFinset origins := by
  refine Finset.sum_lt_sum ?_ ⟨(a, o), Finset.mk_mem_product ha ho, ?_⟩
  · intro x _
    have := h.grown.heard x.1 x.2
    rw [h.heard_own]
    omega
  · have := h.sound.genuine.heard_le a o
    rw [h.heard_own] at this ⊢
    simp only
    omega

/-- The nodes of the group have come to the same rumors, without losing any. -/
theorem goesOn_converged (hs : Sound w) (hgroup : ∀ a ∈ group, a ≠ "") (horigins : ∀ o, 0 < w.heard o o → o ∈ origins)
    (hlinked : ∀ a ∈ group, ∀ b ∈ group, Linked w group a b) (hfree : ∀ a ∈ group, (w.nodes a).waitsFor = none) :
    ∃ w', GoesOn w w' ∧ ∀ a ∈ group, ∀ b ∈ group, ∀ o, w'.heard b o ≤ w'.heard a o := by
  -- By induction on what they lack.
  induction hk : lacking w group.toFinset origins using Nat.strongRecOn generalizing w with
  | ind k ih =>
    by_cases hlacks : ∃ a ∈ group, ∃ b ∈ group, b ∈ (w.nodes a).messager.neighbors ∧ ∃ o, w.heard a o < w.heard b o
    · obtain ⟨a, ha, b, hb, hnei, o, ho⟩ := hlacks
      obtain ⟨w₁, h₁, o', ho'⟩ := pull hs (hgroup a ha) (hgroup b hb) hnei (hfree a ha) (hfree b hb) ho
      have horigin : o' ∈ origins := by
        apply horigins
        have := h₁.sound.genuine.heard_le a o'
        rw [h₁.heard_own] at this
        omega
      have hless := h₁.lacking_lt (List.mem_toFinset.mpr ha) horigin ho'
      have hlinked₁ : ∀ a ∈ group, ∀ b ∈ group, Linked w₁ group a b := by
        intro a ha b hb
        exact (hlinked a ha b hb).lift id fun x y hxy => ⟨hxy.1, h₁.grown.neighbors x y hxy.2⟩
      obtain ⟨w', h', hsame⟩ := ih _ (hk ▸ hless) h₁.sound (fun o ho => horigins o (h₁.heard_own o ▸ ho)) hlinked₁
        (fun a ha => (h₁.waits a).trans (hfree a ha)) rfl
      exact ⟨w', h₁.trans h', hsame⟩
    · refine ⟨w, .refl hs, ?_⟩
      intro a ha b hb o
      have hlink := hlinked a ha b hb
      clear hb
      -- A neighbor has no more than the node, and so along the path.
      have hpath : b ∈ group ∧ w.heard b o ≤ w.heard a o := by
        induction hlink with
        | refl => exact ⟨ha, Nat.le_refl _⟩
        | tail hpath hedge hle =>
          refine ⟨hedge.1, le_trans (Nat.not_lt.mp fun hlt => ?_) hle.2⟩
          exact hlacks ⟨_, hle.1, _, hedge.1, hedge.2, o, hlt⟩
      exact hpath.2

/-- The packets with the message of `A` were lost. -/
def lostRun : List NetEvent :=
  eventsOf "B" [.addPeer "A"] ++ eventsOf "A" [.addPeer "B", .broadcast (.payload "hello"), .attempt 0 "B" true, .ackTimeout 0]

end Converging

end MarketPeer.Gossip

import MarketPeer.Gossip.Prefixes
import MarketPeer.Lib.Hops
import Mathlib.Data.Finset.Prod
import Mathlib.Order.Interval.Finset.Nat

/-!
# Routes

A node routes an origin through the neighbor that it had the last rumor from. As long as
nodes only pass on rumors that they have, that neighbor took the rumor earlier, so routes
end at their origin and packets come nearer to it.
-/

namespace MarketPeer.Gossip

/-! ## Who took what before whom -/

namespace Network

/-- How many rumors of the origin the node has. -/
def heard (w : Network) (a o : String) : Nat := ((w.nodes a).messager.store.rumorsOf o).length

/-- The rumor is an own one of the node, or the node took it. -/
def Has (w : Network) (a : String) (r : Rumor) : Prop :=
  r = .zero ∨ r.origin = a ∨ (a, r.origin, r.sequence.toNat) ∈ w.taken

/-- What a node took is what it has of other origins. -/
def Logged (w : Network) : Prop := ∀ a o k, (a, o, k) ∈ w.taken ↔ o ≠ a ∧ 1 ≤ k ∧ k ≤ w.heard a o

end Network

def NodeEvent.setsRoute : NodeEvent → Bool
  | .setRoutingEntry _ _ => true
  | _ => false

def NodeEvent.passesOn : NodeEvent → Bool
  | .done _ => true
  | _ => false

/-- Nobody writes the routing table by hand, and a node that passes a message on has all its rumors. -/
def PassesOnHeld (w : Network) (ev : NetEvent) : Prop :=
  ev.event.setsRoute = false ∧ (ev.event.passesOn = true → ∀ call ∈ (w.nodes ev.node).messager.calls.head?,
    call.isNew = true → ∀ r ∈ call.message, r.sequence.toNat ≤ w.heard ev.node r.origin)

instance (w : Network) (ev : NetEvent) : Decidable (PassesOnHeld w ev) := inferInstanceAs (Decidable (_ ∧ _))

/-- An entry of a routing table leads to the origin itself, or to a node that took the last rumor of the
origin before. -/
structure Routed (w : Network) : Prop where
  log : w.Logged
  known : ∀ a o, o ≠ a → 0 < w.heard a o → (w.nodes a).messager.route.contains o
  route : ∀ a o u, (w.nodes a).messager.route[o]? = some u →
    u = o ∨ (o ≠ a ∧ Before w.taken (u, o, w.heard a o) (a, o, w.heard a o))
  calls : ∀ a, ∀ c ∈ (w.nodes a).messager.calls, ∀ r ∈ c.rest, w.Has c.relayedBy r
  carried : ∀ f ∈ w.flights, ∀ rumors, f.packet.body = .gossip (.rumors rumors) →
    ∀ r ∈ rumors, w.Has f.packet.relayedBy r

section Steps

variable {w w' : Network} {a : String} {e : NodeEvent} {m' : Messager}

theorem Change.heard_same (h : Change w w' a e m') (store : m'.store = (w.nodes a).messager.store) (b o : String) :
    w'.heard b o = w.heard b o := by
  unfold Network.heard
  rcases h.node_or b with ⟨rfl, hb⟩ | ⟨-, hb⟩
  · rw [hb, store]
  · rw [hb]

theorem Change.heard_extends (h : Change w w' a e m') {r : Rumor} (store : (w.nodes a).messager.store.Extends r m'.store)
    (b o : String) : w'.heard b o = if b = a ∧ o = r.origin then w.heard b o + 1 else w.heard b o := by
  unfold Network.heard
  rcases h.node_or b with ⟨rfl, hb⟩ | ⟨hne, hb⟩
  · rw [hb, store.rumorsOf]
    by_cases ho : r.origin = o
    · simp [ho]
    · simp [ho, Ne.symm ho]
  · rw [hb, if_neg (fun h => hne h.1)]

theorem Change.heard_le (h : Change w w' a e m') (b o : String) : w.heard b o ≤ w'.heard b o := by
  cases h.took with
  | nothing store taken route => rw [h.heard_same store]
  | rumor call r hcall hr store taken route =>
    rw [h.heard_extends store]
    split_ifs <;> omega
  | own r plain origin store taken route event =>
    rw [h.heard_extends store]
    split_ifs <;> omega

theorem Change.taken_append (h : Change w w' a e m') : ∃ new, w'.taken = w.taken ++ new := by
  cases h.took with
  | nothing store taken route => exact ⟨[], by simp [taken]⟩
  | rumor call r hcall hr store taken route => exact ⟨_, taken⟩
  | own r plain origin store taken route event => exact ⟨[], by simp [taken]⟩

theorem Change.has (h : Change w w' a e m') {b : String} {r : Rumor} (hr : w.Has b r) : w'.Has b r := by
  obtain ⟨new, hnew⟩ := h.taken_append
  rcases hr with hzero | hown | htaken
  · exact .inl hzero
  · exact .inr (.inl hown)
  · exact .inr (.inr (by rw [hnew]; exact List.mem_append_left _ htaken))

theorem Routed.log_step (hr : Routed w) (hw : Wired w) (hg : Genuine w) (h : Change w w' a e m') : w'.Logged := by
  intro b o k
  have hold := hr.log b o k
  cases h.took with
  | nothing store taken route => rw [h.heard_same store, taken, hold]
  | own r plain origin store taken route event =>
    rw [h.heard_extends store, taken, hold]
    split_ifs with hb
    · obtain ⟨rfl, rfl⟩ := hb
      simp [origin]
    · rfl
  | rumor call r hcall hmem store taken route =>
    obtain ⟨hother, -⟩ := hg.next hw hcall hmem store
    have hnext : r.sequence.toNat = w.heard a r.origin + 1 := store.next
    rw [h.heard_extends store, taken, List.mem_append, hold, List.mem_singleton, Prod.mk.injEq, Prod.mk.injEq]
    split_ifs with hb
    · obtain ⟨rfl, rfl⟩ := hb
      simp only [ne_eq, hother, not_false_eq_true, true_and, hnext]
      omega
    · simp only [hnext]
      have : ¬ (b = a ∧ o = r.origin ∧ k = w.heard a r.origin + 1) := fun h => hb ⟨h.1, h.2.1⟩
      tauto

theorem Routed.known_step (hr : Routed w) (h : Change w w' a e m') (hkeeps : ∀ o u, e ≠ .setRoutingEntry o u) (b o : String)
    (ho : o ≠ b) (hheard : 0 < w'.heard b o) : (w'.nodes b).messager.route.contains o := by
  rcases h.node_or b with ⟨rfl, hb⟩ | ⟨hne, hb⟩
  · rw [hb]
    cases h.took with
    | nothing store taken route =>
      rw [h.heard_same store] at hheard
      exact (route hkeeps).kept o (hr.known b o ho hheard)
    | own r plain origin store taken route event =>
      rw [h.heard_extends store, if_neg (by rw [origin]; exact fun h => ho h.2)] at hheard
      rw [route]
      exact hr.known b o ho hheard
    | rumor call r hcall hmem store taken route =>
      rw [h.heard_extends store] at hheard
      rw [route, Std.ExtTreeMap.contains_insert, Bool.or_eq_true]
      by_cases hsame : o = r.origin
      · exact .inl (by simp [hsame])
      · rw [if_neg (fun h => hsame h.2)] at hheard
        exact .inr (hr.known b o ho hheard)
  · have hsame : w'.heard b o = w.heard b o := by rw [Network.heard, Network.heard, hb]
    rw [hsame] at hheard
    rw [hb]
    exact hr.known b o ho hheard

/-- An entry that does not change, of an origin that has not been heard since. -/
theorem Routed.route_same (hr : Routed w) (h : Change w w' a e m') {b o u : String}
    (hu : (w.nodes b).messager.route[o]? = some u) (hheard : w'.heard b o = w.heard b o) :
    u = o ∨ (o ≠ b ∧ Before w'.taken (u, o, w'.heard b o) (b, o, w'.heard b o)) := by
  obtain ⟨new, hnew⟩ := h.taken_append
  rw [hheard, hnew]
  rcases hr.route b o u hu with hstraight | ⟨ho, hbefore⟩
  · exact .inl hstraight
  · exact .inr ⟨ho, hbefore.append new⟩

theorem Routed.route_step (hr : Routed w) (hw : Wired w) (hg : Genuine w) (h : Change w w' a e m')
    (hkeeps : ∀ o u, e ≠ .setRoutingEntry o u) (b o u : String) (hu : (w'.nodes b).messager.route[o]? = some u) :
    u = o ∨ (o ≠ b ∧ Before w'.taken (u, o, w'.heard b o) (b, o, w'.heard b o)) := by
  rcases h.node_or b with ⟨rfl, hb⟩ | ⟨hne, hb⟩
  · rw [hb] at hu
    cases h.took with
    | nothing store taken route =>
      rcases (route hkeeps).old o u hu with hu | rfl
      · exact hr.route_same h hu (h.heard_same store b o)
      · exact .inl rfl
    | own r plain origin store taken route event =>
      rw [route] at hu
      by_cases ho : o = b
      · rcases hr.route b o u hu with hstraight | ⟨hne, -⟩
        · exact .inl hstraight
        · exact absurd ho hne
      · refine hr.route_same h hu ?_
        rw [h.heard_extends store, if_neg (by rw [origin]; exact fun h => ho h.2)]
    | rumor call r hcall hmem store taken route =>
      rw [route, Std.ExtTreeMap.getElem?_insert] at hu
      obtain ⟨hother, -⟩ := hg.next hw hcall hmem store
      have hnext : r.sequence.toNat = w.heard b r.origin + 1 := store.next
      split_ifs at hu with ho
      · rw [Std.LawfulEqCmp.compare_eq_iff_eq] at ho
        subst ho
        obtain rfl := Option.some.inj hu
        rw [h.heard_extends store, if_pos ⟨rfl, rfl⟩, taken, ← hnext]
        rcases hr.calls b call hcall r hmem with rfl | hown | htaken
        · simp [Rumor.zero, Rumor.sequence] at hnext
        · exact .inl hown.symm
        · refine .inr ⟨hother, before_concat htaken ?_⟩
          rw [hr.log, hnext]
          omega
      · refine hr.route_same h hu ?_
        rw [h.heard_extends store, if_neg]
        rintro ⟨-, rfl⟩
        exact ho Std.ReflCmp.compare_self
  · rw [hb] at hu
    exact hr.route_same h hu (by rw [Network.heard, Network.heard, hb])

/-- A node has what it has heard. -/
theorem has_of_heard (hlog : w.Logged) (hw : Wired w) {b : String} {r : Rumor} (hr : w.Original r)
    (hheard : r.sequence.toNat ≤ w.heard b r.origin) : w.Has b r := by
  rcases hr with hzero | hmem
  · exact .inl hzero
  · obtain ⟨i, hi⟩ := List.getElem?_of_mem hmem
    obtain ⟨-, hsequence⟩ := (hw.delivered r.origin).ok.numbered _ i r hi
    by_cases horigin : r.origin = b
    · exact .inr (.inl horigin)
    · refine .inr (.inr ((hlog ..).mpr ⟨horigin, ?_, hheard⟩))
      omega

/-- And what is in its store. -/
theorem has_of_sends (hlog : w.Logged) (hw : Wired w) (hg : Genuine w) {b : String} {r : Rumor}
    (h : (w.nodes b).messager.store.Sends r) : w.Has b r := by
  rcases h with hzero | ⟨o, i, hi⟩
  · exact .inl hzero
  · obtain ⟨rfl, hsequence⟩ := (hw.delivered b).ok.numbered o i r hi
    refine has_of_heard hlog hw (.inr ((hg.prefixes b r.origin).subset (List.mem_of_getElem? hi))) ?_
    have hlt := (List.getElem?_eq_some_iff.mp hi).1
    unfold Network.heard
    omega

theorem Routed.calls_step (hr : Routed w) (h : Change w w' a e m') (b : String) :
    ∀ c ∈ (w'.nodes b).messager.calls, ∀ r ∈ c.rest, w'.Has c.relayedBy r := by
  rcases h.node_or b with ⟨rfl, hb⟩ | ⟨hne, hb⟩
  · rw [hb]
    intro c hc r hmem
    cases (h.calls c hc).1 with
    | old c₀ hc₀ relayedBy message rest =>
      rw [relayedBy]
      exact h.has (hr.calls b c₀ hc₀ r (rest r hmem))
    | new f hf hop body relayedBy rest =>
      rw [relayedBy]
      exact h.has (hr.carried f hf _ body r (rest ▸ hmem))
  · rw [hb]
    exact fun c hc r hmem => h.has (hr.calls b c hc r hmem)

end Steps

section Runs

variable {w w' : Network} {ev : NetEvent}

theorem init_heard (a o : String) : Network.init.heard a o = 0 := by
  have hnil : Store.empty.rumorsOf o = [] := Std.ExtTreeMap.getD_empty
  exact congrArg List.length hnil

theorem routed_init : Routed .init where
  log a o k := by
    rw [init_heard]
    simp only [Network.init, List.not_mem_nil, false_iff]
    omega
  known a o ho hheard := by
    rw [init_heard] at hheard
    omega
  route a o u hu := by
    simp only [Network.init, newNode, newMessager, Std.ExtTreeMap.getElem?_insert] at hu
    split_ifs at hu with ho
    · rw [Std.LawfulEqCmp.compare_eq_iff_eq] at ho
      exact .inl ((Option.some.inj hu).symm.trans ho)
    · simp at hu
  calls _ := by simp [Network.init, newNode, newMessager]
  carried := by simp [Network.init]

/-- A relayed packet is no gossip. -/
theorem Routed.carried_step (hr : Routed w) (hs : Sound w) (hs' : Sound w') (hlog : w'.Logged) {m' : Messager}
    (h : Change w w' ev.node ev.event m') (hholds : PassesOnHeld w ev) :
    ∀ f ∈ w'.flights, ∀ rumors, f.packet.body = .gossip (.rumors rumors) → ∀ r ∈ rumors, w'.Has f.packet.relayedBy r := by
  obtain ⟨new, hflights, hnew⟩ := h.flights
  intro f hf rumors hbody r hmem
  rw [hflights] at hf
  rcases List.mem_append.mp hf with hf | hf
  · exact h.has (hr.carried f hf rumors hbody r hmem)
  cases hnew f hf with
  | gossip id sent heq hop content =>
    rw [heq] at hbody ⊢
    cases hbody
    rcases content with hfrom | ⟨randNei, call, outer, hdone, hcalls, hisNew, hsame⟩
    · refine has_of_sends hlog hs'.wired hs'.genuine ?_
      rw [h.node]
      exact hfrom r hmem
    · cases hsame
      obtain ⟨b, e⟩ := ev
      obtain rfl : e = .done randNei := hdone
      have horiginal := (hs.genuine.heard b call (by rw [hcalls]; exact List.mem_cons_self)).2 r hmem
      exact h.has (has_of_heard hr.log hs.wired horiginal (hholds.2 rfl call (by rw [hcalls]; rfl) hisNew r hmem))
  | app id dest content hsend =>
    rw [(mem_send hsend).2.1] at hbody
    cases hbody
  | relay f₀ h₀ hop dest hsend =>
    rw [(mem_send hsend).2.1] at hbody
    exact absurd ((hs.wired.flights f₀ h₀ _ hbody).1.symm.trans hop) dest

theorem routed_step (hs : Sound w) (hr : Routed w) (hholds : PassesOnHeld w ev) (hstep : netStep w ev = some w') :
    Routed w' := by
  have hs' := sound_step w ev w' hs hstep
  obtain ⟨-, m', h⟩ := netStep_change hs.wired hstep
  have hkeeps : ∀ o u, ev.event ≠ .setRoutingEntry o u := by
    intro o u heq
    have hset := hholds.1
    rw [heq] at hset
    cases hset
  have hlog := hr.log_step hs.wired hs.genuine h
  exact ⟨hlog, hr.known_step h hkeeps, hr.route_step hs.wired hs.genuine h hkeeps, hr.calls_step h,
    hr.carried_step hs hs' hlog h hholds⟩

/-- Runs whose steps all meet the condition. -/
theorem routed_run {es : List NetEvent} (hrun : run netStep .init es = some w) (hmeets : Meets netStep PassesOnHeld .init es) :
    Sound w ∧ Routed w :=
  run_invariant (fun w => Sound w ∧ Routed w)
    (fun w ev w' h hholds hstep => ⟨sound_step w ev w' h.1 hstep, routed_step h.1 h.2 hholds hstep⟩) es
    ⟨⟨wired_init, genuine_init⟩, routed_init⟩ hmeets hrun

/-- A next hop that is not the destination took the last rumor of it before. -/
theorem Routed.nextHop (hr : Routed w) {a dest hop : String} (h : (w.nodes a).messager.nextHop dest = some hop)
    (hne : hop ≠ dest) : dest ≠ a ∧ Before w.taken (hop, dest, w.heard a dest) (a, dest, w.heard a dest) := by
  unfold Messager.nextHop at h
  split_ifs at h
  · exact absurd (Option.some.inj h).symm hne
  · exact (hr.route a dest hop h).resolve_left hne

theorem Routed.heard_of_before (hr : Routed w) {dest hop : String} {k : Nat} {x : String × String × Nat}
    (h : Before w.taken (hop, dest, k) x) : dest ≠ hop ∧ 1 ≤ k ∧ k ≤ w.heard hop dest := (hr.log ..).mp h.1

theorem Genuine.heard_le (hg : Genuine w) (a o : String) : w.heard a o ≤ w.heard o o :=
  (hg.prefixes a o).length_le

/-- `A` passes on the second rumor of `O`, which it does not have, and hears the first two from the node
that took the second one from it. -/
def circleRun : List NetEvent :=
  eventsOf "O" [.addPeer "X", .broadcast (.payload "one"), .attempt 0 "X" true, .broadcast (.payload "two"),
    .attempt 1 "X" true] ++
  eventsOf "X" ([.addPeer "O", .addPeer "Y"] ++ heed 0 1 "Y") ++
  eventsOf "Y" ([.addPeer "X", .addPeer "A", .addPeer "B"] ++ heed 3 1 "B") ++
  eventsOf "B" (.addPeer "Y" :: heed 5 1 "Y") ++
  eventsOf "X" (heed 1 1 "Y") ++
  eventsOf "P" [.addPeer "X", .broadcast (.payload "other"), .attempt 0 "X" true] ++
  eventsOf "X" (heed 9 1 "Y") ++
  eventsOf "Y" [.report "X"] ++ eventsOf "X" [.receive 12 ["O", "P"] none] ++
  eventsOf "Y" (heed 13 10 "A") ++
  eventsOf "A" (.addPeer "B" :: heed 15 10 "B") ++
  eventsOf "B" (heed 17 10 "Y") ++
  eventsOf "A" [.report "B"] ++ eventsOf "B" [.receive 20 ["O"] none] ++
  eventsOf "A" (heed 21 10 "Y")

/-- Otherwise two nodes can route an origin through each other. -/
theorem routes_circle : ∃ w, run netStep .init circleRun = some w ∧
    (w.nodes "A").messager.nextHop "O" = some "B" ∧ (w.nodes "B").messager.nextHop "O" = some "A" := by
  have hcheck : (run netStep .init circleRun).any (fun w =>
      (w.nodes "A").messager.nextHop "O" = some "B" ∧ (w.nodes "B").messager.nextHop "O" = some "A") = true := by
    decide +kernel
  obtain ⟨w, hrun, hhops⟩ := (Option.any_eq_true _ _).mp hcheck
  exact ⟨w, hrun, of_decide_eq_true hhops⟩

/-! ## Packets on their way -/

/-- The second node is nearer to the destination than the first one was: it has more rumors of the
destination, or it took the last one earlier. -/
def Nearer (taken : List (String × String × Nat)) (dest : String) (x y : String × Nat) : Prop :=
  x.2 < y.2 ∨ (x.2 = y.2 ∧ Before taken (y.1, dest, y.2) (x.1, dest, x.2))

/-- Where a packet has been, and where it is going. -/
structure Trail (w : Network) (f : Flight) : Prop where
  nearer : f.via.Pairwise (Nearer w.taken f.packet.destination)
  bound : ∀ x ∈ f.via, 1 ≤ x.2 ∧ x.2 ≤ w.heard f.packet.destination f.packet.destination
  hop : f.hop ≠ f.packet.destination → ∀ x ∈ f.via, x.2 < w.heard f.hop f.packet.destination ∨
    Before w.taken (f.hop, f.packet.destination, x.2) (x.1, f.packet.destination, x.2)

theorem Nearer.append {taken : List (String × String × Nat)} {dest : String} {x y : String × Nat}
    (h : Nearer taken dest x y) (l : List (String × String × Nat)) : Nearer (taken ++ l) dest x y :=
  h.imp_right fun ⟨hsame, hbefore⟩ => ⟨hsame, hbefore.append l⟩

theorem Trail.step {a : String} {e : NodeEvent} {m' : Messager} {f : Flight} (ht : Trail w f)
    (h : Change w w' a e m') : Trail w' f := by
  obtain ⟨new, hnew⟩ := h.taken_append
  have hmore := h.heard_le
  refine ⟨?_, ?_, ?_⟩
  · rw [hnew]
    exact ht.nearer.imp fun hxy => hxy.append new
  · intro x hx
    obtain ⟨hpos, hle⟩ := ht.bound x hx
    exact ⟨hpos, hle.trans (hmore _ _)⟩
  · intro hne x hx
    rw [hnew]
    exact (ht.hop hne x hx).imp (fun hlt => hlt.trans_le (hmore _ _)) fun hbefore => hbefore.append new

/-- A packet that has come to `a` and goes on to the next hop. -/
theorem Trail.send (hs : Sound w) (hr : Routed w) {a : String} {pkt : Packet} {via : List (String × Nat)} {f : Flight}
    (hnearer : via.Pairwise (Nearer w.taken pkt.destination))
    (hbound : ∀ x ∈ via, 1 ≤ x.2 ∧ x.2 ≤ w.heard pkt.destination pkt.destination)
    (hhere : ∀ x ∈ via, x.2 < w.heard a pkt.destination ∨ Before w.taken (a, pkt.destination, x.2) (x.1, pkt.destination, x.2))
    (hf : f ∈ send (w.nodes a).messager pkt via) : Trail w f := by
  obtain ⟨hhop, hpacket, hvia⟩ := mem_send hf
  by_cases hne : f.hop = pkt.destination
  · rw [if_pos hne] at hvia
    exact ⟨by rwa [hvia, hpacket], by rwa [hvia, hpacket], fun h => absurd (by rw [hpacket]; exact hne) h⟩
  rw [if_neg hne, (hs.wired.delivered a).addr, ← (hs.wired.delivered a).ok.length] at hvia
  obtain ⟨hother, hbefore⟩ := hr.nextHop hhop hne
  obtain ⟨-, hpos, hheard⟩ := hr.heard_of_before hbefore
  have hlast : ∀ x ∈ via, Nearer w.taken pkt.destination x (a, w.heard a pkt.destination) := by
    intro x hx
    rcases hhere x hx with hlt | hbefore
    · exact .inl hlt
    · obtain ⟨-, -, hle⟩ := hr.heard_of_before hbefore
      rcases Nat.lt_or_eq_of_le hle with hlt | hsame
      · exact .inl hlt
      · exact .inr ⟨hsame, by rwa [← hsame]⟩
  refine ⟨?_, ?_, ?_⟩
  · rw [hvia, hpacket, List.pairwise_append]
    exact ⟨hnearer, List.pairwise_singleton .., fun x hx y hy => by rw [List.mem_singleton.mp hy]; exact hlast x hx⟩
  · rw [hvia, hpacket]
    intro x hx
    rcases List.mem_append.mp hx with hx | hx
    · exact hbound x hx
    · rw [List.mem_singleton.mp hx]
      exact ⟨hpos, hs.genuine.heard_le a _⟩
  · rw [hvia, hpacket]
    intro _ x hx
    rcases List.mem_append.mp hx with hx | hx
    · rcases hlast x hx with hlt | ⟨hsame, hnear⟩
      · exact .inl (hlt.trans_le hheard)
      · right
        rw [hsame]
        exact hbefore.trans (hsame ▸ hnear)
    · rw [List.mem_singleton.mp hx]
      exact .inr hbefore

theorem trail_start (w : Network) (hop : String) (pkt : Packet) : Trail w ⟨hop, pkt, []⟩ :=
  ⟨List.Pairwise.nil, by simp, by simp⟩

theorem trails_step (hs : Sound w) (hr : Routed w) (ht : ∀ f ∈ w.flights, Trail w f) (hholds : PassesOnHeld w ev)
    (hstep : netStep w ev = some w') : ∀ f ∈ w'.flights, Trail w' f := by
  have hs' := sound_step w ev w' hs hstep
  have hr' := routed_step hs hr hholds hstep
  obtain ⟨-, m', h⟩ := netStep_change hs.wired hstep
  obtain ⟨new, hflights, hnew⟩ := h.flights
  intro f hf
  rw [hflights] at hf
  rcases List.mem_append.mp hf with hf | hf
  · exact (ht f hf).step h
  cases hnew f hf with
  | gossip id sent heq hop content =>
    rw [heq]
    exact trail_start ..
  | app id dest content hsend =>
    rw [← h.node] at hsend
    exact Trail.send hs' hr' .nil (by simp) (by simp) hsend
  | relay f₀ h₀ hop dest hsend =>
    obtain ⟨hnearer, hbound, hhere⟩ := (ht f₀ h₀).step h
    rw [hop] at hhere
    rw [← h.node] at hsend
    refine Trail.send hs' hr' ?_ ?_ ?_ hsend
    · exact hnearer
    · exact hbound
    · exact hhere (Ne.symm dest)

theorem Nearer.progress {taken : List (String × String × Nat)} {dest : String} {x y : String × Nat}
    (h : Nearer taken dest x y) : x.2 ≤ y.2 ∧ (x.1 = y.1 → x.2 < y.2) := by
  rcases h with hlt | ⟨hsame, hbefore⟩
  · exact ⟨hlt.le, fun _ => hlt⟩
  · refine ⟨hsame.le, fun hnode => absurd ?_ hbefore.ne⟩
    rw [hnode, hsame]

end Runs

end MarketPeer.Gossip

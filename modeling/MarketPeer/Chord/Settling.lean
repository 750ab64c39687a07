import Mathlib.Algebra.Order.BigOperators.Group.Finset
import Mathlib.Tactic.FinCases
import MarketPeer.Chord.Stabilize
import MarketPeer.Lib.Forever

/-!
# Stabilisation settles

A pointer that changes leads less far than before, so that in a run without end the
pointers stay as they are from some time on. As long as the rounds go on, they have
nothing left to change then.
-/

namespace MarketPeer.Chord

open MarketPeer.Ring

variable {N : Nat} {V : Type} {cfg : Config N}

/-! ## Pointers lead less far -/

/-- The successor and the predecessor of each node. -/
def World.links (w : World N V) (n : Fin N) : Option (Fin N) × Option (Fin N) :=
  ((w.nodes n).successor, (w.nodes n).predecessor)

/-- How far the pointers of a node lead; without one it is once around. -/
def span (C : Circle (Fin N)) (n : Fin N) (links : Option (Fin N) × Option (Fin N)) : Nat :=
  links.1.elim C.size (C.dist n) + links.2.elim C.size (C.dist · n)

def totalSpan (C : Circle (Fin N)) (links : Fin N → Option (Fin N) × Option (Fin N)) : Nat :=
  Finset.univ.sum fun n => span C n (links n)

section Spans

variable {C : Circle (Fin N)} {w w' : World N V} {n s : Fin N}

theorem totalSpan_update {links : Fin N → Option (Fin N) × Option (Fin N)} {l : Option (Fin N) × Option (Fin N)}
    (h : span C n l < span C n (links n)) : totalSpan C (Function.update links n l) < totalSpan C links := by
  have hn : span C n (Function.update links n l n) < span C n (links n) := by rwa [Function.update_self]
  refine Finset.sum_lt_sum ?_ ⟨n, Finset.mem_univ n, hn⟩
  intro m _
  by_cases hm : m = n
  · subst hm
    exact hn.le
  · rw [Function.update_of_ne hm]

theorem links_of_pointers (h : w'.pointers = w.pointers) : w'.links = w.links := by
  funext n
  have := congrFun h n
  exact Prod.ext (congrArg Pointers.successor this) (congrArg Pointers.predecessor this)

theorem links_update {q : Pointers N} (h : w'.pointers = Function.update w.pointers n q) :
    w'.links = Function.update w.links n (q.successor, q.predecessor) := by
  funext m
  have hm := congrFun h m
  by_cases hmn : m = n
  · subst hmn
    rw [Function.update_self] at hm ⊢
    exact Prod.ext (congrArg Pointers.successor hm) (congrArg Pointers.predecessor hm)
  · rw [Function.update_of_ne hmn] at hm ⊢
    exact Prod.ext (congrArg Pointers.successor hm) (congrArg Pointers.predecessor hm)

theorem links_update_same {q : Pointers N} (h : w'.pointers = Function.update w.pointers n q)
    (hs : q.successor = (w.nodes n).successor) (hp : q.predecessor = (w.nodes n).predecessor) : w'.links = w.links := by
  rw [links_update h, hs, hp]
  exact Function.update_eq_self n w.links

theorem Move.nearer {hinj : Function.Injective cfg.hashKey} {a b : Fin N} (h : RingInv (cfg.circle hinj) a b w)
    (hmove : Move cfg w w') :
    w'.links = w.links ∨ totalSpan (cfg.circle hinj) w'.links < totalSpan (cfg.circle hinj) w.links := by
  cases hmove with
  | other gone rest new hgone hnew hnet hnet' hptr => exact .inl (links_of_pointers hptr)
  | join n s hn hs hnet' hptr =>
    right
    rw [links_update hptr]
    apply totalSpan_update
    have hlt := (cfg.circle hinj).dist_lt n s
    have hnone : (w.nodes n).successor = none := hn
    simp only [span, World.links, World.pointers, Node.pointers, hnone, Option.elim_some, Option.elim_none]
    omega
  | stabilize n s hround hs hnet' hptr => exact .inl (links_update_same hptr rfl rfl)
  | ask n s rest hnet hnet' hptr => exact .inl (links_of_pointers hptr)
  | reply n s p rest hnet hnet' hptr => exact .inl (links_update_same hptr rfl rfl)
  | resume n s reply later hround hreply hnet' hptr =>
    have hs : (w.nodes n).successor = some s := h.rounds.stabilizing n s hround
    have hold : refreshed cfg n (w.nodes n).successor s reply = (w.nodes n).successor ∨
        ∃ p, refreshed cfg n (w.nodes n).successor s reply = some p ∧
          between (cfg.hashKey p) (cfg.hashKey n) (cfg.hashKey s) = true := by
      unfold refreshed
      cases reply with
      | none => exact .inl rfl
      | some p =>
        simp only
        split_ifs with hbetween
        · exact .inr ⟨p, rfl, hbetween⟩
        · exact .inl rfl
    rcases hold with hold | ⟨p, hp, hbetween⟩
    · exact .inl (links_update_same hptr hold rfl)
    · right
      rw [links_update hptr]
      apply totalSpan_update
      rw [between_iff (cfg.hashKey_lt p) (cfg.hashKey_lt n) (cfg.hashKey_lt s)] at hbetween
      have hless : (cfg.circle hinj).dist n p < (cfg.circle hinj).dist n s := hbetween.2
      rw [hs] at hp
      simp only [span, World.links, World.pointers, Node.pointers, hs, hp, Option.elim_some]
      omega
  | notify n s rest new hnet hnew hnet' hptr =>
    have hold : notified cfg s n (w.nodes s).predecessor = (w.nodes s).predecessor ∨
        notified cfg s n (w.nodes s).predecessor = some n ∧
          (cfg.circle hinj).dist n s < (w.nodes s).predecessor.elim (cfg.circle hinj).size
            ((cfg.circle hinj).dist · s) := by
      unfold notified
      cases hp : (w.nodes s).predecessor with
      | none => exact .inr ⟨rfl, (cfg.circle hinj).dist_lt n s⟩
      | some p =>
        simp only
        split_ifs with hbetween
        · right
          rw [between_iff (cfg.hashKey_lt n) (cfg.hashKey_lt p) (cfg.hashKey_lt s)] at hbetween
          have hpos : 0 < (cfg.circle hinj).dist p n := hbetween.1
          have hless : (cfg.circle hinj).dist p n < (cfg.circle hinj).dist p s := hbetween.2
          have hadd := (cfg.circle hinj).dist_add hless.le
          refine ⟨rfl, ?_⟩
          rw [Option.elim_some]
          omega
        · exact .inl rfl
    rcases hold with hold | ⟨hnew, hless⟩
    · exact .inl (links_update_same hptr rfl hold)
    · right
      rw [links_update hptr]
      apply totalSpan_update
      simp only [span, World.links, World.pointers, Node.pointers, hnew, Option.elim_some]
      omega

end Spans

/-! ## Rounds that go on -/

/-- Every node that has joined finishes rounds again and again, and no notification is on its way for ever. -/
structure Fair {w₀ : World N V} (r : Forever (step cfg) w₀) : Prop where
  rounds : ∀ t n, (r.state t).Joined n → ∃ u, t ≤ u ∧ r.event u = .resume n
  notified : ∀ t n s, ⟨n, s, .notify⟩ ∈ (r.state t).net →
    ∃ u k, t ≤ u ∧ r.event u = .deliver k ∧ (r.state u).net[k]? = some ⟨n, s, .notify⟩

/-- What `n` will hear in its round is the predecessor that `s` has now. -/
structure Fresh (w : World N V) (n s : Fin N) : Prop where
  reply : ∀ x p, ⟨x, n, .replyPredecessor p⟩ ∈ w.net → p = (w.nodes s).predecessor
  unread : ∀ p ∈ (w.nodes n).askPredecessorCh, p = (w.nodes s).predecessor

section Rounds

variable {C : Circle (Fin N)} {a b : Fin N} {w w' : World N V} {n s : Fin N}

/-- After a round nothing is left of it. -/
theorem RingInv.fresh (h : RingInv C a b w) (hround : (w.nodes n).stabilizing = none) : Fresh w n s := by
  have hone := h.rounds.one n
  rw [if_pos (show (w.pointers n).stabilizing = none from hround)] at hone
  constructor
  · intro x p hmem
    have hcount : w.net.countP (ofRound n) = 0 := by omega
    rw [List.countP_eq_zero] at hcount
    exact absurd (hcount _ hmem) (by simp [ofRound])
  · intro p hp
    have hch : (w.pointers n).askPredecessorCh = [] := List.length_eq_zero_iff.mp (by omega)
    rw [show (w.nodes n).askPredecessorCh = [] from hch] at hp
    cases hp

theorem Fresh.of_move (hfresh : Fresh w n s) (hpred : (w'.nodes s).predecessor = (w.nodes s).predecessor)
    (hch : ∀ p ∈ (w'.nodes n).askPredecessorCh, p ∈ (w.nodes n).askPredecessorCh ∨ p = (w.nodes s).predecessor)
    (hnet : ∀ x p, ⟨x, n, .replyPredecessor p⟩ ∈ w'.net →
      ⟨x, n, .replyPredecessor p⟩ ∈ w.net ∨ p = (w.nodes s).predecessor) : Fresh w' n s where
  reply x p hmem := by
    rw [hpred]
    exact (hnet x p hmem).elim (hfresh.reply x p) id
  unread p hp := by
    rw [hpred]
    exact (hch p hp).elim (hfresh.unread p) id

/-- While the pointers stay as they are, so does what the round will hear. -/
theorem Fresh.keep (h : RingInv C a b w) (hfresh : Fresh w n s) (hs : (w.nodes n).successor = some s)
    (hmove : Move cfg w w') (hlinks : w'.links = w.links) : Fresh w' n s := by
  have hpred : (w'.nodes s).predecessor = (w.nodes s).predecessor := congrArg Prod.snd (congrFun hlinks s)
  have hsame : (w'.pointers n).askPredecessorCh = (w.pointers n).askPredecessorCh →
      ∀ p ∈ (w'.nodes n).askPredecessorCh, p ∈ (w.nodes n).askPredecessorCh ∨ p = (w.nodes s).predecessor := by
    intro hch p hp
    exact .inl ((show (w'.nodes n).askPredecessorCh = (w.nodes n).askPredecessorCh from hch) ▸ hp)
  cases hmove with
  | other gone rest new hgone hnew hnet hnet' hptr =>
    refine hfresh.of_move hpred (hsame (by rw [hptr])) ?_
    intro x p hmem
    rw [hnet'] at hmem
    rcases List.mem_append.mp hmem with hmem | hmem
    · exact .inl (hnet.mem_iff.mpr (List.mem_append_right gone hmem))
    · cases hnew _ hmem
  | join m t hm ht hnet' hptr =>
    refine hfresh.of_move hpred (hsame (by rw [hptr]; exact update_field Pointers.askPredecessorCh _ (by rfl) n)) ?_
    intro x p hmem
    exact .inl (hnet' ▸ hmem)
  | stabilize m t hround ht hnet' hptr =>
    refine hfresh.of_move hpred (hsame (by rw [hptr]; exact update_field Pointers.askPredecessorCh _ (by rfl) n)) ?_
    intro x p hmem
    rw [hnet'] at hmem
    rcases List.mem_append.mp hmem with hmem | hmem
    · exact .inl hmem
    · simp at hmem
  | ask m t rest hnet hnet' hptr =>
    refine hfresh.of_move hpred (hsame (by rw [hptr])) ?_
    intro x p hmem
    rw [hnet'] at hmem
    rcases List.mem_append.mp hmem with hmem | hmem
    · exact .inl (hnet.mem_iff.mpr (List.mem_cons_of_mem _ hmem))
    · simp only [List.mem_singleton, Packet.mk.injEq, Msg.replyPredecessor.injEq] at hmem
      obtain ⟨rfl, rfl, rfl⟩ := hmem
      -- only the successor is asked
      have ht := h.rounds.stabilizing n x (h.rounds.ask n x (hnet.mem_iff.mpr List.mem_cons_self))
      have hst : some s = some x := hs.symm.trans ht
      rw [Option.some.injEq] at hst
      subst hst
      exact .inr rfl
  | reply m t q rest hnet hnet' hptr =>
    refine hfresh.of_move hpred ?_ ?_
    · intro p hp
      by_cases hmn : n = m
      · subst hmn
        have hch : (w'.nodes n).askPredecessorCh = (w.nodes n).askPredecessorCh ++ [q] := by
          have := congrFun hptr n
          rw [Function.update_self] at this
          exact congrArg Pointers.askPredecessorCh this
        rw [hch] at hp
        rcases List.mem_append.mp hp with hp | hp
        · exact .inl hp
        · rw [List.mem_singleton] at hp
          subst hp
          exact .inr (hfresh.reply t p (hnet.mem_iff.mpr List.mem_cons_self))
      · refine hsame ?_ p hp
        rw [hptr, Function.update_of_ne hmn]
    · intro x p hmem
      rw [hnet'] at hmem
      exact .inl (hnet.mem_iff.mpr (List.mem_cons_of_mem _ hmem))
  | resume m t q later hround hreply hnet' hptr =>
    refine hfresh.of_move hpred ?_ ?_
    · intro p hp
      by_cases hmn : n = m
      · subst hmn
        have hch : (w'.nodes n).askPredecessorCh = later := by
          have := congrFun hptr n
          rw [Function.update_self] at this
          exact congrArg Pointers.askPredecessorCh this
        have hold : (w.nodes n).askPredecessorCh = q :: later := hreply
        rw [hch] at hp
        rw [hold]
        exact .inl (List.mem_cons_of_mem q hp)
      · refine hsame ?_ p hp
        rw [hptr, Function.update_of_ne hmn]
    · intro x p hmem
      rw [hnet'] at hmem
      rcases List.mem_append.mp hmem with hmem | hmem
      · exact .inl hmem
      · simp at hmem
  | notify m t rest new hnet hnew hnet' hptr =>
    refine hfresh.of_move hpred (hsame (by rw [hptr]; exact update_field Pointers.askPredecessorCh _ (by rfl) n)) ?_
    intro x p hmem
    rw [hnet'] at hmem
    rcases List.mem_append.mp hmem with hmem | hmem
    · exact .inl (hnet.mem_iff.mpr (List.mem_cons_of_mem _ hmem))
    · cases hnew _ hmem

/-- The end of a round. -/
theorem resume_spec (hstep : step cfg w (.resume n) = some w') : ∃ s reply later,
    (w.nodes n).stabilizing = some s ∧ (w.nodes n).askPredecessorCh = reply :: later ∧
      (w'.nodes n).stabilizing = none ∧
      (w'.nodes n).successor = refreshed cfg n (w.nodes n).successor s reply ∧
      w'.net = w.net ++ (refreshed cfg n (w.nodes n).successor s reply).toList.map (⟨n, ·, .notify⟩) := by
  obtain ⟨e, he, rfl⟩ := Option.map_eq_some_iff.mp hstep
  unfold stabilizeResume at he
  split at he
  · next s reply later hround hreply =>
    rw [refresh_eq] at he
    cases he
    exact ⟨s, reply, later, hround, hreply, by simp [World.commit], by simp [World.commit], by simp [World.commit]⟩
  · cases he

theorem notify_spec {k : Nat} (hk : w.net[k]? = some ⟨n, s, .notify⟩) (hstep : step cfg w (.deliver k) = some w') :
    (w'.nodes s).predecessor = notified cfg s n (w.nodes s).predecessor := by
  simp only [step, deliver, hk, Option.bind_some] at hstep
  split_ifs at hstep
  obtain ⟨e, he, rfl⟩ := Option.map_eq_some_iff.mp hstep
  cases he
  simp only [World.commit, Function.update_self]
  exact congrArg Pointers.predecessor (chordNotifyCallback_spec cfg s (w.nodes s) n).1

end Rounds

/-! ## Whole runs -/

section Runs

variable {a b : Fin N} {w₀ : World N V} {hinj : Function.Injective cfg.hashKey}

/-- From the time on when nothing changes any more, a node and its successor know each other. -/
theorem predecessor_of_settled (r : Forever (step cfg) w₀) (hinv : ∀ t, RingInv (cfg.circle hinj) a b (r.state t))
    (hfair : Fair r) {T : Nat} (hT : ∀ t, T ≤ t → (r.state t).links = (r.state T).links) {n s : Fin N}
    (hs : ((r.state T).nodes n).successor = some s) : ((r.state T).nodes s).predecessor = some n := by
  have hsucc (t : Nat) (ht : T ≤ t) : ((r.state t).nodes n).successor = some s :=
    (congrArg Prod.fst (congrFun (hT t ht) n)).trans hs
  have hpred (t : Nat) (ht : T ≤ t) : ((r.state t).nodes s).predecessor = ((r.state T).nodes s).predecessor :=
    congrArg Prod.snd (congrFun (hT t ht) s)
  have hjoined (t : Nat) (ht : T ≤ t) : (r.state t).Joined n := by simp [World.Joined, hsucc t ht]
  -- the second round from now on asks after the pointers have settled
  obtain ⟨u, hu, hfirst⟩ := hfair.rounds T n (hjoined T le_rfl)
  obtain ⟨v, hv, hsecond⟩ := hfair.rounds (u + 1) n (hjoined (u + 1) (by omega))
  have hfresh : ∀ t, u + 1 ≤ t → Fresh (r.state t) n s := by
    intro t ht
    induction t, ht using Nat.le_induction with
    | base =>
      obtain ⟨-, -, -, -, -, hround, -⟩ := resume_spec (hfirst ▸ r.next u)
      exact (hinv (u + 1)).fresh hround
    | succ t ht ih =>
      refine ih.keep (hinv t) (hsucc t (by omega)) (step_move (r.next t)) ?_
      rw [hT (t + 1) (by omega), hT t (by omega)]
  obtain ⟨s', reply, later, hround, hch, -, hnew, hnet⟩ := resume_spec (hsecond ▸ r.next v)
  have hs' : ((r.state v).nodes n).successor = some s' := (hinv v).rounds.stabilizing n s' hround
  rw [hsucc v (by omega), Option.some.injEq] at hs'
  subst hs'
  have hreply : reply = ((r.state T).nodes s).predecessor := by
    rw [← hpred v (by omega)]
    exact (hfresh v hv).unread reply (by rw [hch]; exact List.mem_cons_self)
  rw [hsucc v (by omega), hreply] at hnew hnet
  rw [hsucc (v + 1) (by omega)] at hnew
  rw [← hnew] at hnet
  -- nor does the notification at the end of that round change anything
  have hmem : ⟨n, s, .notify⟩ ∈ (r.state (v + 1)).net := by
    rw [hnet]
    simp
  obtain ⟨x, k, hx, hdeliver, hk⟩ := hfair.notified (v + 1) n s hmem
  have hnotified := notify_spec hk (hdeliver ▸ r.next x)
  rw [hpred x (by omega), hpred (x + 1) (by omega)] at hnotified
  exact predecessor_of_kept (hinv T) hs hnew.symm hnotified.symm

/-- Nodes that know each other both ways are in the order of their identifiers. -/
theorem idealRing_of_inverse {w : World N V} (hab : a ≠ b) (h : RingInv (cfg.circle hinj) a b w)
    (hpred : ∀ n s, (w.nodes n).successor = some s → (w.nodes s).predecessor = some n) :
    ∃ ring : List (Fin N), (∀ n, n ∈ ring ↔ w.Joined n) ∧ IdealRing cfg w ring := by
  obtain ⟨ring, hmem, hsorted⟩ := exists_sorted hinj w
  have hone (x y z : Fin N) (hx : next w.pointers x = some z) (hy : next w.pointers y = some z) : x = y :=
    Option.some.inj ((hpred x z hx).symm.trans (hpred y z hy))
  have hsucc : ∀ n s, Circle.Follows ring n s → (w.nodes n).successor = some s := by
    intro n s hfollows
    have hjoined := (hmem n).mp hfollows.mem_left
    obtain ⟨t, ht⟩ := Option.ne_none_iff_exists'.mp hjoined
    obtain ⟨hnt, htjoined⟩ := h.cyclic.closed n t ht
    rw [hsorted.eq_of_nearest hfollows ((hmem t).mpr htjoined) hnt, ht]
    intro y hy hny
    exact Circle.nearest hab h.cyclic.there h.cyclic.back hone (h.cyclic.reaches n hjoined)
      (h.cyclic.reaches y ((hmem y).mp hy)) ht hny
  exact ⟨ring, hmem, hsorted, hsucc, fun n s hfollows => hpred n s (hsucc n s hfollows)⟩

theorem IdealRing.congr {w w' : World N V} {ring : List (Fin N)} (h : IdealRing cfg w ring)
    (hlinks : w'.links = w.links) : IdealRing cfg w' ring where
  sorted := h.sorted
  successor n s hfollows := (congrArg Prod.fst (congrFun hlinks n)).trans (h.successor n s hfollows)
  predecessor n s hfollows := (congrArg Prod.snd (congrFun hlinks s)).trans (h.predecessor n s hfollows)

/-- Stabilisation reaches the ideal ring for good. In every run without end of a system that two nodes began, in which
no round times out and no `Unicast` fails, with any joins, puts and lookups in between: if every node that has joined
finishes rounds again and again and no notification stays on its way, then from some time on the pointers of all nodes
that have joined are the ideal ring. -/
theorem fair_runs_reach_ring (hinj : Function.Injective cfg.hashKey) (hab : a ≠ b)
    (r : Forever (step cfg) (World.initial cfg V a b)) (hfair : Fair r) :
    ∃ (T : Nat) (ring : List (Fin N)), ∀ t, T ≤ t →
      (∀ n, n ∈ ring ↔ (r.state t).Joined n) ∧ IdealRing cfg (r.state t) ring := by
  have hinv (t : Nat) : RingInv (cfg.circle hinj) a b (r.state t) := run_ringInv hinj hab _ (r.run_to t)
  obtain ⟨T, hT⟩ := r.settles World.links (totalSpan (cfg.circle hinj)) fun t => (step_move (r.next t)).nearer (hinv t)
  obtain ⟨ring, hmem, hring⟩ :=
    idealRing_of_inverse hab (hinv T) fun n s hs => predecessor_of_settled r hinv hfair hT hs
  refine ⟨T, ring, fun t ht => ⟨fun n => ?_, hring.congr (hT t ht)⟩⟩
  have hsucc : ((r.state t).nodes n).successor = ((r.state T).nodes n).successor :=
    congrArg Prod.fst (congrFun (hT t ht) n)
  rw [hmem n, World.Joined, World.Joined, hsucc]

end Runs

/-! ## The node that joins late -/

def roundOf (n : Fin 3) : List (Event 3 Nat) := [.stabilize n, .deliver 0, .deliver 0, .resume n, .deliver 0]

def lateRing : World 3 Nat :=
  (run (step sampleConfig) (World.initial sampleConfig Nat 0 1) lateJoin).getD (World.initial sampleConfig Nat 0 1)

/-- A notification is delivered at once. -/
def NotifiedNext (w : World 3 Nat) (e : Event 3 Nat) : Prop :=
  ∀ pkt ∈ w.net, (pkt.msg matches .notify) = true → (e matches .deliver 0) = true ∧ w.net.length = 1

instance (w : World 3 Nat) (e : Event 3 Nat) : Decidable (NotifiedNext w e) :=
  inferInstanceAs (Decidable (∀ pkt ∈ w.net, (pkt.msg matches .notify) = true → _))

theorem lateRing_goes_round :
    run (step sampleConfig) lateRing (roundOf 0 ++ roundOf 1 ++ roundOf 2) = some lateRing := by
  obtain ⟨w, hw⟩ : ∃ w, run (step sampleConfig) lateRing (roundOf 0 ++ roundOf 1 ++ roundOf 2) = some w :=
    Option.isSome_iff_exists.mp (by decide)
  have hfield {α : Type} (f : World 3 Nat → α)
      (hf : (run (step sampleConfig) lateRing (roundOf 0 ++ roundOf 1 ++ roundOf 2)).map f = some (f lateRing)) :
      f w = f lateRing := by
    rw [hw] at hf
    exact Option.some.inj hf
  have hnodes : w.nodes = lateRing.nodes := by
    funext n
    fin_cases n
    · exact hfield (·.nodes 0) rfl
    · exact hfield (·.nodes 1) rfl
    · exact hfield (·.nodes 2) rfl
  have hnet : w.net = lateRing.net := hfield (·.net) rfl
  have hwritten : w.written = lateRing.written := hfield (·.written) rfl
  rw [hw]
  cases w
  cases hnodes
  cases hnet
  cases hwritten
  rfl

/-- Node 2 joins in the wrong place, and then the three nodes run rounds for ever. -/
theorem lateRing_settles : ∃ r : Forever (step sampleConfig) (World.initial sampleConfig Nat 0 1), Fair r ∧
    ∃ (T : Nat) (ring : List (Fin 3)), ∀ t, T ≤ t →
      (∀ n, n ∈ ring ↔ (r.state t).Joined n) ∧ IdealRing sampleConfig (r.state t) ring := by
  have hmeets : Meets (step sampleConfig) NotifiedNext (World.initial sampleConfig Nat 0 1)
      (lateJoin ++ (roundOf 0 ++ roundOf 1 ++ roundOf 2)) := by decide
  obtain ⟨r, hnotified, hcomes⟩ := exists_lasso (s := lateRing) (by simp [roundOf]) rfl lateRing_goes_round hmeets
  have hfair : Fair r := by
    constructor
    · intro t n _
      refine hcomes (.resume n) ?_ t
      fin_cases n <;> simp [roundOf]
    · intro t n s hmem
      obtain ⟨hdeliver, hlength⟩ := hnotified t _ hmem rfl
      obtain ⟨pkt, hpkt⟩ := List.length_eq_one_iff.mp hlength
      rw [hpkt, List.mem_singleton] at hmem
      refine ⟨t, 0, le_rfl, ?_, ?_⟩
      · generalize r.event t = e at hdeliver
        split at hdeliver
        · rfl
        · cases hdeliver
      · rw [hpkt, ← hmem]
        rfl
  exact ⟨r, hfair, fair_runs_reach_ring (by decide) (by decide) r hfair⟩

end MarketPeer.Chord

import Mathlib.Data.Fintype.Card
import MarketPeer.Paxos.Proposers

/-!
# A ballot has one proposal

A proposal stands on a majority of promises for its own ballot. A promise is in
one place at a time: in the channel, with the call of `propose` that read it, or
in the proposal that it was spent on.
-/

namespace MarketPeer.Paxos

variable {N : Nat}

/-! ## What a proposal stands on -/

structure ProposalOk (cfg : Config N) (w : World N) (q : Proposal N) : Prop where
  positive : 1 ≤ q.id
  residue : (q.id - 1) % N = cfg.paxosID q.peer - 1
  count : q.promises.length = threshold N
  promises : ∀ c ∈ q.promises, c.step = q.step ∧ c.id = q.id ∧ FromRumor w q.peer c
  safe : ∃ m < q.id, (∀ c ∈ q.promises, c.acceptedID ≤ m) ∧
    (m = 0 ∨ ∃ a, w.Sent a (.accept q.step m q.value))

section Step

variable {cfg : Config N} {w : World N} {i : Fin N} {e : Effect N}

theorem ProposalOk.commit {q : Proposal N} (h : ProposalOk cfg w q) : ProposalOk cfg (w.commit i e) q where
  positive := h.positive
  residue := h.residue
  count := h.count
  promises c hc := by
    obtain ⟨hstep, hid, hfrom⟩ := h.promises c hc
    exact ⟨hstep, hid, hfrom.commit⟩
  safe := by
    obtain ⟨m, hm, hle, hvote⟩ := h.safe
    refine ⟨m, hm, hle, ?_⟩
    rcases hvote with hzero | ⟨a, hvote⟩
    · exact Or.inl hzero
    · exact Or.inr ⟨a, hvote.commit⟩

theorem proposalOk_step (hdoes : Does cfg w.sent i (w.peers i) e) (hproposer : ProposerOk cfg w i)
    (h : ∀ q ∈ w.proposed, ProposalOk cfg w q) (q : Proposal N) (hq : q ∈ (w.commit i e).proposed) :
    ProposalOk cfg (w.commit i e) q := by
  apply ProposalOk.commit
  rcases List.mem_append.mp hq with hq | hq
  · exact h q hq
  · rw [Option.mem_toList] at hq
    obtain ⟨t, ht, rfl, hstep, hlen, hone⟩ := hdoes.proposes q hq
    have hroutine := hproposer.routines t ht
    refine ⟨hproposer.positive, hproposer.residue, hlen, ?_, ?_⟩
    · intro c hc
      obtain ⟨hcstep, -, hfrom⟩ := hroutine.read c hc
      exact ⟨hcstep.trans hstep, hone c hc, hfrom⟩
    · refine ⟨t.highestAcceptedID, hroutine.reached.2 hstep, ?_, ?_⟩
      · intro c hc
        exact (hroutine.read c hc).2.1
      · have hvalue := hroutine.value
        rw [hstep] at hvalue
        exact hvalue

end Step

/-! ## Every promise is used once -/

def uses (k : Nat) (promises : List Promise) : Nat := promises.countP (·.rumor = k)

theorem count_rumor (k : Nat) (promises : List Promise) : (promises.map Promise.rumor).count k = uses k promises := by
  unfold uses List.count
  rw [List.countP_map]
  rfl

def Peer.holds (p : Peer) (k : Nat) : Nat :=
  uses k p.promiseCh + (p.routines.map fun t => uses k t.read).sum

def spent (proposed : List (Proposal N)) (j : Fin N) (k : Nat) : Nat :=
  (proposed.map fun q => if q.peer = j then uses k q.promises else 0).sum

def UsedOnce (w : World N) (j : Fin N) : Prop :=
  ∀ k, (w.peers j).holds k + spent w.proposed j k ≤ if k ∈ (w.peers j).processed then 1 else 0

theorem usedOnce_init (cfg : Config N) (j : Fin N) : UsedOnce (World.init cfg) j := by
  intro k
  simp [World.init, Peer.init, Peer.holds, uses, spent]

section Uses

variable {p : Peer} {r : Nat} {t : Routine} (hr : p.routines[r]? = some t) (t' : Routine)
include hr

theorem holds_setRoutine (k : Nat) :
    (p.setRoutine r t').holds k + uses k t.read = p.holds k + uses k t'.read := by
  have hsum := sum_map_set (fun t => uses k t.read) p.routines r t t' hr
  unfold Peer.holds Peer.setRoutine
  simp only [] at hsum ⊢
  omega

theorem holds_move_le (hmove : RoutineMove t t') (k : Nat) : (p.setRoutine r t').holds k ≤ p.holds k := by
  have hset := holds_setRoutine hr t' k
  rcases hmove.read with hread | hread
  · rw [hread] at hset
    omega
  · simp only [hread, uses, List.countP_nil] at hset
    omega

end Uses

@[simp] theorem spent_nil (j : Fin N) (k : Nat) : spent ([] : List (Proposal N)) j k = 0 := rfl

theorem spent_append (l l' : List (Proposal N)) (j : Fin N) (k : Nat) :
    spent (l ++ l') j k = spent l j k + spent l' j k := by
  simp [spent]

section UsedOnce

variable {cfg : Config N} {w : World N} {i : Fin N} {e : Effect N}
  (hdoes : Does cfg w.sent i (w.peers i) e)
include hdoes

/-- What one step does to the promises a peer holds: one comes in, or some are dropped or spent. -/
theorem Does.holds :
    (∃ c, c ∉ (w.peers i).processed ∧ c ∈ e.peer.processed ∧ e.proposal = none ∧
      ∀ k, e.peer.holds k = (w.peers i).holds k + if c = k then 1 else 0) ∨
    (∀ k, e.peer.holds k + spent e.proposal.toList i k ≤ (w.peers i).holds k) := by
  cases hdoes with
  | idle p' msg hframe hmsg =>
    refine Or.inr fun k => ?_
    simp [Peer.holds, hframe.promiseCh, hframe.routines]
  | promiseIn o c hk hstep hsent =>
    refine Or.inl ⟨c.rumor, hk, List.mem_cons_self, rfl, fun k => ?_⟩
    simp only [Peer.holds, uses, List.countP_append, List.countP_singleton, decide_eq_true_eq]
    omega
  | started t phase hstep hread hhighest =>
    refine Or.inr fun k => ?_
    simp [Peer.holds, hread, uses]
  | moved r t t' phase signal hr hmove => exact Or.inr (holds_move_le hr t' hmove)
  | prepared r t t' hr hmove => exact Or.inr (holds_move_le hr t' hmove)
  | timedOut r t t' hr hmove => exact Or.inr (holds_move_le hr t' hmove)
  | readOne r t t' c rest hr hch hstep hread =>
    refine Or.inr fun k => ?_
    have hset := holds_setRoutine (p := { w.peers i with promiseCh := rest }) hr t' k
    simp only [Peer.holds, uses, hread.read, hch, List.countP_append, List.countP_cons, List.countP_nil,
      Option.toList_none, spent_nil] at hset ⊢
    omega
  | entered r t t' hr hstep hlen hmove hread hone =>
    refine Or.inr fun k => ?_
    have hset := holds_setRoutine hr t' k
    simp only [Peer.holds, hread, spent, uses, List.countP_nil, Option.toList_some, List.map_cons,
      List.map_nil, List.sum_cons, List.sum_nil, if_true] at hset ⊢
    omega
  | advanced p' hadv =>
    refine Or.inr fun k => ?_
    simp [Peer.holds, hadv.promiseCh, hadv.routines, uses]
  | _ => exact Or.inr fun k => Nat.le_refl _

theorem UsedOnce.self (h : UsedOnce w i) : UsedOnce (w.commit i e) i := by
  intro k
  have hk := h k
  have hspent : spent (w.commit i e).proposed i k = spent w.proposed i k + spent e.proposal.toList i k :=
    spent_append _ _ i k
  have hprocessed : (if k ∈ (w.peers i).processed then 1 else 0) ≤ if k ∈ e.peer.processed then 1 else 0 := by
    by_cases hold : k ∈ (w.peers i).processed
    · rw [if_pos hold, if_pos (hdoes.processed_subset hold)]
    · rw [if_neg hold]
      exact Nat.zero_le _
  rw [commit_peers_self, hspent]
  rcases hdoes.holds with ⟨c, hnew, hin, hnone, hholds⟩ | hle
  · rw [hholds k, hnone, Option.toList_none, spent_nil]
    by_cases hck : c = k
    · subst hck
      rw [if_neg hnew] at hk
      rw [if_pos rfl, if_pos hin]
      omega
    · rw [if_neg hck]
      omega
  · have hle := hle k
    omega

theorem usedOnce_step (h : ∀ j, UsedOnce w j) (j : Fin N) : UsedOnce (w.commit i e) j := by
  by_cases hj : j = i
  · subst hj
    exact (h j).self hdoes
  · intro k
    have hnone : spent e.proposal.toList j k = 0 := by
      cases hq : e.proposal with
      | none => rfl
      | some q =>
        obtain ⟨t, -, rfl, -⟩ := hdoes.proposes q hq
        simp [spent, Ne.symm hj]
    have hspent : spent (w.commit i e).proposed j k = spent w.proposed j k := by
      unfold World.commit
      rw [spent_append, hnone, Nat.add_zero]
    rw [commit_peers_of_ne w i e hj, hspent]
    exact h j k

end UsedOnce

/-! ## One proposal -/

def OneProposal (w : World N) : Prop :=
  ∀ q ∈ w.proposed, ∀ q' ∈ w.proposed, q.step = q'.step → q.id = q'.id → q = q'

theorem two_mul_threshold (N : Nat) : N < 2 * threshold N := by
  unfold threshold
  omega

theorem ProposalOk.peer_eq {cfg : Config N} {w : World N} {q q' : Proposal N} (h : ProposalOk cfg w q)
    (h' : ProposalOk cfg w q') (hid : q.id = q'.id) : q.peer = q'.peer := by
  have hres := h.residue
  have hres' := h'.residue
  have hrange := cfg.inRange q.peer
  have hrange' := cfg.inRange q'.peer
  rw [hid, hres'] at hres
  exact cfg.distinct (by omega)

section Nodup

variable {w : World N} {q q' : Proposal N} (h : UsedOnce w q.peer) (hq : q ∈ w.proposed)
include h

theorem UsedOnce.spent_le_one (k : Nat) : spent w.proposed q.peer k ≤ 1 := by
  have hk := h k
  split_ifs at hk <;> omega

include hq

/-- The promises of a proposal came in different rumors. -/
theorem UsedOnce.nodup : (q.promises.map Promise.rumor).Nodup := by
  rw [List.nodup_iff_count_le_one]
  intro k
  have hle := h.spent_le_one k
  have hsum := le_sum_map (fun x => if x.peer = q.peer then uses k x.promises else 0) w.proposed q hq
  simp only [if_true] at hsum
  rw [count_rumor]
  exact Nat.le_trans hsum hle

theorem UsedOnce.nodup_append (hq' : q' ∈ w.proposed) (hpeer : q.peer = q'.peer) (hne : q ≠ q') :
    ((q.promises ++ q'.promises).map Promise.rumor).Nodup := by
  rw [List.nodup_iff_count_le_one]
  intro k
  have hle := h.spent_le_one k
  have hsum := add_le_sum_map (fun x => if x.peer = q.peer then uses k x.promises else 0) w.proposed q q'
    hne hq hq'
  simp only [if_true, ← hpeer] at hsum
  rw [List.map_append, List.count_append, count_rumor, count_rumor]
  exact Nat.le_trans hsum hle

end Nodup

theorem proposal_unique {cfg : Config N} {w : World N} (hacceptors : ∀ a, AcceptorOk w a)
    (hproposals : ∀ q ∈ w.proposed, ProposalOk cfg w q) (hused : ∀ j, UsedOnce w j) : OneProposal w := by
  intro q hq q' hq' hstep hid
  by_contra hne
  have hok := hproposals q hq
  have hok' := hproposals q' hq'
  have hpeer := hok.peer_eq hok' hid
  have hnodup := (hused q.peer).nodup_append hq hq' hpeer hne
  -- Both have a majority of promises for the ballot, and no acceptor gives two.
  obtain ⟨Q, hcard, -⟩ := exists_senders ((q.promises ++ q'.promises).map Promise.rumor).toFinset
    (fun k a => ∃ m x, w.At k a (.promise q.peer q.step q.id m x)) (by
      intro k hk
      rw [List.mem_toFinset, List.map_append, List.mem_append, List.mem_map, List.mem_map] at hk
      rcases hk with ⟨c, hc, rfl⟩ | ⟨c, hc, rfl⟩
      · obtain ⟨hs, hb, a, hat⟩ := hok.promises c hc
        exact ⟨a, _, _, hs ▸ hb ▸ hat⟩
      · obtain ⟨hs, hb, a, hat⟩ := hok'.promises c hc
        rw [hs, hb, ← hpeer, ← hstep, ← hid] at hat
        exact ⟨a, _, _, hat⟩) (by
      rintro k - k' - a ⟨m, x, hk⟩ ⟨m', x', hk'⟩
      exact (hacceptors a).promiseOnce k k' _ _ _ _ _ _ _ _ hk hk')
  have hle := Finset.card_le_univ Q
  have hlen : ((q.promises ++ q'.promises).map Promise.rumor).length = 2 * threshold N := by
    rw [List.length_map, List.length_append, hok.count, hok'.count]
    omega
  rw [hcard, List.toFinset_card_of_nodup hnodup, hlen, Fintype.card_fin] at hle
  have hmajority := two_mul_threshold N
  omega

end MarketPeer.Paxos

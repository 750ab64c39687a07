import Mathlib.Data.Fintype.Card
import Mathlib.Data.Finset.Card
import Mathlib.Tactic.Common

/-!
# Votes in ballots

Acceptors vote for the values that were proposed in numbered ballots. When a
ballot has one proposal, and every proposal repeats the last value that a quorum
could still have voted for, then two quorums of votes are for one value.
-/

namespace MarketPeer

section Voting

variable {A V : Type} [Fintype A] [DecidableEq A]

structure Ballots (A V : Type) where
  proposed : Nat → V → Prop
  voted : A → Nat → V → Prop

/-- Nobody in `Q` has voted between ballot `m` and ballot `b`. -/
def Ballots.Quiet (B : Ballots A V) (Q : Finset A) (m b : Nat) : Prop :=
  ∀ a ∈ Q, ∀ b' v, B.voted a b' v → b' < b → b' ≤ m

/-- What the proposers and the acceptors of all ballots keep to. -/
structure Ballots.Disciplined (B : Ballots A V) (threshold : Nat) : Prop where
  positive : ∀ b v, B.proposed b v → 0 < b
  voted_proposed : ∀ a b v, B.voted a b v → B.proposed b v
  proposed_once : ∀ b v v', B.proposed b v → B.proposed b v' → v = v'
  safe : ∀ b v, B.proposed b v → ∃ Q : Finset A, threshold ≤ Q.card ∧
    ∃ m < b, B.Quiet Q m b ∧ (m = 0 ∨ B.proposed m v)

def Ballots.Chosen (B : Ballots A V) (threshold b : Nat) (v : V) : Prop :=
  ∃ Q : Finset A, threshold ≤ Q.card ∧ ∀ a ∈ Q, B.voted a b v

theorem quorums_meet {threshold : Nat} (hmajority : Fintype.card A < 2 * threshold) (Q Q' : Finset A)
    (hQ : threshold ≤ Q.card) (hQ' : threshold ≤ Q'.card) : ∃ a, a ∈ Q ∧ a ∈ Q' := by
  by_contra hno
  have hdisjoint : Disjoint Q Q' := by
    rw [Finset.disjoint_left]
    intro a ha ha'
    exact hno ⟨a, ha, ha'⟩
  have hunion := Finset.card_union_of_disjoint hdisjoint
  have hle := Finset.card_le_univ (Q ∪ Q')
  omega

variable {B : Ballots A V} {threshold : Nat}

theorem chosen_proposed (hmajority : Fintype.card A < 2 * threshold) (hB : B.Disciplined threshold)
    (b : Nat) (v : V) (hchosen : B.Chosen threshold b v) (b' : Nat) (v' : V) (hle : b ≤ b')
    (hprop : B.proposed b' v') : v = v' := by
  obtain ⟨Q, hQ, hvotes⟩ := hchosen
  induction b' using Nat.strong_induction_on with
  | _ b' ih =>
    obtain ⟨Q', hQ', m, hm, hquiet, hval⟩ := hB.safe b' v' hprop
    obtain ⟨a, ha, ha'⟩ := quorums_meet hmajority Q Q' hQ hQ'
    have hvote := hvotes a ha
    rcases Nat.eq_or_lt_of_le hle with rfl | hlt
    · exact hB.proposed_once b v v' (hB.voted_proposed a b v hvote) hprop
    · -- The common acceptor has voted below `b'`, so the value repeats a ballot from `b` on.
      have hbm : b ≤ m := hquiet a ha' b v hvote hlt
      have hb := hB.positive b v (hB.voted_proposed a b v hvote)
      rcases hval with hm0 | hval
      · omega
      · exact ih m hm hbm hval

theorem chosen_unique (hmajority : Fintype.card A < 2 * threshold) (hB : B.Disciplined threshold)
    (b b' : Nat) (v v' : V) (h : B.Chosen threshold b v) (h' : B.Chosen threshold b' v') : v = v' := by
  have hproposed : ∀ b v, B.Chosen threshold b v → B.proposed b v := by
    rintro b v ⟨Q, hQ, hvotes⟩
    obtain ⟨a, ha, -⟩ := quorums_meet hmajority Q Q hQ hQ
    exact hB.voted_proposed a b v (hvotes a ha)
  rcases Nat.le_total b b' with hle | hle
  · exact chosen_proposed hmajority hB b v h b' v' hle (hproposed b' v' h')
  · exact (chosen_proposed hmajority hB b' v' h' b v hle (hproposed b v h)).symm

end Voting

end MarketPeer

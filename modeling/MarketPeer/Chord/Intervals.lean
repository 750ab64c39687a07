import MarketPeer.Chord.Model
import MarketPeer.Lib.Ring

/-!
# The intervals of the identifiers

`between` and `betweenRightInclude`: which interval a key falls into, and which part of a
store that takes.
-/

namespace MarketPeer.Chord

open MarketPeer.Ring

section Intervals

variable {M id left right : Nat}

theorem between_iff (hid : id < M) (hleft : left < M) (hright : right < M) :
    between id left right = true ↔ 0 < cw M left id ∧ cw M left id < cw M left right := by
  unfold between cw
  split_ifs <;> simp <;> omega

theorem betweenRightInclude_iff (hid : id < M) (hleft : left < M) (hright : right < M)
    (hne : left ≠ right) : betweenRightInclude id left right = true ↔ InArc M left id right := by
  unfold betweenRightInclude InArc
  rw [Bool.or_eq_true, between_iff hid hleft hright, beq_iff_eq]
  constructor
  · rintro (h | rfl)
    · omega
    · exact ⟨cw_pos hleft hne, le_rfl⟩
  · rintro ⟨hpos, hle⟩
    rcases hle.lt_or_eq with h | h
    · exact .inl ⟨hpos, h⟩
    · exact .inr (cw_right_inj hleft hid hright h)

/-- A number between the two cuts their interval in two, which have no key in common. -/
theorem betweenRightInclude_cut {p n q : Nat} (hq : between q p n = true) (k : Nat) :
    (betweenRightInclude k p n = true ↔ betweenRightInclude k p q = true ∨ betweenRightInclude k q n = true) ∧
      ¬ (betweenRightInclude k p q = true ∧ betweenRightInclude k q n = true) := by
  unfold between at hq
  unfold betweenRightInclude between
  split_ifs at hq ⊢ <;> simp at hq ⊢ <;> omega

/-- A closer predecessor splits the keys of a node in two. -/
theorem between_split {k n p x : Nat} (h : between n p x = true) :
    (betweenRightInclude k n x = true → betweenRightInclude k p x = true) ∧
      (betweenRightInclude k p n = true → betweenRightInclude k n x = false) := by
  obtain ⟨hunion, hdisjoint⟩ := betweenRightInclude_cut h k
  constructor
  · intro hk
    exact hunion.mpr (.inr hk)
  · intro hk
    rw [← Bool.not_eq_true]
    exact fun hk' => hdisjoint ⟨hk, hk'⟩

theorem between_ne_left {p n q : Nat} (hq : between q p n = true) : q ≠ p := by
  unfold between at hq
  split_ifs at hq <;> simp at hq <;> omega

end Intervals

/-- The intervals from each identifier of a ring to the next one hold every key once, and a number inside an
interval cuts it in two. -/
theorem ringIntervals_partition :
    (∀ (m : Nat) (S : Finset Nat), (∀ n ∈ S, n < 2 ^ m) → 2 ≤ S.card → ∀ k < 2 ^ m,
      ∃! n, n ∈ S ∧ betweenRightInclude k (cyclicPred S n) n = true) ∧
    ∀ p n q k : Nat, p ≠ n → between q p n = true →
      (betweenRightInclude k p n = true ↔
        Xor (betweenRightInclude k p q = true) (betweenRightInclude k q n = true)) := by
  constructor
  · intro m S hS htwo k hk
    have hiff : ∀ n ∈ S, betweenRightInclude k (cyclicPred S n) n = true ↔ InArc (2 ^ m) (cyclicPred S n) k n :=
      fun n hn => betweenRightInclude_iff hk (hS _ (cyclicPred_mem hn)) (hS n hn) (cyclicPred_ne hn htwo)
    obtain ⟨n, ⟨hn, harc⟩, hunique⟩ := exists_unique_arc hS htwo hk
    refine ⟨n, ⟨hn, (hiff n hn).mpr harc⟩, ?_⟩
    rintro n' ⟨hn', hbetween⟩
    exact hunique n' ⟨hn', (hiff n' hn').mp hbetween⟩
  · intro p n q k _ hq
    obtain ⟨hunion, hdisjoint⟩ := betweenRightInclude_cut hq k
    rw [hunion, xor_iff_or_and_not_and]
    exact (and_iff_left hdisjoint).symm

theorem threeNodes_partition :
    (∃! n, n ∈ ({1, 5, 6} : Finset Nat) ∧ betweenRightInclude 0 (cyclicPred {1, 5, 6} n) n = true) ∧
      (betweenRightInclude 0 6 1 = true ↔
        Xor (betweenRightInclude 0 6 7 = true) (betweenRightInclude 0 7 1 = true)) :=
  ⟨ringIntervals_partition.1 3 {1, 5, 6} (by decide) (by decide) 0 (by decide),
    ringIntervals_partition.2 6 1 7 0 (by decide) (by decide)⟩

/-! ## The store -/

section Store

variable {V : Type} (data : Nat → Option V)

theorem deleteBetweenRightInclude_eq (begin_ end_ k : Nat) :
    deleteBetweenRightInclude data begin_ end_ k =
      if betweenRightInclude k begin_ end_ then none else data k := by
  unfold deleteBetweenRightInclude findBetweenRightInclude
  split_ifs with h hsome <;> simp_all

variable {data} in
theorem between_of_find {begin_ end_ k : Nat} (h : findBetweenRightInclude data begin_ end_ k ≠ none) :
    betweenRightInclude k begin_ end_ = true := by
  by_contra hout
  simp [findBetweenRightInclude, hout] at h

variable {data} in
theorem find_eq_self {begin_ end_ : Nat} (h : ∀ k, data k ≠ none → betweenRightInclude k begin_ end_ = true) :
    findBetweenRightInclude data begin_ end_ = data := by
  funext k
  unfold findBetweenRightInclude
  split_ifs with hk
  · rfl
  · by_contra hne
    exact hk (h k (Ne.symm hne))

/-- What is left of an interval when its first part is gone. -/
theorem delete_find {p n q : Nat} (hq : between q p n = true) :
    deleteBetweenRightInclude (findBetweenRightInclude data p n) p q = findBetweenRightInclude data q n := by
  funext k
  obtain ⟨hunion, hdisjoint⟩ := betweenRightInclude_cut hq k
  rw [deleteBetweenRightInclude_eq]
  unfold findBetweenRightInclude
  by_cases hk : betweenRightInclude k p q = true
  · have hnot : ¬ betweenRightInclude k q n = true := fun hk' => hdisjoint ⟨hk, hk'⟩
    rw [if_pos hk, if_neg hnot]
  · have hsame : betweenRightInclude k p n = true ↔ betweenRightInclude k q n = true :=
      hunion.trans (or_iff_right hk)
    rw [if_neg hk]
    simp only [hsame]

end Store

end MarketPeer.Chord

import MarketPeer.Lib.Shuffle
import MarketPeer.Search.Budget
import Mathlib.Data.Finset.Card

/-!
# Who can get a budget

A budget that does not suffice for all neighbors. `rand.Shuffle` gets the number of the
budget and not the number of the neighbors, and so nobody behind that many comes forward.
-/

namespace MarketPeer.Search

variable {A : Type} [DecidableEq A]

/-! ## What the shuffle comes to -/

/-- `rand.Shuffle(int(budget), swap)` calls `swap` with indices below the budget, as it likes, and
`neis[:int(budget)]` is returned. -/
def outcome (neis : List A) (budget : UInt64) (calls : List (Nat × Nat)) (lucky : Nat) : Option (List (A × UInt64)) :=
  budgetAllocation neis budget ⟨(swaps neis calls).take budget.toNat, lucky⟩

/-- As many neighbors as the budget has, with one for each. -/
structure Ones (neis : List A) (budget : UInt64) (budgets : List (A × UInt64)) : Prop where
  length : budgets.length = budget.toNat
  distinct : (budgets.map Prod.fst).Nodup
  neighbors : ∀ b ∈ budgets, b.1 ∈ neis
  ones : ∀ b ∈ budgets, b.2 = 1

/-- The neighbors of `T` can be those that get the budget. -/
def Reaches (neis : List A) (budget : UInt64) (T : Finset A) : Prop :=
  ∃ calls lucky budgets, CallsBelow budget.toNat calls ∧ outcome neis budget calls lucky = some budgets ∧
    (budgets.map Prod.fst).toFinset = T

section Few

variable {neis : List A} {budget : UInt64} {calls : List (Nat × Nat)} {budgets : List (A × UInt64)} {T : Finset A}
  (hpos : 0 < budget) (hlen : neis.length < 2 ^ 63) (hfew : budget.toNat < neis.length)
include hpos hlen hfew

omit hlen hfew in
theorem budget_ne_zero : budget ≠ 0 := by
  rintro rfl
  exact absurd hpos (by decide)

theorem outcome_eq (h : CallsBelow budget.toNat calls) (lucky : Nat) :
    outcome neis budget calls lucky = some ((swaps (neis.take budget.toNat) calls).map fun nei => (nei, 1)) := by
  unfold outcome
  rw [budgetAllocation_few (budget_ne_zero hpos) (by omega) hfew, take_swaps hfew.le h, if_pos swaps_perm]

/-- The dice fall as swaps can. -/
theorem outcome_of_dice {dice : Dice A} (h : budgetAllocation neis budget dice = some budgets) :
    ∃ calls, CallsBelow budget.toNat calls ∧ outcome neis budget calls dice.lucky = some budgets := by
  rw [budgetAllocation_few (budget_ne_zero hpos) (by omega) hfew] at h
  split_ifs at h with hshuffled
  obtain ⟨calls, hbelow, heq⟩ := exists_swaps hshuffled.symm
  rw [List.length_take_of_le hfew.le] at hbelow
  refine ⟨calls, hbelow, ?_⟩
  rw [outcome_eq hpos hlen hfew hbelow, heq]
  exact h

theorem outcome_ones (hnodup : neis.Nodup) (h : CallsBelow budget.toNat calls) (lucky : Nat) :
    ∃ budgets, outcome neis budget calls lucky = some budgets ∧ Ones neis budget budgets := by
  have hperm : (swaps (neis.take budget.toNat) calls).Perm (neis.take budget.toNat) := swaps_perm
  refine ⟨_, outcome_eq hpos hlen hfew h lucky, ?_, ?_, ?_, ?_⟩
  · rw [List.length_map, hperm.length_eq, List.length_take_of_le hfew.le]
  · rw [List.map_map]
    simp only [Function.comp_def, List.map_id']
    exact hperm.nodup_iff.mpr (hnodup.sublist (List.take_sublist _ _))
  · intro b hb
    obtain ⟨nei, hnei, rfl⟩ := List.mem_map.mp hb
    exact List.mem_of_mem_take (hperm.mem_iff.mp hnei)
  · intro b hb
    obtain ⟨nei, -, rfl⟩ := List.mem_map.mp hb
    rfl

/-- Whatever is swapped, it is the first neighbors. -/
theorem reaches_iff : Reaches neis budget T ↔ T = (neis.take budget.toNat).toFinset := by
  have hnames : ∀ calls, (((swaps (neis.take budget.toNat) calls).map fun nei => (nei, (1 : UInt64))).map
      Prod.fst).toFinset = (neis.take budget.toNat).toFinset := by
    intro calls
    rw [List.map_map]
    simp only [Function.comp_def, List.map_id']
    exact List.toFinset_eq_of_perm _ _ swaps_perm
  constructor
  · rintro ⟨calls, lucky, budgets, hbelow, hout, rfl⟩
    rw [outcome_eq hpos hlen hfew hbelow, Option.some.injEq] at hout
    rw [← hout, hnames]
  · rintro rfl
    have hbelow : CallsBelow budget.toNat [] := by simp [CallsBelow]
    exact ⟨[], 0, _, hbelow, outcome_eq hpos hlen hfew hbelow 0, hnames []⟩

omit hlen in
/-- The neighbors from the second one on. -/
theorem exists_unreached (hnodup : neis.Nodup) : ∃ T : Finset A, T ⊆ neis.toFinset ∧ T.card = budget.toNat ∧
    T ≠ (neis.take budget.toNat).toFinset := by
  have hbudget : 0 < budget.toNat := UInt64.lt_iff_toNat_lt.mp hpos
  cases neis with
  | nil => simp at hfew
  | cons nei neis =>
    rw [List.length_cons] at hfew
    obtain ⟨hnot, hnodup⟩ := List.nodup_cons.mp hnodup
    refine ⟨(neis.take budget.toNat).toFinset, ?_, ?_, ?_⟩
    · intro a ha
      rw [List.mem_toFinset] at ha ⊢
      exact List.mem_cons_of_mem _ (List.mem_of_mem_take ha)
    · rw [List.toFinset_card_of_nodup (hnodup.sublist (List.take_sublist _ _)), List.length_take_of_le (by omega)]
    · intro heq
      have hfirst : nei ∈ ((nei :: neis).take budget.toNat).toFinset := by
        rw [List.mem_toFinset, ← Nat.sub_add_cancel hbudget, List.take_succ_cons]
        exact List.mem_cons_self
      rw [← heq, List.mem_toFinset] at hfirst
      exact hnot (List.mem_of_mem_take hfirst)

end Few

/-- Less than one for each (and `len` is an `int`): one subset of the neighbors can get the budget, the first
ones, and so never all the subsets that it would suffice for; each of its neighbors gets one. -/
theorem allocation_reaches_iff (neis : List A) (hnodup : neis.Nodup) (hlen : neis.length < 2 ^ 63) (budget : UInt64)
    (hpos : 0 < budget) (hfew : budget.toNat < neis.length) :
    (∀ T : Finset A, T ⊆ neis.toFinset → T.card = budget.toNat →
      (Reaches neis budget T ↔ T = (neis.take budget.toNat).toFinset)) ∧
    ¬ (∀ T : Finset A, T ⊆ neis.toFinset → T.card = budget.toNat → Reaches neis budget T) ∧
    ∀ calls lucky, CallsBelow budget.toNat calls →
      ∃ budgets, outcome neis budget calls lucky = some budgets ∧ Ones neis budget budgets := by
  refine ⟨fun T _ _ => reaches_iff hpos hlen hfew, ?_, fun calls lucky h => outcome_ones hpos hlen hfew hnodup h lucky⟩
  intro hall
  obtain ⟨T, hsub, hcard, hne⟩ := exists_unreached hpos hfew hnodup
  exact hne ((reaches_iff hpos hlen hfew).mp (hall T hsub hcard))

theorem threeNeighbors_allocation :
    Reaches ["A", "B", "C"] 2 {"A", "B"} ∧ ¬ Reaches ["A", "B", "C"] 2 {"B", "C"} ∧
      ∃ budgets, outcome ["A", "B", "C"] 2 [(0, 1)] 0 = some budgets ∧ Ones ["A", "B", "C"] 2 budgets :=
  have h := allocation_reaches_iff ["A", "B", "C"] (by decide) (by decide) 2 (by decide) (by decide)
  ⟨(h.1 {"A", "B"} (by decide) (by decide)).mpr (by decide),
    fun hreaches => absurd ((h.1 {"B", "C"} (by decide) (by decide)).mp hreaches) (by decide),
    h.2.2 [(0, 1)] 0 (by decide)⟩

/-- The last of three neighbors never gets a budget of one. -/
theorem lastNeighbor_not_reached :
    ({"C"} : Finset String) ⊆ ["A", "B", "C"].toFinset ∧ ({"C"} : Finset String).card = (1 : UInt64).toNat ∧
      ¬ Reaches ["A", "B", "C"] 1 {"C"} := by
  refine ⟨by decide, by decide, ?_⟩
  rw [reaches_iff (by decide) (by decide) (by decide)]
  decide

end MarketPeer.Search

import Mathlib.Data.List.Basic
import Mathlib.Data.Prod.Lex
import Mathlib.Order.WellFounded
import Mathlib.Tactic.Common

/-!
# Hop by hop

Every place knows at most one next place on the way to a target. When each hop comes
nearer by some rank, the way ends at the target; and entries of a log that grows at its
end keep their order.
-/

namespace MarketPeer

section Reaches

variable {α : Type} {next : α → Option α} {target : α}

/-- The hops from this place end at the target. -/
inductive Reaches (next : α → Option α) (target : α) : α → Prop
  | here : Reaches next target target
  | hop {a b : α} (h : next a = some b) (rest : Reaches next target b) : Reaches next target a

/-- A place that is `On` the way hops to the target, or to another one of a smaller rank. -/
theorem reaches_of_rank {β : Type} [LT β] [WellFoundedLT β] (On : α → Prop) (rank : α → β)
    (hop : ∀ a, On a → ∃ b, next a = some b ∧ (b = target ∨ (On b ∧ rank b < rank a))) (a : α) (ha : On a) :
    Reaches next target a := by
  refine (InvImage.wf rank wellFounded_lt).induction (C := fun a => On a → Reaches next target a) a ?_ ha
  intro a ih ha
  obtain ⟨b, hnext, rfl | ⟨hb, hless⟩⟩ := hop a ha
  · exact .hop hnext .here
  · exact .hop hnext (ih b hless hb)

end Reaches

/-! ## The order of a log -/

section Before

variable {α : Type} [BEq α] {l l' : List α} {a b c : α}

/-- `a` is in the log, and `b` is not in front of it. -/
def Before (l : List α) (a b : α) : Prop := a ∈ l ∧ l.idxOf a < l.idxOf b

theorem Before.trans (h : Before l a b) (h' : Before l b c) : Before l a c := ⟨h.1, h.2.trans h'.2⟩

theorem Before.ne (h : Before l a b) : a ≠ b := by
  rintro rfl
  exact Nat.lt_irrefl _ h.2

variable [LawfulBEq α]

/-- Whatever comes later, comes behind. -/
theorem Before.append (h : Before l a b) (l' : List α) : Before (l ++ l') a b := by
  obtain ⟨ha, hlt⟩ := h
  refine ⟨List.mem_append_left _ ha, ?_⟩
  rw [List.idxOf_append_of_mem ha]
  by_cases hb : b ∈ l
  · rwa [List.idxOf_append_of_mem hb]
  · rw [List.idxOf_append_of_notMem hb]
    have := List.idxOf_lt_length_of_mem ha
    omega

/-- A new entry comes last. -/
theorem before_concat (ha : a ∈ l) (hb : b ∉ l) : Before (l ++ [b]) a b := by
  refine ⟨List.mem_append_left _ ha, ?_⟩
  rw [List.idxOf_append_of_mem ha, List.idxOf_append_of_notMem hb]
  have := List.idxOf_lt_length_of_mem ha
  omega

end Before

end MarketPeer

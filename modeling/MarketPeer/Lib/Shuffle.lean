import Mathlib.Data.List.Perm.Basic
import Mathlib.Tactic.Common

/-!
# Shuffling a list

Two entries change places, as often as one likes. What comes out is any order of the
entries that were touched, and the others stay.
-/

namespace MarketPeer

section Shuffle

variable {α : Type}

def swapAt (l : List α) (i j : Nat) : List α :=
  match l[i]?, l[j]? with
  | some a, some b => (l.set i b).set j a
  | _, _ => l

/-- A list of swaps, one after the other. -/
def swaps (l : List α) (calls : List (Nat × Nat)) : List α := calls.foldl (fun l c => swapAt l c.1 c.2) l

def CallsBelow (n : Nat) (calls : List (Nat × Nat)) : Prop := ∀ c ∈ calls, c.1 < n ∧ c.2 < n

instance (n : Nat) (calls : List (Nat × Nat)) : Decidable (CallsBelow n calls) :=
  inferInstanceAs (Decidable (∀ c ∈ calls, _))

variable {l l' rest : List α} {i j n : Nat} {calls calls' : List (Nat × Nat)}

theorem swapAt_perm : (swapAt l i j).Perm l := by
  unfold swapAt
  split
  · rename_i a b ha hb
    obtain ⟨hi, rfl⟩ := List.getElem?_eq_some_iff.mp ha
    obtain ⟨hj, rfl⟩ := List.getElem?_eq_some_iff.mp hb
    exact List.set_set_perm hi hj
  · exact .refl l

theorem swapAt_append (hi : i < l.length) (hj : j < l.length) : swapAt (l ++ rest) i j = swapAt l i j ++ rest := by
  unfold swapAt
  rw [List.getElem?_append_left hi, List.getElem?_append_left hj, List.getElem?_eq_getElem hi,
    List.getElem?_eq_getElem hj]
  simp only
  rw [List.set_append_left _ _ hi, List.set_append_left _ _ (by rwa [List.length_set])]

theorem swapAt_cons (a : α) : swapAt (a :: l) (i + 1) (j + 1) = a :: swapAt l i j := by
  unfold swapAt
  simp only [List.getElem?_cons_succ]
  split <;> rfl

@[simp] theorem swaps_cons (l : List α) (c : Nat × Nat) : swaps l (c :: calls) = swaps (swapAt l c.1 c.2) calls := rfl

theorem swaps_append (l : List α) : swaps l (calls ++ calls') = swaps (swaps l calls) calls' := List.foldl_append ..

theorem swaps_perm : (swaps l calls).Perm l := by
  induction calls generalizing l with
  | nil => exact .refl l
  | cons c calls ih => exact ih.trans swapAt_perm

/-- Swaps of the front leave the rest. -/
theorem swaps_front (h : CallsBelow l.length calls) : swaps (l ++ rest) calls = swaps l calls ++ rest := by
  induction calls generalizing l with
  | nil => rfl
  | cons c calls ih =>
    obtain ⟨⟨hi, hj⟩, h⟩ := List.forall_mem_cons.mp h
    rw [← (swapAt_perm (i := c.1) (j := c.2)).length_eq] at h
    rw [swaps_cons, swapAt_append hi hj, ih h]
    rfl

theorem take_swaps (hn : n ≤ l.length) (h : CallsBelow n calls) : (swaps l calls).take n = swaps (l.take n) calls := by
  have hlen : (l.take n).length = n := List.length_take_of_le hn
  conv_lhs => rw [← List.take_append_drop n l]
  rw [swaps_front (by rwa [hlen]), List.take_left' (swaps_perm.length_eq.trans hlen)]

theorem swaps_behind (a : α) : swaps (a :: l) (calls.map fun c => (c.1 + 1, c.2 + 1)) = a :: swaps l calls := by
  induction calls generalizing l with
  | nil => rfl
  | cons c calls ih => rw [List.map_cons, swaps_cons, swapAt_cons, ih, swaps_cons]

/-- Every order can be reached. -/
theorem exists_swaps (h : l.Perm l') : ∃ calls, CallsBelow l.length calls ∧ swaps l calls = l' := by
  induction h with
  | nil => exact ⟨[], by simp [CallsBelow], rfl⟩
  | cons a _ ih =>
    obtain ⟨calls, hbelow, rfl⟩ := ih
    refine ⟨_, ?_, swaps_behind a⟩
    intro c hc
    obtain ⟨c', hc', rfl⟩ := List.mem_map.mp hc
    have := hbelow c' hc'
    simp only [List.length_cons]
    omega
  | swap a b l =>
    refine ⟨[(0, 1)], ?_, rfl⟩
    simp [CallsBelow]
  | trans h _ ih ih' =>
    obtain ⟨calls, hbelow, rfl⟩ := ih
    obtain ⟨calls', hbelow', rfl⟩ := ih'
    refine ⟨calls ++ calls', ?_, swaps_append _⟩
    rw [← h.length_eq] at hbelow'
    intro c hc
    obtain hc | hc := List.mem_append.mp hc
    · exact hbelow c hc
    · exact hbelow' c hc

end Shuffle

end MarketPeer

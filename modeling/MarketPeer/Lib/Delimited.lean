import Mathlib.Data.List.Basic

/-!
# Texts that are read from the left

Two texts are put together from the same kinds of pieces. If they are equal, are
their pieces? They are when each piece can be told from what follows it.
-/

namespace MarketPeer

variable {α ι : Type} {P Q : Prop} {x y x' y' : List α}

/-- Whatever follows, `x` and `y` at the start of equal texts give `P`, and what follows is equal. -/
def Splits (P : Prop) (x y : List α) : Prop := ∀ r s, x ++ r = y ++ s → P ∧ r = s

theorem splits_self (x : List α) : Splits True x x := by
  intro r s h
  exact ⟨trivial, List.append_cancel_left h⟩

theorem Splits.imp (h : Splits P x y) (hPQ : P → Q) : Splits Q x y := by
  intro r s heq
  obtain ⟨hP, hrest⟩ := h r s heq
  exact ⟨hPQ hP, hrest⟩

theorem Splits.append (h : Splits P x y) (h' : Splits Q x' y') : Splits (P ∧ Q) (x ++ x') (y ++ y') := by
  intro r s heq
  rw [List.append_assoc, List.append_assoc] at heq
  obtain ⟨hP, hmiddle⟩ := h _ _ heq
  obtain ⟨hQ, hrest⟩ := h' r s hmiddle
  exact ⟨⟨hP, hQ⟩, hrest⟩

/-- A piece without `c` ends at the first `c`. -/
theorem splits_until (c : α) (hx : c ∉ x) (hy : c ∉ y) : Splits (x = y) (x ++ [c]) (y ++ [c]) := by
  intro r s h
  simp only [List.append_assoc, List.singleton_append] at h
  induction x generalizing y with
  | nil =>
    cases y with
    | nil => exact ⟨rfl, (List.cons.inj h).2⟩
    | cons b y =>
      obtain ⟨rfl, -⟩ := List.cons.inj h
      exact (hy List.mem_cons_self).elim
  | cons a x ih =>
    cases y with
    | nil =>
      obtain ⟨rfl, -⟩ := List.cons.inj h
      exact (hx List.mem_cons_self).elim
    | cons b y =>
      obtain ⟨rfl, htail⟩ := List.cons.inj h
      obtain ⟨rfl, hrest⟩ := ih (fun hc => hx (List.mem_cons_of_mem a hc))
        (fun hc => hy (List.mem_cons_of_mem a hc)) htail
      exact ⟨rfl, hrest⟩

/-- So can pieces of one length. -/
theorem splits_of_length_eq (h : x.length = y.length) : Splits (x = y) x y := by
  intro r s heq
  exact List.append_inj heq h

theorem splits_flatMap {p : ι → Prop} {f g : ι → List α} (is : List ι)
    (h : ∀ i ∈ is, Splits (p i) (f i) (g i)) : Splits (∀ i ∈ is, p i) (is.flatMap f) (is.flatMap g) := by
  induction is with
  | nil => exact (splits_self []).imp (fun _ => by simp)
  | cons i is ih =>
    rw [List.flatMap_cons, List.flatMap_cons, List.forall_mem_cons]
    exact (h i List.mem_cons_self).append (ih (fun j hj => h j (List.mem_cons_of_mem i hj)))

/-- Equal texts of such pieces have all that they give. -/
theorem Splits.of_eq (h : Splits P x y) (heq : x = y) : P :=
  (h [] [] (by rw [heq])).1

end MarketPeer

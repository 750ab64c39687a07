import Mathlib.Algebra.BigOperators.Group.Finset.Basic
import Mathlib.Algebra.Order.BigOperators.Group.List
import Mathlib.Algebra.Order.Ring.Nat
import Mathlib.Data.Finset.Card
import Mathlib.Tactic.Common

/-!
# Counting

Sums over lists of records, when one record changes, counts after an element is taken
out, majorities, and the number of senders behind messages of which each sender has sent
at most one.
-/

namespace MarketPeer

section Sums

variable {α : Type} (f : α → Nat)

theorem sum_map_set (l : List α) (r : Nat) (t t' : α) (hr : l[r]? = some t) :
    ((l.set r t').map f).sum + f t = (l.map f).sum + f t' := by
  induction l generalizing r with
  | nil => simp at hr
  | cons a l ih =>
    cases r with
    | zero =>
      simp only [List.getElem?_cons_zero, Option.some.injEq] at hr
      subst hr
      simp only [List.set_cons_zero, List.map_cons, List.sum_cons]
      omega
    | succ r =>
      simp only [List.getElem?_cons_succ] at hr
      have hrest := ih r hr
      simp only [List.set_cons_succ, List.map_cons, List.sum_cons]
      omega

theorem le_sum_map (l : List α) (a : α) (ha : a ∈ l) : f a ≤ (l.map f).sum :=
  List.single_le_sum (fun _ _ => Nat.zero_le _) (f a) (List.mem_map_of_mem ha)

theorem add_le_sum_map (l : List α) (a b : α) (hne : a ≠ b) (ha : a ∈ l) (hb : b ∈ l) :
    f a + f b ≤ (l.map f).sum := by
  induction l with
  | nil => simp at ha
  | cons c l ih =>
    rw [List.map_cons, List.sum_cons]
    rcases List.mem_cons.mp ha with rfl | hal
    · have hb' : b ∈ l := (List.mem_cons.mp hb).resolve_left (Ne.symm hne)
      have hle := le_sum_map f l b hb'
      omega
    · rcases List.mem_cons.mp hb with rfl | hb
      · have hle := le_sum_map f l a hal
        omega
      · have hle := ih hal hb
        omega

/-- Elements that weigh nothing may be left out. -/
theorem sum_map_subset [DecidableEq α] {l l' : List α} (hl : l.Nodup) (hl' : l'.Nodup) (hsub : ∀ a ∈ l, a ∈ l')
    (hzero : ∀ a ∈ l', a ∉ l → f a = 0) : (l.map f).sum = (l'.map f).sum := by
  rw [← List.sum_toFinset f hl, ← List.sum_toFinset f hl']
  refine Finset.sum_subset ?_ ?_
  · intro a ha
    exact List.mem_toFinset.mpr (hsub a (List.mem_toFinset.mp ha))
  · intro a ha hnot
    exact hzero a (List.mem_toFinset.mp ha) fun hmem => hnot (List.mem_toFinset.mpr hmem)

end Sums

/-- An element that is taken out of a list counts once less. -/
theorem countP_eraseIdx {α : Type} {l : List α} {k : Nat} {a : α} (h : l[k]? = some a) (p : α → Bool) :
    (l.eraseIdx k).countP p + (if p a then 1 else 0) = l.countP p := by
  obtain ⟨hk, rfl⟩ := List.getElem?_eq_some_iff.mp h
  rw [← List.countP_cons]
  exact (List.getElem_cons_eraseIdx_perm hk).countP_eq p

/-- An element that is replaced. -/
theorem countP_set_add {α : Type} {l : List α} {k : Nat} {a : α} (h : l[k]? = some a) (b : α) (p : α → Bool) :
    (l.set k b).countP p + (if p a then 1 else 0) = l.countP p + if p b then 1 else 0 := by
  induction l generalizing k with
  | nil => simp at h
  | cons c l ih =>
    cases k with
    | zero =>
      simp only [List.getElem?_cons_zero, Option.some.injEq] at h
      subst h
      simp only [List.set_cons_zero, List.countP_cons]
      omega
    | succ k =>
      simp only [List.getElem?_cons_succ] at h
      have hrest := ih h
      simp only [List.set_cons_succ, List.countP_cons]
      omega

theorem two_le_countP {α : Type} {l : List α} {p : α → Bool} {a b : α} (ha : a ∈ l) (hb : b ∈ l) (hne : a ≠ b)
    (hpa : p a = true) (hpb : p b = true) : 2 ≤ l.countP p := by
  obtain ⟨before, after, rfl⟩ := List.append_of_mem ha
  have hrest : b ∈ before ++ after := by
    simpa [Ne.symm hne] using hb
  have hpos := List.countP_pos_iff.mpr ⟨b, hrest, hpb⟩
  rw [List.perm_middle.countP_eq, List.countP_cons_of_pos hpa]
  omega

section Majority

variable {α : Type} {l l' : List α} {a b : α}

/-- No element counts twice. -/
theorem countP_add_countP_le (l : List α) (p q : α → Bool) (h : ∀ a, p a = true → q a = false) :
    l.countP p + l.countP q ≤ l.length := by
  induction l with
  | nil => simp
  | cons a l ih =>
    rw [List.countP_cons, List.countP_cons, List.length_cons]
    by_cases hp : p a = true
    · rw [if_pos hp, if_neg (by rw [h a hp]; decide)]
      omega
    · rw [if_neg hp]
      split <;> omega

open scoped Classical in
/-- More than half of the list is `a`. -/
def Majority (l : List α) (a : α) : Prop := l.length < 2 * l.countP (· = a)

theorem Majority.perm (h : Majority l a) (hp : l.Perm l') : Majority l' a := by
  unfold Majority at h ⊢
  rw [← hp.length_eq, ← hp.countP_eq]
  exact h

theorem Majority.unique (ha : Majority l a) (hb : Majority l b) : a = b := by
  classical
  by_contra hne
  unfold Majority at ha hb
  have hle := countP_add_countP_le l (· = a) (· = b) (by
    intro c hc
    rw [decide_eq_true_eq] at hc
    rw [hc, decide_eq_false hne])
  omega

end Majority

/-- Messages `K` that each have a sender, of whom none sent two, have as many senders. -/
theorem exists_senders {M A : Type} [DecidableEq A] (K : Finset M) (sentBy : M → A → Prop)
    (htotal : ∀ k ∈ K, ∃ a, sentBy k a)
    (honce : ∀ k ∈ K, ∀ k' ∈ K, ∀ a, sentBy k a → sentBy k' a → k = k') :
    ∃ Q : Finset A, Q.card = K.card ∧ (∀ a ∈ Q, ∃ k ∈ K, sentBy k a) ∧ ∀ k ∈ K, ∃ a ∈ Q, sentBy k a := by
  choose sender hsender using htotal
  refine ⟨K.attach.image fun k => sender k.val k.property, ?_, ?_, ?_⟩
  · rw [Finset.card_image_of_injective, Finset.card_attach]
    rintro ⟨k, hk⟩ ⟨k', hk'⟩ heq
    have hsame : sender k hk = sender k' hk' := heq
    have hsecond := hsender k' hk'
    rw [← hsame] at hsecond
    exact Subtype.ext (honce k hk k' hk' (sender k hk) (hsender k hk) hsecond)
  · intro a ha
    obtain ⟨⟨k, hk⟩, -, rfl⟩ := Finset.mem_image.mp ha
    exact ⟨k, hk, hsender k hk⟩
  · intro k hk
    exact ⟨sender k hk, Finset.mem_image.mpr ⟨⟨k, hk⟩, Finset.mem_attach K _, rfl⟩, hsender k hk⟩

end MarketPeer

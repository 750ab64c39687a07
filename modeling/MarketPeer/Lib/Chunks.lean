import Mathlib.Data.List.Flatten

/-!
# Pieces of one size

A list is cut into pieces of `size` elements, the last of which can be shorter. The
elements come in portions, and a portion need not end where a piece does.
-/

namespace MarketPeer

variable {α : Type} {size : Nat}

/-- The pieces of what is in `buf` already and what is still to come. -/
def chunksFrom (size : Nat) : List α → List α → List (List α)
  | buf, [] => if buf.isEmpty then [] else [buf]
  | buf, a :: as =>
    if buf.length + 1 = size then (buf ++ [a]) :: chunksFrom size [] as else chunksFrom size (buf ++ [a]) as

def chunksOf (size : Nat) (as : List α) : List (List α) := chunksFrom size [] as

/-- A portion that does not fill the piece goes into the buffer. -/
theorem chunksFrom_append_of_lt (buf part rest : List α) (h : buf.length + part.length < size) :
    chunksFrom size buf (part ++ rest) = chunksFrom size (buf ++ part) rest := by
  induction part generalizing buf with
  | nil => rw [List.nil_append, List.append_nil]
  | cons a part ih =>
    rw [List.length_cons] at h
    rw [List.cons_append, chunksFrom, if_neg (by omega), ih (buf ++ [a]) (by simp; omega), List.append_assoc,
      List.singleton_append]

/-- A portion that fills it ends the piece. -/
theorem chunksFrom_append_of_eq (buf part rest : List α) (hne : part ≠ [])
    (h : buf.length + part.length = size) :
    chunksFrom size buf (part ++ rest) = (buf ++ part) :: chunksFrom size [] rest := by
  induction part generalizing buf with
  | nil => exact (hne rfl).elim
  | cons a part ih =>
    rw [List.length_cons] at h
    rw [List.cons_append, chunksFrom]
    by_cases hlast : part = []
    · subst hlast
      rw [if_pos (by simpa using h), List.nil_append]
    · have hpos := List.length_pos_iff.mpr hlast
      rw [if_neg (by omega), ih (buf ++ [a]) hlast (by simp; omega), List.append_assoc, List.singleton_append]

theorem flatten_chunksFrom (size : Nat) (buf as : List α) : (chunksFrom size buf as).flatten = buf ++ as := by
  induction as generalizing buf with
  | nil =>
    cases buf with
    | nil => rfl
    | cons b buf => simp [chunksFrom]
  | cons a as ih =>
    rw [chunksFrom]
    by_cases hfull : buf.length + 1 = size
    · rw [if_pos hfull, List.flatten_cons, ih, List.nil_append, List.append_assoc, List.singleton_append]
    · rw [if_neg hfull, ih, List.append_assoc, List.singleton_append]

theorem flatten_chunksOf (size : Nat) (as : List α) : (chunksOf size as).flatten = as := flatten_chunksFrom size [] as

theorem chunksOf_ne_nil {as : List α} (h : as ≠ []) : chunksOf size as ≠ [] := by
  intro hnil
  apply h
  have hflat := flatten_chunksOf size as
  rw [hnil] at hflat
  exact hflat.symm

/-- The pieces are full but for the last one, which has an element at least. -/
structure Split (size : Nat) (as : List α) (pieces : List (List α)) : Prop where
  flatten : pieces.flatten = as
  full : ∀ p ∈ pieces.dropLast, p.length = size
  last : ∀ p ∈ pieces.getLast?, 1 ≤ p.length ∧ p.length ≤ size

theorem chunksOf_of_le {as : List α} (hne : as ≠ []) (hle : as.length ≤ size) : chunksOf size as = [as] := by
  have hnil : as = as ++ [] := (List.append_nil as).symm
  rw [chunksOf, hnil]
  rcases Nat.lt_or_eq_of_le hle with hlt | heq
  · rw [chunksFrom_append_of_lt [] as [] (by simpa using hlt)]
    simp [chunksFrom, hne]
  · rw [chunksFrom_append_of_eq [] as [] hne (by simpa using heq)]
    simp [chunksFrom]

theorem chunksOf_append {p as : List α} (hpos : 0 < size) (hp : p.length = size) :
    chunksOf size (p ++ as) = p :: chunksOf size as :=
  chunksFrom_append_of_eq [] p as (List.ne_nil_of_length_pos (by omega)) (by simpa using hp)

/-- There is one way to cut a list. -/
theorem Split.eq_chunksOf {as : List α} {pieces : List (List α)} (hpos : 0 < size) (h : Split size as pieces) :
    pieces = chunksOf size as := by
  induction pieces generalizing as with
  | nil =>
    obtain rfl : as = [] := h.flatten.symm
    rfl
  | cons p ps ih =>
    cases ps with
    | nil =>
      obtain ⟨hp, hle⟩ := h.last p rfl
      obtain rfl : p = as := by simpa using h.flatten
      rw [chunksOf_of_le (List.ne_nil_of_length_pos hp) hle]
    | cons q ps =>
      have hp := h.full p (by simp)
      have hrest : Split size (q :: ps).flatten (q :: ps) :=
        ⟨rfl, fun r hr => h.full r (by simp only [List.dropLast_cons_cons, List.mem_cons]; exact .inr hr),
          fun r hr => h.last r (by simpa using hr)⟩
      rw [← h.flatten, List.flatten_cons, chunksOf_append hpos hp, ← ih hrest]

theorem chunksOf_split (hpos : 0 < size) (as : List α) : Split size as (chunksOf size as) := by
  induction hlen : as.length using Nat.strongRecOn generalizing as with
  | ind k ih =>
    rcases Nat.lt_or_ge size as.length with hlt | hle
    · have hcut := (List.take_append_drop size as).symm
      have htake : (as.take size).length = size := by
        rw [List.length_take]
        omega
      have hrest := ih (as.drop size).length (by rw [List.length_drop]; omega) (as.drop size) rfl
      have hne : chunksOf size (as.drop size) ≠ [] :=
        chunksOf_ne_nil (List.ne_nil_of_length_pos (by rw [List.length_drop]; omega))
      rw [hcut, chunksOf_append hpos htake]
      refine ⟨by rw [List.flatten_cons, hrest.flatten], ?_, ?_⟩
      · rw [List.dropLast_cons_of_ne_nil hne]
        intro p hp
        rcases List.mem_cons.mp hp with rfl | hp
        · exact htake
        · exact hrest.full p hp
      · rw [List.getLast?_cons_of_ne_nil hne]
        exact hrest.last
    · by_cases hnil : as = []
      · subst hnil
        exact ⟨rfl, by simp [chunksOf, chunksFrom], by simp [chunksOf, chunksFrom]⟩
      · rw [chunksOf_of_le hnil hle]
        have hpos := List.length_pos_iff.mpr hnil
        exact ⟨by simp, by simp, by simpa using ⟨hpos, hle⟩⟩

/-- Pieces of one length are known from what they are together. -/
theorem map_eq_of_flatMap_eq {ι : Type} {f : ι → List α} {n : Nat} (hn : 0 < n) (hf : ∀ i, (f i).length = n)
    {is js : List ι} (h : is.flatMap f = js.flatMap f) : is.map f = js.map f := by
  have hlen : is.length = js.length := by
    have := congrArg List.length h
    simp only [List.length_flatMap, hf, List.map_const', List.sum_replicate_nat] at this
    exact Nat.eq_of_mul_eq_mul_right hn this
  rw [List.eq_iff_flatten_eq]
  refine ⟨by rw [← List.flatMap_def, ← List.flatMap_def]; exact h, ?_⟩
  simp only [List.map_map, Function.comp_def, hf, List.map_const', hlen]

/-- Pieces of one length are told apart by what they make up. -/
theorem eq_of_flatten_eq {α : Type} {n : Nat} (hn : 0 < n) {xs ys : List (List α)} (hxs : ∀ x ∈ xs, x.length = n)
    (hys : ∀ y ∈ ys, y.length = n) (h : xs.flatten = ys.flatten) : xs = ys := by
  have hlengths (zs : List (List α)) (hzs : ∀ z ∈ zs, z.length = n) :
      zs.map List.length = List.replicate zs.length n := by
    rw [List.eq_replicate_iff]
    simpa using hzs
  have htotal := congrArg List.length h
  rw [List.length_flatten, List.length_flatten, hlengths xs hxs, hlengths ys hys, List.sum_replicate_nat,
    List.sum_replicate_nat] at htotal
  refine List.eq_iff_flatten_eq.mpr ⟨h, ?_⟩
  rw [hlengths xs hxs, hlengths ys hys, Nat.eq_of_mul_eq_mul_right hn htotal]

end MarketPeer

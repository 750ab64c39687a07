import Mathlib.Data.Finset.Card
import Mathlib.Data.Finset.Lattice.Fold
import Mathlib.Data.Finset.Max
import Mathlib.Data.List.MinMax
import Mathlib.Logic.Relation
import Mathlib.Order.Basic
import Mathlib.Order.Lattice.Nat
import Mathlib.Tactic.Common
import Mathlib.Tactic.SplitIfs

/-!
# Points on a circle

Clockwise distance between numbers below `M`, and what pointers from point to point
say about the order of the points.
-/

namespace MarketPeer.Ring

/-! ## Clockwise distance -/

/-- How far it is from `a` to `b`, clockwise on the circle of the numbers below `M`. -/
def cw (M a b : Nat) : Nat := if a ≤ b then b - a else M + b - a

/-- `x` lies behind `a`, up to `b` and with it. -/
def InArc (M a x b : Nat) : Prop := 0 < cw M a x ∧ cw M a x ≤ cw M a b

instance (M a x b : Nat) : Decidable (InArc M a x b) := inferInstanceAs (Decidable (_ ∧ _))

section Distance

variable {M a b c : Nat}

@[simp] theorem cw_self (M a : Nat) : cw M a a = 0 := by simp [cw]

theorem cw_lt (ha : a < M) (hb : b < M) : cw M a b < M := by
  unfold cw; split_ifs <;> omega

theorem cw_pos (ha : a < M) (h : a ≠ b) : 0 < cw M a b := by
  unfold cw; split_ifs <;> omega

theorem cw_right_inj (ha : a < M) (hb : b < M) (hc : c < M) (h : cw M a b = cw M a c) : b = c := by
  unfold cw at h; split_ifs at h <;> omega

/-- On the way from `a` to `c` one passes `b`, or else one has gone around once. -/
theorem cw_triangle (ha : a < M) (hb : b < M) :
    cw M a b + cw M b c = cw M a c ∨ cw M a b + cw M b c = cw M a c + M := by
  unfold cw; split_ifs <;> omega

/-- A place belongs to `b` if `b` is the nearest of the numbers of `T`, seen from it; `a` is the one in front
of `b`. -/
theorem inArc_iff_nearest {T : Set Nat} {k : Nat} (hT : ∀ y ∈ T, y < M) (ha : a ∈ T) (hb : b ∈ T) (hne : a ≠ b)
    (hnear : ∀ y ∈ T, a ≠ y → cw M a b ≤ cw M a y) (hk : k < M) :
    InArc M a k b ↔ ∀ y ∈ T, cw M k b ≤ cw M k y := by
  have hpos := cw_pos (hT a ha) hne
  have hltb := cw_lt (hT a ha) (hT b hb)
  have hkb := cw_lt hk (hT b hb)
  have htri := cw_triangle (c := b) (hT a ha) hk
  constructor
  · rintro ⟨hposk, hle⟩ y hy
    have htriy := cw_triangle (c := y) (hT a ha) hk
    by_cases hay : a = y
    · subst hay
      rw [cw_self] at htriy
      omega
    · have := hnear y hy hay
      omega
  · intro hmin
    have hle := hmin a ha
    have htria := cw_triangle (c := a) (hT a ha) hk
    rw [cw_self] at htria
    have hposk : 0 < cw M a k := by
      apply cw_pos (hT a ha)
      rintro rfl
      rw [cw_self] at hle
      omega
    exact ⟨hposk, by omega⟩

end Distance

/-! ## The number in front -/

/-- The number of `S` in front of `n`; in front of the least one it is the greatest. -/
def cyclicPred (S : Finset Nat) (n : Nat) : Nat :=
  if (S.filter (· < n)).Nonempty then (S.filter (· < n)).sup id else S.sup id

section Front

variable {M n : Nat} {S : Finset Nat}

theorem sup_id_mem (h : S.Nonempty) : S.sup id ∈ S := by
  obtain ⟨x, hx, heq⟩ := S.exists_mem_eq_sup h id
  rw [heq]
  exact hx

/-- Between the two is no number of `S`. -/
theorem cyclicPred_cases (hn : n ∈ S) : cyclicPred S n ∈ S ∧
    ((cyclicPred S n < n ∧ ∀ y ∈ S, y < n → y ≤ cyclicPred S n) ∨ ∀ y ∈ S, n ≤ y ∧ y ≤ cyclicPred S n) := by
  unfold cyclicPred
  split_ifs with h
  · obtain ⟨hmem, hlt⟩ := Finset.mem_filter.mp (sup_id_mem h)
    refine ⟨hmem, .inl ⟨hlt, fun y hy hyn => ?_⟩⟩
    exact Finset.le_sup (f := id) (Finset.mem_filter.mpr ⟨hy, hyn⟩)
  · refine ⟨sup_id_mem ⟨n, hn⟩, .inr fun y hy => ⟨?_, Finset.le_sup (f := id) hy⟩⟩
    by_contra hyn
    exact h ⟨y, Finset.mem_filter.mpr ⟨hy, by omega⟩⟩

theorem cyclicPred_mem (hn : n ∈ S) : cyclicPred S n ∈ S := (cyclicPred_cases hn).1

theorem cyclicPred_ne (hn : n ∈ S) (htwo : 2 ≤ S.card) : cyclicPred S n ≠ n := by
  intro heq
  obtain ⟨-, ⟨hlt, -⟩ | hall⟩ := cyclicPred_cases hn
  · omega
  · rw [heq] at hall
    have hone : S = {n} := Finset.eq_singleton_iff_unique_mem.mpr
      ⟨hn, fun y hy => Nat.le_antisymm (hall y hy).2 (hall y hy).1⟩
    rw [hone, Finset.card_singleton] at htwo
    omega

theorem cyclicPred_nearest (hS : ∀ y ∈ S, y < M) (hn : n ∈ S) {y : Nat} (hy : y ∈ S) (hne : cyclicPred S n ≠ y) :
    cw M (cyclicPred S n) n ≤ cw M (cyclicPred S n) y := by
  obtain ⟨hmem, hcases⟩ := cyclicPred_cases hn
  have hnM := hS n hn
  have hyM := hS y hy
  have hpM := hS _ hmem
  have hpn : (cyclicPred S n < n ∧ (y < n → y ≤ cyclicPred S n)) ∨ (n ≤ y ∧ y ≤ cyclicPred S n) :=
    hcases.imp (fun h => ⟨h.1, h.2 y hy⟩) fun h => h y hy
  unfold cw
  split_ifs <;> omega

/-- Every place belongs to exactly one number. -/
theorem exists_unique_arc (hS : ∀ y ∈ S, y < M) (htwo : 2 ≤ S.card) {k : Nat} (hk : k < M) :
    ∃! n, n ∈ S ∧ InArc M (cyclicPred S n) k n := by
  have hiff : ∀ n ∈ S, InArc M (cyclicPred S n) k n ↔ ∀ y ∈ S, cw M k n ≤ cw M k y := fun n hn =>
    inArc_iff_nearest (T := S) hS (cyclicPred_mem hn) hn (cyclicPred_ne hn htwo)
      (fun y hy hne => cyclicPred_nearest hS hn hy hne) hk
  obtain ⟨n, hn, hmin⟩ := S.exists_min_image (cw M k) (Finset.card_pos.mp (by omega))
  refine ⟨n, ⟨hn, (hiff n hn).mpr hmin⟩, ?_⟩
  rintro n' ⟨hn', harc⟩
  have hle := (hiff n' hn').mp harc n hn
  exact cw_right_inj hk (hS n' hn') (hS n hn) (Nat.le_antisymm hle (hmin n' hn'))

end Front

/-! ## Points with a place on the circle -/

/-- Points of a type, no two of them in one place. -/
structure Circle (α : Type) where
  size : Nat
  pos : α → Nat
  pos_lt : ∀ a, pos a < size
  pos_injective : Function.Injective pos

namespace Circle

variable {α : Type} (C : Circle α)

def dist (a b : α) : Nat := cw C.size (C.pos a) (C.pos b)

@[simp] theorem dist_self (a : α) : C.dist a a = 0 := cw_self _ _

theorem dist_lt (a b : α) : C.dist a b < C.size := cw_lt (C.pos_lt a) (C.pos_lt b)

theorem dist_pos {a b : α} (h : a ≠ b) : 0 < C.dist a b :=
  cw_pos (C.pos_lt a) fun hpos => h (C.pos_injective hpos)

theorem dist_right_inj {a b c : α} (h : C.dist a b = C.dist a c) : b = c :=
  C.pos_injective (cw_right_inj (C.pos_lt a) (C.pos_lt b) (C.pos_lt c) h)

theorem dist_triangle (a b c : α) :
    C.dist a b + C.dist b c = C.dist a c ∨ C.dist a b + C.dist b c = C.dist a c + C.size :=
  cw_triangle (C.pos_lt a) (C.pos_lt b)

theorem dist_add {a b c : α} (h : C.dist a b ≤ C.dist a c) : C.dist a b + C.dist b c = C.dist a c := by
  have := C.dist_triangle a b c
  have := C.dist_lt b c
  omega

/-! ## Paths that go around at most once -/

/-- Following `next` leads from `a` to `c` without passing `c` on the way. -/
inductive Path (next : α → Option α) : α → α → Prop
  | refl (a : α) : Path next a a
  | step {a b c : α} (hne : a ≠ c) (hnext : next a = some b) (harc : C.dist a b ≤ C.dist a c)
      (hrest : Path next b c) : Path next a c

namespace Path

variable {C} {next next' : α → Option α} {a b c x y r s p : α}

theorem single (hne : a ≠ b) (hnext : next a = some b) : C.Path next a b :=
  .step hne hnext le_rfl (.refl b)

theorem mono (h : C.Path next a c) (hnext : ∀ a b, next a = some b → next' a = some b) :
    C.Path next' a c := by
  induction h with
  | refl a => exact .refl a
  | step hne hn harc _ ih => exact .step hne (hnext _ _ hn) harc ih

theorem trans (h : C.Path next a b) (h' : C.Path next b c) (harc : C.dist a b ≤ C.dist a c) :
    C.Path next a c := by
  induction h with
  | refl a => exact h'
  | @step a z b hne hnext hz _ ih =>
    have hab := C.dist_add harc
    have hzb := C.dist_add hz
    have hpos := C.dist_pos hne
    have hac : a ≠ c := by
      rintro rfl
      rw [C.dist_self] at harc
      omega
    have hzc := C.dist_add (a := a) (b := z) (c := c) (by omega)
    exact .step hac hnext (by omega) (ih h' (by omega))

/-- Of two paths from one point the longer one runs over the shorter one. -/
theorem cross (hx : C.Path next a x) (hy : C.Path next a y) (h : C.dist a x ≤ C.dist a y) :
    C.Path next x y := by
  induction hx with
  | refl a => exact hy
  | @step a b x hne hnext harc _ ih =>
    have hpos := C.dist_pos hne
    cases hy with
    | refl =>
      rw [C.dist_self] at h
      omega
    | step hney hnexty harcy hresty =>
      rw [hnext, Option.some.injEq] at hnexty
      subst hnexty
      have h1 := C.dist_add harc
      have h2 := C.dist_add harcy
      exact ih hresty (by omega)

/-- A path that ends before it comes to `r` does not use the pointer of `r`. -/
theorem avoid (h : C.Path next a c) (hr : C.dist a c ≤ C.dist a r)
    (hagree : ∀ u, u ≠ r → next' u = next u) : C.Path next' a c := by
  induction h with
  | refl a => exact .refl a
  | @step a b c hne hnext harc _ ih =>
    have hpos := C.dist_pos hne
    have har : a ≠ r := by
      rintro rfl
      rw [C.dist_self] at hr
      omega
    have h1 := C.dist_add harc
    have h2 := C.dist_add (a := a) (b := b) (c := r) (by omega)
    exact .step hne (by rw [hagree a har, hnext]) harc (ih (by omega))

section Redirect

variable [DecidableEq α]

/-- The pointer of `r` moves back from `s` to a point `p` before it that leads to `s`. -/
structure Redirects (C : Circle α) (next : α → Option α) (r s p : α) : Prop where
  old : next r = some s
  behind : 0 < C.dist r p
  before : C.dist r p < C.dist r s
  leads : C.Path next p s

theorem Redirects.leads_after (h : Redirects C next r s p) :
    C.Path (Function.update next r (some p)) p s := by
  apply h.leads.avoid (r := r)
  · have h1 := C.dist_add h.before.le
    have h2 := C.dist_triangle r p r
    have h3 := h.behind
    have h4 := C.dist_lt r s
    rw [C.dist_self] at h2
    omega
  · intro u hu
    exact Function.update_of_ne hu _ _

theorem redirect (h : C.Path next x y) (hr : Redirects C next r s p) :
    C.Path (Function.update next r (some p)) x y := by
  induction h with
  | refl a => exact .refl a
  | @step a b c hne hnext harc _ ih =>
    by_cases har : a = r
    · subst har
      rw [hr.old, Option.some.injEq] at hnext
      subst hnext
      have h1 := C.dist_add hr.before.le
      have h2 := C.dist_add harc
      have h3 := hr.before
      have h4 := C.dist_add (a := a) (b := p) (c := c) (by omega)
      refine .step hne (Function.update_self ..) (by omega) ?_
      exact hr.leads_after.trans ih (by omega)
    · exact .step hne (by rw [Function.update_of_ne har, hnext]) harc ih

end Redirect

/-- The last step of a path. -/
theorem last (h : C.Path next a c) (hac : a ≠ c) :
    ∃ u, C.Path next a u ∧ next u = some c ∧ C.dist a u ≤ C.dist a c := by
  induction h with
  | refl a => exact absurd rfl hac
  | @step a b c hne hnext harc _ ih =>
    by_cases hbc : b = c
    · subst hbc
      exact ⟨a, .refl a, hnext, by simp⟩
    · obtain ⟨u, hbu, hu, hdist⟩ := ih hbc
      have h1 := C.dist_add harc
      have h2 := C.dist_triangle a b u
      have h3 := C.dist_lt a c
      by_cases hau : a = u
      · subst hau
        exact ⟨a, .refl a, hu, by simp⟩
      · exact ⟨u, .step hau hnext (by omega) hbu, hu, by omega⟩

end Path

/-! ## Reaching a point -/

/-- Following `next` leads from `a` to `b`. -/
def Reaches (next : α → Option α) : α → α → Prop := Relation.ReflTransGen fun a b => next a = some b

section Reaches

variable {C} {next next' : α → Option α} {a b r s p : α}

theorem Path.reaches (h : C.Path next a b) : Reaches next a b := by
  induction h with
  | refl a => exact .refl
  | step _ hnext _ _ ih => exact .head hnext ih

theorem Reaches.mono (h : Reaches next a b) (hnext : ∀ a b, next a = some b → next' a = some b) :
    Reaches next' a b :=
  Relation.ReflTransGen.mono hnext _ _ h

theorem Reaches.redirect [DecidableEq α] (h : Reaches next a b) (hr : Path.Redirects C next r s p) :
    Reaches (Function.update next r (some p)) a b := by
  induction h using Relation.ReflTransGen.head_induction_on with
  | refl => exact .refl
  | @head a c hnext _ ih =>
    by_cases har : a = r
    · subst har
      rw [hr.old, Option.some.injEq] at hnext
      subst hnext
      exact .head (Function.update_self ..) (hr.leads_after.reaches.trans ih)
    · exact .head (by rw [Function.update_of_ne har, hnext]) ih

end Reaches

/-! ## Pointers that form one ordered cycle -/

section Cycle

variable {C} {next : α → Option α} {a b x y s : α}

/-- The point `x` is on a path from `a` to `b`. -/
structure OnPath (C : Circle α) (next : α → Option α) (a x b : α) : Prop where
  fst : C.Path next a x
  snd : C.Path next x b
  arc : C.dist a x ≤ C.dist a b

theorem OnPath.before (h : OnPath C next a x b) (hx : a ≠ x) : ∃ u, next u = some x ∧ OnPath C next a u b := by
  obtain ⟨u, hau, hu, hdist⟩ := h.fst.last hx
  have harc := h.arc
  have h1 := C.dist_add hdist
  have h2 := C.dist_add h.arc
  have h3 := C.dist_add (a := a) (b := u) (c := b) (by omega)
  by_cases hub : u = x
  · rw [← hub] at h
    exact ⟨u, hu, h⟩
  · exact ⟨u, hu, hau, (Path.single hub hu).trans h.snd (by omega), by omega⟩

/-- Every point that leads to the loop through `a` and `b` is on it, if no two pointers agree. -/
theorem on_loop (hab : a ≠ b) (hfst : C.Path next a b) (hsnd : C.Path next b a)
    (hinj : ∀ x y z, next x = some z → next y = some z → x = y) (h : Reaches next x a) :
    OnPath C next a x b ∨ OnPath C next b x a := by
  induction h using Relation.ReflTransGen.head_induction_on with
  | refl => exact .inl ⟨.refl a, hfst, by simp⟩
  | @head x z hnext _ ih =>
    have hpred : ∃ u, next u = some z ∧ (OnPath C next a u b ∨ OnPath C next b u a) := by
      rcases ih with h | h
      · by_cases haz : a = z
        · subst haz
          obtain ⟨u, hu, h⟩ := OnPath.before (C := C) ⟨hsnd, .refl a, le_rfl⟩ hab.symm
          exact ⟨u, hu, .inr h⟩
        · obtain ⟨u, hu, h⟩ := h.before haz
          exact ⟨u, hu, .inl h⟩
      · by_cases hbz : b = z
        · subst hbz
          obtain ⟨u, hu, h⟩ := OnPath.before (C := C) ⟨hfst, .refl b, le_rfl⟩ hab
          exact ⟨u, hu, .inl h⟩
        · obtain ⟨u, hu, h⟩ := h.before hbz
          exact ⟨u, hu, .inr h⟩
    obtain ⟨u, hu, h⟩ := hpred
    rw [hinj x u z hnext hu]
    exact h

theorem OnPath.nearest (hab : a ≠ b) (hx : OnPath C next a x b) (hxb : x ≠ b) (hnext : next x = some s)
    (hy : OnPath C next a y b ∨ OnPath C next b y a) (hxy : x ≠ y) : C.dist x s ≤ C.dist x y := by
  have hpos := C.dist_pos hxy
  have h1 := C.dist_add hx.arc
  have hxs : C.dist x s ≤ C.dist x b := by
    cases hx.snd with
    | refl => exact absurd rfl hxb
    | step _ hn harc _ =>
      rw [hnext, Option.some.injEq] at hn
      rwa [hn]
  by_contra hlt
  have h2 := C.dist_triangle a x y
  have h3 := C.dist_lt a b
  rcases hy with hy | hy
  · cases hx.fst.cross hy.fst (by omega) with
    | refl => exact hxy rfl
    | step _ hn harc _ =>
      rw [hnext, Option.some.injEq] at hn
      rw [← hn] at harc
      exact hlt harc
  · have h4 := C.dist_add hy.arc
    have h5 := C.dist_triangle a b a
    have h6 := C.dist_triangle a y a
    have h7 := C.dist_pos hab
    rw [C.dist_self] at h5 h6
    omega

/-- On the loop through `a` and `b` every pointer leads to the nearest point. -/
theorem nearest (hab : a ≠ b) (hfst : C.Path next a b) (hsnd : C.Path next b a)
    (hinj : ∀ x y z, next x = some z → next y = some z → x = y) (hx : Reaches next x a)
    (hy : Reaches next y a) (hnext : next x = some s) (hxy : x ≠ y) : C.dist x s ≤ C.dist x y := by
  have hy := on_loop hab hfst hsnd hinj hy
  rcases on_loop hab hfst hsnd hinj hx with h | h
  · by_cases hxb : x = b
    · subst hxb
      exact OnPath.nearest hab.symm ⟨.refl x, hsnd, by simp⟩ hab.symm hnext hy.symm hxy
    · exact h.nearest hab hxb hnext hy hxy
  · by_cases hxa : x = a
    · subst hxa
      exact OnPath.nearest hab ⟨.refl x, hfst, by simp⟩ hab hnext hy hxy
    · exact h.nearest hab.symm hxa hnext hy.symm hxy

end Cycle

/-! ## Sorted points -/

/-- `b` follows `a` in the list, the first element following the last. -/
def Follows (l : List α) (a b : α) : Prop := ∃ i, l[i]? = some a ∧ l[(i + 1) % l.length]? = some b

instance [DecidableEq α] (l : List α) (a b : α) : Decidable (Follows l a b) :=
  decidable_of_iff (∃ i, i < l.length ∧ l[i]? = some a ∧ l[(i + 1) % l.length]? = some b) <| by
    constructor
    · rintro ⟨i, -, h⟩
      exact ⟨i, h⟩
    · rintro ⟨i, ha, hb⟩
      exact ⟨i, (List.getElem?_eq_some_iff.mp ha).1, ha, hb⟩

section Sorted

variable {l : List α} {a b y : α}

theorem Follows.mem_left (h : Follows l a b) : a ∈ l := by
  obtain ⟨i, ha, -⟩ := h
  exact List.mem_of_getElem? ha

theorem Follows.mem_right (h : Follows l a b) : b ∈ l := by
  obtain ⟨i, -, hb⟩ := h
  exact List.mem_of_getElem? hb

theorem exists_follows (h : a ∈ l) : ∃ b, Follows l a b := by
  obtain ⟨i, hi, rfl⟩ := List.mem_iff_getElem.mp h
  have hlt : (i + 1) % l.length < l.length := Nat.mod_lt _ (by omega)
  exact ⟨l[(i + 1) % l.length], i, List.getElem?_eq_getElem hi, List.getElem?_eq_getElem hlt⟩

theorem exists_followed (h : b ∈ l) : ∃ a, Follows l a b := by
  obtain ⟨j, hj, rfl⟩ := List.mem_iff_getElem.mp h
  by_cases hzero : j = 0
  · subst hzero
    refine ⟨l[l.length - 1], l.length - 1, List.getElem?_eq_getElem (by omega), ?_⟩
    rw [Nat.sub_add_cancel hj, Nat.mod_self]
    exact List.getElem?_eq_getElem hj
  · refine ⟨l[j - 1], j - 1, List.getElem?_eq_getElem (by omega), ?_⟩
    rw [Nat.sub_add_cancel (by omega), Nat.mod_eq_of_lt hj]
    exact List.getElem?_eq_getElem hj

/-- The points of the list stand in the order of their places. -/
def Sorted (C : Circle α) (l : List α) : Prop := l.Pairwise fun a b => C.pos a < C.pos b

variable {C}

theorem Sorted.pos_lt_of_lt (h : C.Sorted l) {i j : Nat} (hij : i < j) (ha : l[i]? = some a)
    (hb : l[j]? = some b) : C.pos a < C.pos b := by
  obtain ⟨hi, rfl⟩ := List.getElem?_eq_some_iff.mp ha
  obtain ⟨hj, rfl⟩ := List.getElem?_eq_some_iff.mp hb
  exact List.pairwise_iff_getElem.mp h i j hi hj hij

theorem Sorted.follows_ne (h : C.Sorted l) (hlen : 2 ≤ l.length) (hab : Follows l a b) : a ≠ b := by
  obtain ⟨i, ha, hb⟩ := hab
  obtain ⟨hi, -⟩ := List.getElem?_eq_some_iff.mp ha
  rintro rfl
  by_cases hlast : i + 1 = l.length
  · rw [hlast, Nat.mod_self] at hb
    exact absurd (h.pos_lt_of_lt (by omega) hb ha) (lt_irrefl _)
  · rw [Nat.mod_eq_of_lt (by omega)] at hb
    exact absurd (h.pos_lt_of_lt (by omega) ha hb) (lt_irrefl _)

/-- In a sorted list the nearest point follows. -/
theorem Sorted.nearest (h : C.Sorted l) (hab : Follows l a b) (hy : y ∈ l) (hne : a ≠ y) :
    C.dist a b ≤ C.dist a y := by
  obtain ⟨i, ha, hb⟩ := hab
  obtain ⟨hi, -⟩ := List.getElem?_eq_some_iff.mp ha
  obtain ⟨j, hj⟩ := List.getElem?_of_mem hy
  obtain ⟨hjlen, -⟩ := List.getElem?_eq_some_iff.mp hj
  have hij : i ≠ j := by
    rintro rfl
    rw [ha, Option.some.injEq] at hj
    exact hne hj
  have hapos := C.pos_lt a
  have hbpos := C.pos_lt b
  by_cases hlast : i + 1 = l.length
  · have hya : C.pos y < C.pos a := h.pos_lt_of_lt (by omega) hj ha
    rw [hlast, Nat.mod_self] at hb
    have hby : C.pos b ≤ C.pos y := by
      by_cases hzero : j = 0
      · subst hzero
        rw [hb, Option.some.injEq] at hj
        rw [hj]
      · exact (h.pos_lt_of_lt (by omega) hb hj).le
    unfold dist cw
    split_ifs <;> omega
  · rw [Nat.mod_eq_of_lt (by omega)] at hb
    have hlt : C.pos a < C.pos b := h.pos_lt_of_lt (by omega) ha hb
    have hy : C.pos y < C.pos a ∨ C.pos b ≤ C.pos y := by
      by_cases hji : j < i
      · exact .inl (h.pos_lt_of_lt hji hj ha)
      · by_cases hnext : j = i + 1
        · subst hnext
          rw [hb, Option.some.injEq] at hj
          exact .inr (by rw [hj])
        · exact .inr (h.pos_lt_of_lt (by omega) hb hj).le
    unfold dist cw
    split_ifs <;> omega

theorem Sorted.eq_of_nearest (h : C.Sorted l) {c : α} (hac : Follows l a c) (hb : b ∈ l) (hab : a ≠ b)
    (hnear : ∀ y ∈ l, a ≠ y → C.dist a b ≤ C.dist a y) : c = b := by
  have hlen : 2 ≤ l.length := by
    match l, hac.mem_left, hb with
    | [x], ha, hb =>
      rw [List.mem_singleton] at ha hb
      exact absurd (ha.trans hb.symm) hab
    | _ :: _ :: _, _, _ => simp
  have hle := hnear c hac.mem_right (h.follows_ne hlen hac)
  have hge := h.nearest hac hb hab
  exact C.dist_right_inj (Nat.le_antisymm hge hle)

/-- The place in front of `b` in the list is the one in front of its place. -/
theorem Sorted.cyclicPred_eq [DecidableEq α] (h : C.Sorted l) (hlen : 2 ≤ l.length) (hab : Follows l a b) :
    cyclicPred (l.toFinset.image C.pos) (C.pos b) = C.pos a := by
  have hmem : ∀ {x}, x ∈ l → C.pos x ∈ l.toFinset.image C.pos :=
    fun hx => Finset.mem_image_of_mem _ (List.mem_toFinset.mpr hx)
  have ha := hmem hab.mem_left
  have hb := hmem hab.mem_right
  have hne := h.follows_ne hlen hab
  have hpb := cyclicPred_ne hb (Finset.one_lt_card.mpr ⟨_, ha, _, hb, C.pos_injective.ne hne⟩)
  obtain ⟨p, hp, heq⟩ := Finset.mem_image.mp (cyclicPred_mem hb)
  rw [List.mem_toFinset] at hp
  rw [← heq] at hpb ⊢
  by_contra hpa
  have hap : a ≠ p := fun hap => hpa (congrArg C.pos hap.symm)
  have hnear := h.nearest hab hp hap
  have hnear' : C.dist p b ≤ C.dist p a := by
    have := cyclicPred_nearest (M := C.size) (by simp [C.pos_lt]) hb ha (by rwa [← heq])
    rwa [← heq] at this
  have h1 := C.dist_pos hne
  have h2 := C.dist_triangle a p b
  have h3 := C.dist_triangle p a b
  have h4 := C.dist_triangle a p a
  have h5 := C.dist_pos hap
  have h6 := C.dist_pos fun heq : p = b => hpb (congrArg C.pos heq)
  rw [C.dist_self] at h4
  omega

/-- The places that belong to a point are those that it is the nearest to, seen from them. -/
theorem Sorted.inArc_iff (h : C.Sorted l) (hlen : 2 ≤ l.length) (hab : Follows l a b) {k : Nat}
    (hk : k < C.size) :
    InArc C.size (C.pos a) k (C.pos b) ↔ ∀ y ∈ l, cw C.size k (C.pos b) ≤ cw C.size k (C.pos y) := by
  have hplaces := inArc_iff_nearest (T := C.pos '' {y | y ∈ l}) (b := C.pos b) (by simp [C.pos_lt])
    (Set.mem_image_of_mem _ hab.mem_left) (Set.mem_image_of_mem _ hab.mem_right)
    (C.pos_injective.ne (h.follows_ne hlen hab)) (by
      rintro _ ⟨y, hy, rfl⟩ hne
      exact h.nearest hab hy fun heq => hne (congrArg C.pos heq)) hk
  rwa [Set.forall_mem_image] at hplaces

/-- Every place belongs to exactly one of the points. -/
theorem Sorted.exists_owner (h : C.Sorted l) (hlen : 2 ≤ l.length) {k : Nat} (hk : k < C.size) :
    ∃ a b, Follows l a b ∧ InArc C.size (C.pos a) k (C.pos b) ∧
      ∀ c d, Follows l c d → InArc C.size (C.pos c) k (C.pos d) → d = b := by
  obtain ⟨b, hb⟩ : ∃ b, b ∈ l.argmin fun x => cw C.size k (C.pos x) := by
    cases hmin : l.argmin fun x => cw C.size k (C.pos x) with
    | none =>
      rw [List.argmin_eq_none] at hmin
      simp [hmin] at hlen
    | some b => exact ⟨b, rfl⟩
  have hmin : ∀ y ∈ l, cw C.size k (C.pos b) ≤ cw C.size k (C.pos y) :=
    fun y hy => List.le_of_mem_argmin (f := fun x => cw C.size k (C.pos x)) hy hb
  obtain ⟨a, hab⟩ := exists_followed (List.argmin_mem hb)
  refine ⟨a, b, hab, (h.inArc_iff hlen hab hk).mpr hmin, ?_⟩
  intro c d hcd harc
  have hle := (h.inArc_iff hlen hcd hk).mp harc b hab.mem_right
  have hge := hmin d hcd.mem_right
  exact C.pos_injective (cw_right_inj hk (C.pos_lt d) (C.pos_lt b) (Nat.le_antisymm hle hge))

end Sorted

end Circle

end MarketPeer.Ring

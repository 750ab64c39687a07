import Mathlib.Tactic.Common

/-!
# What a call ends in

A call of a language with errors and panics returns a value, returns an error,
or unwinds. `Outcome` is the three of them, and a monad that stops at the first
error or panic.
-/

namespace MarketPeer

inductive Outcome (ε α : Type) where
  | ok (a : α)
  | err (e : ε)
  | panic (why : String)

namespace Outcome

variable {ε α β : Type}

def bind (x : Outcome ε α) (f : α → Outcome ε β) : Outcome ε β :=
  match x with
  | .ok a => f a
  | .err e => .err e
  | .panic why => .panic why

instance : Monad (Outcome ε) where
  pure := .ok
  bind := bind

instance : LawfulMonad (Outcome ε) :=
  LawfulMonad.mk' _ (by intro α x; cases x <;> rfl) (by intros; rfl) (by intro α β γ x f g; cases x <;> rfl)

def isOk : Outcome ε α → Bool
  | .ok _ => true
  | _ => false

@[simp] theorem isOk_ok (a : α) : isOk (.ok a : Outcome ε α) = true := rfl
@[simp] theorem isOk_err (e : ε) : isOk (.err e : Outcome ε α) = false := rfl
@[simp] theorem isOk_panic (why : String) : isOk (.panic why : Outcome ε α) = false := rfl

@[simp] theorem pure_eq (a : α) : (pure a : Outcome ε α) = .ok a := rfl
@[simp] theorem ok_bind (a : α) (f : α → Outcome ε β) : (Outcome.ok a >>= f) = f a := rfl
@[simp] theorem err_bind (e : ε) (f : α → Outcome ε β) : (Outcome.err e >>= f) = .err e := rfl
@[simp] theorem panic_bind (why : String) (f : α → Outcome ε β) :
    ((Outcome.panic why : Outcome ε α) >>= f) = .panic why := rfl

/-- A sequence returns a value exactly when both of its parts do. -/
theorem bind_eq_ok (x : Outcome ε α) (f : α → Outcome ε β) (b : β) :
    (x >>= f) = .ok b ↔ ∃ a, x = .ok a ∧ f a = .ok b := by
  cases x <;> simp

/-- The call returns a value that passes the test. -/
def any (x : Outcome ε α) (p : α → Bool) : Bool :=
  match x with
  | .ok a => p a
  | _ => false

theorem any_eq_true (x : Outcome ε α) (p : α → Bool) : x.any p = true ↔ ∃ a, x = .ok a ∧ p a = true := by
  cases x <;> simp [any]

theorem isOk_iff (x : Outcome ε α) : x.isOk = true ↔ ∃ a, x = .ok a := by
  cases x <;> simp

/-- The call unwinds. -/
def Panics (x : Outcome ε α) : Prop := ∃ why, x = .panic why

@[simp] theorem not_panics_ok (a : α) : ¬ Panics (.ok a : Outcome ε α) := by
  rintro ⟨why, h⟩
  cases h

@[simp] theorem not_panics_err (e : ε) : ¬ Panics (.err e : Outcome ε α) := by
  rintro ⟨why, h⟩
  cases h

@[simp] theorem panics_panic (why : String) : Panics (.panic why : Outcome ε α) := ⟨why, rfl⟩

/-- A sequence unwinds in its first part or, after that has returned, in its second. -/
theorem panics_bind (x : Outcome ε α) (f : α → Outcome ε β) :
    (x >>= f).Panics ↔ x.Panics ∨ ∃ a, x = .ok a ∧ (f a).Panics := by
  cases x <;> simp

/-- What the call unwinds with. -/
def why? : Outcome ε α → Option String
  | .panic why => some why
  | _ => none

theorem why?_eq_some (x : Outcome ε α) (why : String) : x.why? = some why ↔ x = .panic why := by
  cases x <;> simp [why?]

/-- The elements that a loop over `f` comes to: it stops at the first that does not return. -/
def started (f : α → Outcome ε β) : List α → List α
  | [] => []
  | x :: xs => x :: if (f x).isOk then started f xs else []

theorem started_subset (f : α → Outcome ε β) (xs : List α) : started f xs ⊆ xs := by
  induction xs with
  | nil => simp [started]
  | cons x xs ih =>
    unfold started
    split
    · exact List.cons_subset_cons x ih
    · simp

theorem panics_mapM (f : α → Outcome ε β) (xs : List α) :
    (xs.mapM f).Panics ↔ ∃ x ∈ started f xs, (f x).Panics := by
  induction xs with
  | nil => simp [started]
  | cons x xs ih =>
    rw [List.mapM_cons, panics_bind]
    cases hx : f x with
    | ok b => simp [started, hx, panics_bind, ih]
    | err e => simp [started, hx]
    | panic why => simp [started, hx]

theorem isOk_mapM (f : α → Outcome ε β) (xs : List α) :
    (xs.mapM f).isOk = xs.all fun x => (f x).isOk := by
  induction xs with
  | nil => rfl
  | cons x xs ih =>
    rw [List.mapM_cons, List.all_cons, ← ih]
    cases f x with
    | ok b => cases xs.mapM f <;> rfl
    | err e => rfl
    | panic why => rfl

/-- The call returns or unwinds. -/
def Errless (x : Outcome ε α) : Prop := ∀ e, x ≠ .err e

theorem errless_ok (a : α) : Errless (.ok a : Outcome ε α) := by
  intro e h
  cases h

theorem errless_panic (why : String) : Errless (.panic why : Outcome ε α) := by
  intro e h
  cases h

theorem errless_bind (x : Outcome ε α) (f : α → Outcome ε β) (hx : x.Errless) (hf : ∀ a, (f a).Errless) :
    (x >>= f).Errless := by
  cases x with
  | ok a => exact hf a
  | err e => exact (hx e rfl).elim
  | panic why => exact errless_panic why

theorem errless_foldlM (f : β → α → Outcome ε β) (hf : ∀ b a, (f b a).Errless) (xs : List α) (b : β) :
    (xs.foldlM f b).Errless := by
  induction xs generalizing b with
  | nil => exact errless_ok b
  | cons x xs ih =>
    rw [List.foldlM_cons]
    exact errless_bind _ _ (hf b x) ih

end Outcome

end MarketPeer

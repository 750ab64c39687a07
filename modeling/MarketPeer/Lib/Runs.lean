import Mathlib.Algebra.GroupWithZero.Nat
import Mathlib.Data.List.Induction
import Mathlib.Tactic.Common

/-!
# Runs of a step function

A system takes events one at a time; `none` is the end of the process. `Meets`
says that every step of a run meets a condition on the state before it.
-/

namespace MarketPeer

section Runs

variable {σ ε : Type} (step : σ → ε → Option σ)

/-- The state after all events, as long as the process lives. -/
def run : σ → List ε → Option σ
  | s, [] => some s
  | s, e :: es => (step s e).bind fun s' => run s' es

def Meets (C : σ → ε → Prop) : σ → List ε → Prop
  | _, [] => True
  | s, e :: es => C s e ∧ ∀ s', step s e = some s' → Meets C s' es

variable {step} {C : σ → ε → Prop} {s s' : σ}

theorem run_cons {e : ε} (h : step s e = some s') (es : List ε) :
    run step s (e :: es) = run step s' es := by
  simp [run, h]

theorem run_append {s'' : σ} (es es' : List ε) (h : run step s es = some s') (h' : run step s' es' = some s'') :
    run step s (es ++ es') = some s'' := by
  induction es generalizing s with
  | nil =>
    simp only [run, Option.some.injEq] at h
    rw [h]; exact h'
  | cons e es ih =>
    simp only [run, Option.bind_eq_some_iff] at h
    obtain ⟨s1, hstep, hrun⟩ := h
    rw [List.cons_append, run_cons hstep]
    exact ih hrun

theorem run_split {s'' : σ} (es es' : List ε) (h : run step s (es ++ es') = some s'') :
    ∃ s', run step s es = some s' ∧ run step s' es' = some s'' := by
  induction es generalizing s with
  | nil => exact ⟨s, rfl, h⟩
  | cons e es ih =>
    simp only [List.cons_append, run, Option.bind_eq_some_iff] at h
    obtain ⟨s1, hstep, h⟩ := h
    obtain ⟨s', hrun, hrun'⟩ := ih h
    exact ⟨s', by rw [run_cons hstep]; exact hrun, hrun'⟩

theorem run_snoc {s₀ : σ} {e : ε} (es : List ε) (h : run step s₀ (es ++ [e]) = some s') :
    ∃ s, run step s₀ es = some s ∧ step s e = some s' := by
  induction es generalizing s₀ with
  | nil =>
    simp only [List.nil_append, run, Option.bind_eq_some_iff, Option.some.injEq] at h
    obtain ⟨s, hstep, rfl⟩ := h
    exact ⟨s₀, rfl, hstep⟩
  | cons e' es ih =>
    simp only [List.cons_append, run, Option.bind_eq_some_iff] at h
    obtain ⟨s1, hstep, h⟩ := h
    obtain ⟨s, hrun, hlast⟩ := ih h
    exact ⟨s, by rw [run_cons hstep]; exact hrun, hlast⟩

theorem meets_append (es es' : List ε) (h : Meets step C s (es ++ es')) (hrun : run step s es = some s') :
    Meets step C s' es' := by
  induction es generalizing s with
  | nil =>
    simp only [run, Option.some.injEq] at hrun
    rw [← hrun]; exact h
  | cons e es ih =>
    simp only [run, Option.bind_eq_some_iff] at hrun
    obtain ⟨s1, hstep, hrun⟩ := hrun
    exact ih (h.2 s1 hstep) hrun

theorem meets_left (es es' : List ε) (h : Meets step C s (es ++ es')) : Meets step C s es := by
  induction es generalizing s with
  | nil => trivial
  | cons e es ih => exact ⟨h.1, fun s' hstep => ih (h.2 s' hstep)⟩

/-- What a step that meets `C` preserves, a run whose steps all meet `C` preserves. -/
theorem run_invariant (Inv : σ → Prop)
    (hstep : ∀ s e s', Inv s → C s e → step s e = some s' → Inv s') (es : List ε) (hinit : Inv s)
    (hmeets : Meets step C s es) (hrun : run step s es = some s') : Inv s' := by
  induction es generalizing s with
  | nil =>
    simp only [run, Option.some.injEq] at hrun
    rw [← hrun]; exact hinit
  | cons e es ih =>
    simp only [run, Option.bind_eq_some_iff] at hrun
    obtain ⟨s1, h1, hrun⟩ := hrun
    exact ih (hstep s e s1 hinit hmeets.1 h1) (hmeets.2 s1 h1) hrun

/-- Induction over a run from its end: what holds of the events so far and the state they lead to. -/
theorem run_snoc_induction {s₀ : σ} {motive : List ε → σ → Prop} (nil : motive [] s₀)
    (snoc : ∀ es e s s', run step s₀ es = some s → motive es s → step s e = some s' → motive (es ++ [e]) s')
    (es : List ε) (hrun : run step s₀ es = some s) : motive es s := by
  induction es using List.reverseRecOn generalizing s with
  | nil =>
    simp only [run, Option.some.injEq] at hrun
    rw [← hrun]; exact nil
  | append_singleton es e ih =>
    obtain ⟨s1, hrun1, hstep⟩ := run_snoc es hrun
    exact snoc es e s1 s hrun1 (ih hrun1) hstep

theorem meets_mono {D : σ → ε → Prop} (hCD : ∀ s e, C s e → D s e) (es : List ε) (h : Meets step C s es) :
    Meets step D s es := by
  induction es generalizing s with
  | nil => trivial
  | cons e es ih => exact ⟨hCD s e h.1, fun s' hstep => ih (h.2 s' hstep)⟩

theorem meets_and {D : σ → ε → Prop} (es : List ε) (hC : Meets step C s es) (hD : Meets step D s es) :
    Meets step (fun s e => C s e ∧ D s e) s es := by
  induction es generalizing s with
  | nil => trivial
  | cons e es ih => exact ⟨⟨hC.1, hD.1⟩, fun s' hstep => ih (hC.2 s' hstep) (hD.2 s' hstep)⟩

instance decidableMeets [∀ s e, Decidable (C s e)] : ∀ s es, Decidable (Meets step C s es)
  | _, [] => isTrue trivial
  | s, e :: es =>
    match h : step s e with
    | none => decidable_of_iff (C s e) (by simp [Meets, h])
    | some s' =>
      have := decidableMeets s' es
      decidable_of_iff (C s e ∧ Meets step C s' es) (by simp [Meets, h])

/-- If a step goes wrong exactly when it does not meet `C`, a run stays right exactly when all its steps
meet `C`. -/
theorem meets_iff_safe (Inv Bad : σ → Prop) (hinv : ∀ s e s', Inv s → step s e = some s' → Inv s')
    (hexact : ∀ s e s', Inv s → ¬ Bad s → step s e = some s' → (Bad s' ↔ ¬ C s e)) (es : List ε)
    (hinit : Inv s) (hgood : ¬ Bad s) (hrun : run step s es = some s') :
    Meets step C s es ↔ ∀ pre suf t, es = pre ++ suf → run step s pre = some t → ¬ Bad t := by
  induction es generalizing s with
  | nil =>
    constructor
    · intro _ pre suf t hsplit ht
      obtain ⟨rfl, -⟩ := List.nil_eq_append_iff.mp hsplit
      cases ht
      exact hgood
    · intro _
      trivial
  | cons e es ih =>
    simp only [run, Option.bind_eq_some_iff] at hrun
    obtain ⟨s1, hstep, hrun⟩ := hrun
    have hone := hexact s e s1 hinit hgood hstep
    constructor
    · rintro ⟨hC, hrest⟩ pre suf t hsplit ht
      have hnext : ¬ Bad s1 := fun hbad => hone.mp hbad hC
      rcases List.cons_eq_append_iff.mp hsplit with ⟨rfl, -⟩ | ⟨pre', rfl, hsplit'⟩
      · cases ht
        exact hgood
      · rw [run_cons hstep] at ht
        exact (ih (hinv s e s1 hinit hstep) hnext hrun).mp (hrest s1 hstep) pre' suf t hsplit' ht
    · intro hsafe
      have hnext : ¬ Bad s1 := hsafe [e] es s1 rfl (by rw [run_cons hstep]; rfl)
      have hC : C s e := by
        by_contra hnot
        exact hnext (hone.mpr hnot)
      refine ⟨hC, ?_⟩
      intro s2 hs2
      rw [hstep, Option.some.injEq] at hs2
      subst hs2
      refine (ih (hinv s e s1 hinit hstep) hnext hrun).mpr ?_
      intro pre suf t hsplit ht
      refine hsafe (e :: pre) suf t (by rw [hsplit]; rfl) ?_
      rw [run_cons hstep]
      exact ht

theorem meets_of_forall (es : List ε) (h : ∀ e ∈ es, ∀ s, C s e) : Meets step C s es := by
  induction es generalizing s with
  | nil => trivial
  | cons e es ih =>
    refine ⟨h e List.mem_cons_self s, fun s' _ => ih ?_⟩
    intro e' he'
    exact h e' (List.mem_cons_of_mem e he')

variable (step) in
/-- `Q` holds somewhere in a run, its two ends included. -/
def Passes (Q : σ → Prop) (s : σ) (es : List ε) : Prop := ∃ pre suf t, es = pre ++ suf ∧ run step s pre = some t ∧ Q t

theorem Passes.append {Q : σ → Prop} {es : List ε} (h : Passes step Q s es) (es' : List ε) :
    Passes step Q s (es ++ es') := by
  obtain ⟨pre, suf, t, rfl, hrun, hQ⟩ := h
  exact ⟨pre, suf ++ es', t, List.append_assoc .., hrun, hQ⟩

theorem passes_last {Q : σ → Prop} {es : List ε} (hrun : run step s es = some s') (hQ : Q s') : Passes step Q s es :=
  ⟨es, [], s', (List.append_nil es).symm, hrun, hQ⟩

/-- What every step preserves, every run preserves. -/
theorem run_preserves (Inv : σ → Prop) (hstep : ∀ s e s', Inv s → step s e = some s' → Inv s') (es : List ε)
    (hinit : Inv s) (hrun : run step s es = some s') : Inv s' :=
  run_invariant (C := fun _ _ => True) Inv (fun s e s' h _ => hstep s e s' h) es hinit
    (meets_of_forall es fun _ _ _ => trivial) hrun

end Runs

/-! Concrete runs of two or three parties name them by numerals, all over these constants. -/

instance neZero_two : NeZero 2 := ⟨by decide⟩

instance neZero_three : NeZero 3 := ⟨by decide⟩

end MarketPeer

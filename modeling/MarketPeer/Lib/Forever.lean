import Mathlib.Data.Nat.Init
import Mathlib.Order.WellFounded
import MarketPeer.Lib.Runs

/-!
# Runs without end

A system that goes on for ever. What only changes when a number gets smaller stays as it
is from some time on.
-/

namespace MarketPeer

section Forever

variable {σ ε : Type} {step : σ → ε → Option σ}

/-- The states of a run without end, each with the event that follows it. -/
structure Forever (step : σ → ε → Option σ) (s₀ : σ) where
  state : Nat → σ
  event : Nat → ε
  start : state 0 = s₀
  next : ∀ t, step (state t) (event t) = some (state (t + 1))

variable {s₀ s : σ}

theorem Forever.run_to (r : Forever step s₀) (t : Nat) :
    run step s₀ ((List.range t).map r.event) = some (r.state t) := by
  induction t with
  | zero => rw [r.start]; rfl
  | succ t ih =>
    rw [List.range_succ, List.map_append, List.map_singleton]
    exact run_append _ _ ih (by rw [run_cons (r.next t)]; rfl)

theorem Forever.settles {β : Type} (r : Forever step s₀) (f : σ → β) (rank : β → Nat)
    (hstep : ∀ t, f (r.state (t + 1)) = f (r.state t) ∨ rank (f (r.state (t + 1))) < rank (f (r.state t))) :
    ∃ T, ∀ t, T ≤ t → f (r.state t) = f (r.state T) := by
  obtain ⟨_, ⟨T, rfl⟩, hmin⟩ := wellFounded_lt.has_min (Set.range fun t => rank (f (r.state t))) ⟨_, 0, rfl⟩
  refine ⟨T, fun t ht => ?_⟩
  induction t, ht using Nat.le_induction with
  | base => rfl
  | succ t _ ih =>
    rcases hstep t with hsame | hless
    · rw [hsame, ih]
    · rw [ih] at hless
      exact absurd hless (hmin _ ⟨t + 1, rfl⟩)

/-! ## Going round -/

section Lasso

variable (step) (cycle : List ε)

/-- The state with the events that are left of this round. -/
def turn : σ × List ε → σ × List ε
  | (x, []) => (x, cycle)
  | (x, [e]) => ((step x e).getD x, cycle)
  | (x, e :: rest) => ((step x e).getD x, rest)

variable {step cycle} {C : σ → ε → Prop} {es : List ε}

/-- The events that are left lead to the state in which the round begins again. -/
structure Rolls (step : σ → ε → Option σ) (C : σ → ε → Prop) (s : σ) (p : σ × List ε) : Prop where
  ne : p.2 ≠ []
  run : run step p.1 p.2 = some s
  meets : Meets step C p.1 p.2

theorem Rolls.turn (hne : cycle ≠ []) (hcycle : MarketPeer.run step s cycle = some s) (hmeets : Meets step C s cycle)
    {p : σ × List ε} (h : Rolls step C s p) : Rolls step C s (turn step cycle p) ∧
      step p.1 (p.2.head h.ne) = some (MarketPeer.turn step cycle p).1 ∧ C p.1 (p.2.head h.ne) := by
  obtain ⟨x, es⟩ := p
  obtain ⟨hes, hrun, hm⟩ := h
  cases es with
  | nil => exact absurd rfl hes
  | cons e rest =>
    obtain ⟨y, hy, hrest⟩ := Option.bind_eq_some_iff.mp hrun
    cases rest with
    | nil =>
      cases hrest
      simp only [MarketPeer.turn, hy, Option.getD_some, List.head_cons]
      exact ⟨⟨hne, hcycle, hmeets⟩, trivial, hm.1⟩
    | cons e' rest =>
      simp only [MarketPeer.turn, hy, Option.getD_some, List.head_cons]
      exact ⟨⟨by simp, hrest, hm.2 y hy⟩, trivial, hm.1⟩

variable (step cycle) in
/-- The events that are left all come, and then the round begins again. -/
theorem turn_comes (left : List ε) (p : σ × List ε) (hp : p.2 = left) (hne : left ≠ []) :
    (∃ u, ((turn step cycle)^[u] p).2 = cycle) ∧ ∀ e ∈ left, ∃ u, ((turn step cycle)^[u] p).2.head? = some e := by
  induction left generalizing p with
  | nil => exact absurd rfl hne
  | cons e rest ih =>
    obtain ⟨x, es⟩ := p
    subst hp
    cases rest with
    | nil =>
      refine ⟨⟨1, rfl⟩, ?_⟩
      intro e' he'
      rw [List.mem_singleton.mp he']
      exact ⟨0, rfl⟩
    | cons e' rest =>
      obtain ⟨⟨u, hu⟩, hall⟩ := ih (turn step cycle (x, e :: e' :: rest)) rfl (by simp)
      refine ⟨⟨u + 1, hu⟩, ?_⟩
      intro e'' he''
      rcases List.mem_cons.mp he'' with rfl | he''
      · exact ⟨0, rfl⟩
      · obtain ⟨v, hv⟩ := hall e'' he''
        exact ⟨v + 1, hv⟩

/-- A run that leads to where a round begins can go round for ever. -/
theorem exists_lasso (hne : cycle ≠ []) (hrun : run step s₀ es = some s) (hcycle : run step s cycle = some s)
    (hmeets : Meets step C s₀ (es ++ cycle)) :
    ∃ r : Forever step s₀, (∀ t, C (r.state t) (r.event t)) ∧ ∀ e ∈ cycle, ∀ t, ∃ u, t ≤ u ∧ r.event u = e := by
  have hround : Meets step C s cycle := meets_append es cycle hmeets hrun
  let p (t : Nat) := (turn step cycle)^[t] (s₀, es ++ cycle)
  have hnext : ∀ t, p (t + 1) = turn step cycle (p t) := fun t => Function.iterate_succ_apply' ..
  have hrolls : ∀ t, Rolls step C s (p t) := by
    intro t
    induction t with
    | zero => exact ⟨List.append_ne_nil_of_right_ne_nil _ hne, run_append _ _ hrun hcycle, hmeets⟩
    | succ t ih =>
      rw [hnext]
      exact (ih.turn hne hcycle hround).1
  let r : Forever step s₀ :=
    { state := fun t => (p t).1
      event := fun t => (p t).2.head (hrolls t).ne
      start := rfl
      next := fun t => by rw [hnext]; exact ((hrolls t).turn hne hcycle hround).2.1 }
  refine ⟨r, fun t => ((hrolls t).turn hne hcycle hround).2.2, ?_⟩
  intro e he t
  obtain ⟨u, hu⟩ := (turn_comes step cycle _ (p t) rfl (hrolls t).ne).1
  have hbegin : (p (u + t)).2 = cycle := by
    rw [← hu]
    exact congrArg Prod.snd (Function.iterate_add_apply ..)
  obtain ⟨v, hv⟩ := (turn_comes step cycle _ (p (u + t)) hbegin hne).2 e he
  have hcomes : (p (v + (u + t))).2.head? = some e := by
    rw [← hv]
    exact congrArg (fun q : σ × List ε => q.2.head?) (Function.iterate_add_apply ..)
  refine ⟨v + (u + t), by omega, ?_⟩
  exact Option.some.inj ((List.head?_eq_some_head _).symm.trans hcomes)

end Lasso

end Forever

end MarketPeer

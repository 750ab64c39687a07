import Mathlib.Algebra.Order.Group.Multiset
import Mathlib.Data.List.Induction
import Mathlib.Logic.Function.Basic
import Mathlib.Tactic.Common

/-!
# A map whose writes take effect later

The writes are issued in one order and take effect in any other, each of them once.
-/

namespace MarketPeer

/-- `waiting` are the writes that were issued and have not taken effect. -/
structure LateMap (K V : Type) where
  values : K → Option V
  waiting : Multiset (K × V)

namespace LateMap

variable {K V : Type} [DecidableEq K]

/-- From one map to another, with the writes that were issued on the way. -/
inductive Trace (m : LateMap K V) : List (K × V) → LateMap K V → Prop
  | refl : Trace m [] m
  | issue {ps : List (K × V)} {m' : LateMap K V} (p : K × V) (h : Trace m ps m') :
      Trace m (ps ++ [p]) ⟨m'.values, p ::ₘ m'.waiting⟩
  | effect {ps : List (K × V)} {m' : LateMap K V} {key : K} {v : V} {rest : Multiset (K × V)} (h : Trace m ps m')
      (hp : m'.waiting = (key, v) ::ₘ rest) : Trace m ps ⟨Function.update m'.values key (some v), rest⟩

/-- The values after the writes, one by one. -/
def writeAll (values : K → Option V) (ps : List (K × V)) : K → Option V :=
  ps.foldl (fun values p => Function.update values p.1 (some p.2)) values

theorem writeAll_snoc (values : K → Option V) (ps : List (K × V)) (key : K) (v : V) :
    writeAll values (ps ++ [(key, v)]) = Function.update (writeAll values ps) key (some v) := by
  simp [writeAll]

variable {m m' : LateMap K V} {ps : List (K × V)}

theorem Trace.trans {m'' : LateMap K V} {qs : List (K × V)} (h : Trace m ps m') (h' : Trace m' qs m'') :
    Trace m (ps ++ qs) m'' := by
  induction h' with
  | refl => rwa [List.append_nil]
  | issue p _ ih =>
    rw [← List.append_assoc]
    exact ih.issue p
  | effect _ hp ih => exact ih.effect hp

/-- Every write that was issued has taken effect once or waits. -/
theorem Trace.order (h : Trace m ps m') :
    ∃ done : List (K × V), m.waiting + ↑ps = ↑done + m'.waiting ∧ m'.values = writeAll m.values done := by
  induction h with
  | refl => exact ⟨[], by simp, rfl⟩
  | @issue ps m' p _ ih =>
    obtain ⟨done, hcount, hvalues⟩ := ih
    refine ⟨done, ?_, hvalues⟩
    rw [← Multiset.coe_add, ← add_assoc, hcount, Multiset.coe_singleton, add_assoc, add_comm m'.waiting,
      Multiset.singleton_add]
  | @effect ps m' key v rest _ hp ih =>
    obtain ⟨done, hcount, hvalues⟩ := ih
    refine ⟨done ++ [(key, v)], ?_, ?_⟩
    · rw [hcount, hp, ← Multiset.coe_add, Multiset.coe_singleton, add_assoc, Multiset.singleton_add]
    · rw [writeAll_snoc, ← hvalues]

/-- When nothing waits, the values are those of some order of all writes. -/
theorem Trace.at_rest (h : Trace m ps m') (hm : m.waiting = 0) (hm' : m'.waiting = 0) :
    ∃ done : List (K × V), done.Perm ps ∧ m'.values = writeAll m.values done := by
  obtain ⟨done, hcount, hvalues⟩ := h.order
  rw [hm, hm', zero_add, add_zero, Multiset.coe_eq_coe] at hcount
  exact ⟨done, hcount.symm, hvalues⟩

end LateMap

end MarketPeer

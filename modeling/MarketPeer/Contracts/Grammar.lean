import MarketPeer.Contracts.Eval
import Mathlib.Data.List.Basic

/-!
# What the grammar lets through

`Parsed` is the shape of a program that the parser returns: its pointers are set, and
a role may have any number of fields and an action any parameters. The state tree of
such a program has a node for everything that an evaluation marks.
-/

namespace MarketPeer.Contracts

open MarketPeer.Ledger

variable {F : Type}

/-! ## Programs -/

def IsRole (role : String) : Prop := role = "buyer" ∨ role = "seller"

/-- A string or a number. -/
def Literal.Parsed (l : Literal F) : Prop :=
  (l.string.isSome ∧ l.number = none) ∨ (l.string = none ∧ l.number.isSome)

structure Condition.Parsed (d : Condition F) : Prop where
  role : IsRole d.object.role
  fields : ∀ f ∈ d.object.fields, f ≠ none
  op : d.op ∈ ["==", "!=", ">=", "<=", ">", "<"]
  value : d.value.Parsed

structure Action.Parsed (a : Action F) : Prop where
  role : IsRole a.role
  action : a.action = "transfer" ∨ a.action = "send"
  params : ∀ p ∈ a.params, ∃ l, p = some l ∧ l.Parsed

structure IfClause.Parsed (c : IfClause F) : Prop where
  condition : c.condition.Parsed
  actions : c.actions ≠ [] ∧ ∀ a ∈ c.actions, ∃ x, a = some x ∧ x.Parsed

structure Code.Parsed (code : Code F) : Prop where
  assumptions : ∀ a ∈ code.assumptions, ∃ x, a = some x ∧ x.condition.Parsed
  ifClauses : ∀ c ∈ code.ifClauses, ∃ x, c = some x ∧ x.Parsed

/-! ## The state tree -/

/-- A node with at least one child, and no nil below it. -/
def StateNode.HasCondition : StateNode → Prop
  | .nil => False
  | .node _ _ _ _ children => children ≠ [] ∧ ∀ n ∈ children, n ≠ .nil

/-- The root has `k` children, each with the node of its condition. -/
def StateNode.Covers (k : Nat) : StateNode → Prop
  | .nil => False
  | .node _ _ _ _ children => children.length = k ∧ ∀ n ∈ children, n.HasCondition

theorem assumptionNodes_covers (as : List (Option (Assumption F))) (id : Int64) :
    (assumptionNodes id as).1.length = as.length ∧ ∀ n ∈ (assumptionNodes id as).1, n.HasCondition := by
  induction as generalizing id with
  | nil => simp [assumptionNodes]
  | cons a as ih =>
    obtain ⟨hlen, hall⟩ := ih (id + 2)
    refine ⟨by simp [assumptionNodes, hlen], ?_⟩
    intro n hn
    rcases List.mem_cons.mp hn with rfl | hn
    · simp [StateNode.HasCondition]
    · exact hall n hn

theorem actionNodes_ne_nil (as : List (Option (Action F))) (id : Int64) :
    ∀ n ∈ (actionNodes id as).1, n ≠ .nil := by
  induction as generalizing id with
  | nil => simp [actionNodes]
  | cons a as ih =>
    intro n hn
    rcases List.mem_cons.mp hn with rfl | hn
    · simp
    · exact ih (id + 1) n hn

theorem ifClauseNodes_covers (cs : List (Option (IfClause F))) (id : Int64) :
    (ifClauseNodes id cs).1.length = cs.length ∧ ∀ n ∈ (ifClauseNodes id cs).1, n.HasCondition := by
  induction cs generalizing id with
  | nil => simp [ifClauseNodes]
  | cons c cs ih =>
    obtain ⟨hlen, hall⟩ := ih (actionNodes (id + 2) (c.elim [] (·.actions))).2
    refine ⟨by simp [ifClauseNodes, hlen], ?_⟩
    intro n hn
    rcases List.mem_cons.mp hn with rfl | hn
    · refine ⟨by simp, ?_⟩
      intro n hn
      rcases List.mem_cons.mp hn with rfl | hn
      · simp
      · exact actionNodes_ne_nil _ _ n hn
    · exact hall n hn

theorem constructStateTree_covers (code : Code F) :
    (constructStateTree code).Covers (code.assumptions.length + code.ifClauses.length) := by
  obtain ⟨hlen, hall⟩ := assumptionNodes_covers code.assumptions 1
  obtain ⟨hlen', hall'⟩ := ifClauseNodes_covers code.ifClauses (assumptionNodes 1 code.assumptions).2
  refine ⟨by simp [hlen, hlen'], ?_⟩
  intro n hn
  rcases List.mem_append.mp hn with hn | hn
  · exact hall n hn
  · exact hall' n hn

namespace StateNode

/-- The children of a covering root, one of them replaced. -/
theorem Covers.setChild {k i : Nat} {tree n : StateNode} (h : tree.Covers k) (hn : n.HasCondition) :
    (tree.setChild i n).Covers k := by
  cases tree with
  | nil => exact h.elim
  | node id type valid executed children =>
    refine ⟨by rw [List.length_set]; exact h.1, ?_⟩
    intro m hm
    rcases List.mem_or_eq_of_mem_set hm with hm | rfl
    · exact h.2 m hm
    · exact hn

theorem Covers.child {k i : Nat} {tree : StateNode} (h : tree.Covers k) (hi : i < k) :
    ∃ n, (tree.child i : Res F StateNode) = .ok n ∧ n.HasCondition := by
  cases tree with
  | nil => exact h.elim
  | node id type valid executed children =>
    have hlt : i < children.length := by rw [h.1]; exact hi
    refine ⟨children[i], ?_, h.2 _ (List.getElem_mem hlt)⟩
    simp [StateNode.child, List.getElem?_eq_getElem hlt]

theorem Covers.mark {k i : Nat} {tree : StateNode} (h : tree.Covers k) (hi : i < k) (holds : Bool) :
    ∃ tree', (tree.mark i holds : Res F StateNode) = .ok tree' ∧ tree'.Covers k := by
  obtain ⟨n, hn, hcond⟩ := h.child (F := F) hi
  cases n with
  | nil => exact hcond.elim
  | node id type valid executed children =>
    obtain ⟨hne, hall⟩ := hcond
    cases children with
    | nil => exact (hne rfl).elim
    | cons c rest =>
      cases c with
      | nil => exact (hall .nil List.mem_cons_self rfl).elim
      | node id' type' valid' executed' children' =>
        refine ⟨_, by simp only [StateNode.mark, hn, Outcome.ok_bind]; rfl, h.setChild ?_⟩
        refine ⟨by simp, ?_⟩
        intro m hm
        rcases List.mem_cons.mp hm with rfl | hm
        · simp
        · exact hall m (List.mem_cons_of_mem _ hm)

/-- Marking a node that is not nil. -/
theorem mapM_set (ns : List StateNode) (h : ∀ n ∈ ns, n ≠ .nil) :
    ∃ ns', (ns.mapM (StateNode.set false) : Res F (List StateNode)) = .ok ns' ∧ ∀ n ∈ ns', n ≠ .nil := by
  induction ns with
  | nil => exact ⟨[], rfl, by simp⟩
  | cons n ns ih =>
    obtain ⟨ns', hns', hall⟩ := ih fun m hm => h m (List.mem_cons_of_mem n hm)
    cases n with
    | nil => exact (h .nil List.mem_cons_self rfl).elim
    | node id type valid executed children =>
      refine ⟨.node id type (valid || false) true children :: ns', ?_, ?_⟩
      · rw [List.mapM_cons, hns']
        rfl
      · intro m hm
        rcases List.mem_cons.mp hm with rfl | hm
        · simp
        · exact hall m hm

theorem Covers.markActions {k i : Nat} {tree : StateNode} (h : tree.Covers k) (hi : i < k) :
    ∃ tree', (tree.markActions i : Res F StateNode) = .ok tree' ∧ tree'.Covers k := by
  obtain ⟨n, hn, hcond⟩ := h.child (F := F) hi
  cases n with
  | nil => exact hcond.elim
  | node id type valid executed children =>
    obtain ⟨hne, hall⟩ := hcond
    obtain ⟨actions, hactions, hset⟩ := mapM_set (F := F) (children.drop 1)
      fun n hn => hall n (List.mem_of_mem_drop hn)
    refine ⟨_, by simp only [StateNode.markActions, hn, Outcome.ok_bind, hactions]; rfl, h.setChild ?_⟩
    refine ⟨?_, ?_⟩
    · cases children with
      | nil => exact (hne rfl).elim
      | cons c rest => simp
    · intro m hm
      rcases List.mem_append.mp hm with hm | hm
      · exact hall m (List.mem_of_mem_take hm)
      · exact hset m hm

end StateNode

end MarketPeer.Contracts

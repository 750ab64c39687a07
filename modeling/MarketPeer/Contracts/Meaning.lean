import MarketPeer.Contracts.Reached
import Mathlib.Data.List.Forall2

/-!
# What an evaluation of a contract means

The AST and the state tree are walked side by side. On a fresh tree, each node gets the
flags that its own condition calls for, and the actions that come back are those of the
clauses that hold, in the order of the source.
-/

namespace MarketPeer.Contracts

open MarketPeer.Ledger

variable {F : Type}

/-! ## Programs without nil -/

def Literal.NoNil (l : Literal F) : Prop := l.string.isSome ∨ l.number.isSome

structure Condition.NoNil (d : Condition F) : Prop where
  fields : ∀ f ∈ d.object.fields, f ≠ none
  value : d.value.NoNil

def Action.NoNil (a : Action F) : Prop := ∀ p ∈ a.params, ∃ l, p = some l ∧ l.NoNil

structure IfClause.NoNil (c : IfClause F) : Prop where
  condition : c.condition.NoNil
  actions : ∀ a ∈ c.actions, ∃ x, a = some x ∧ x.NoNil

/-- Every pointer of the AST is set. -/
structure Code.NoNil (code : Code F) : Prop where
  assumptions : ∀ a ∈ code.assumptions, ∃ x, a = some x ∧ x.condition.NoNil
  ifClauses : ∀ c ∈ code.ifClauses, ∃ x, c = some x ∧ x.NoNil

/-! ## The display of a state tree -/

/-- A tree of `gotree`, before it is printed. -/
inductive TextTree where
  | node (text : String) (items : List TextTree)

def Literal.text (formatFloat : F → String) (l : Literal F) : Res F String :=
  match l.string with
  | some s => .ok s
  | none => l.number.elim (.panic nilDeref) fun n => .ok (formatFloat n)

def Object.text (o : Object) : Res F String := do
  let names ← o.fields.mapM fun f => f.elim (.panic nilDeref) fun f => .ok ("." ++ f.name)
  return o.role ++ String.join names

def Condition.text (formatFloat : F → String) (d : Condition F) : Res F String := do
  let object ← d.object.text
  let value ← d.value.text formatFloat
  return "[Condition] " ++ object ++ " " ++ d.op ++ " " ++ value

def Action.text (formatFloat : F → String) (a : Action F) : Res F String := do
  let params ← a.params.mapM fun p => p.elim (.panic nilDeref) (Literal.text formatFloat)
  return "[Action] " ++ a.role ++ " " ++ a.action ++ " (" ++ String.join (params.map (" " ++ ·)) ++ " )"

/-- One line: the id, the text and the mark of a node. -/
def StateNode.line (n : StateNode) (text : String) : Res F TextTree :=
  match n with
  | .nil => .panic nilDeref
  | .node id _ _ executed _ =>
    .ok (.node (toString id.toInt ++ ": " ++ text ++ " [" ++ (if executed then "√" else "x") ++ "]") [])

def displayAssumptions (formatFloat : F → String) (state : StateNode) (i : Nat) :
    List (Option (Assumption F)) → Res F (List TextTree)
  | [] => .ok []
  | assumption :: rest => do
    let n ← state.child i
    let assumption ← assumption.elim (.panic nilDeref) .ok
    let text ← assumption.condition.text formatFloat
    let line ← n.line text
    let lines ← displayAssumptions formatFloat state (i + 1) rest
    return line :: lines

def displayActions (formatFloat : F → String) (ifState : StateNode) (j : Nat) :
    List (Option (Action F)) → Res F (List TextTree)
  | [] => .ok []
  | action :: rest => do
    let n ← ifState.child (j + 1)
    let action ← action.elim (.panic nilDeref) .ok
    let text ← action.text formatFloat
    let line ← n.line text
    let lines ← displayActions formatFloat ifState (j + 1) rest
    return line :: lines

def displayIfClauses (formatFloat : F → String) (state : StateNode) (numberOfAssumptions i : Nat) :
    List (Option (IfClause F)) → Res F (List TextTree)
  | [] => .ok []
  | clause :: rest => do
    let ifState ← state.child (numberOfAssumptions + i)
    let condition ← ifState.child 0
    let clause ← clause.elim (.panic nilDeref) .ok
    let text ← clause.condition.text formatFloat
    let line ← condition.line text
    let lines ← displayActions formatFloat ifState 0 clause.actions
    let others ← displayIfClauses formatFloat state numberOfAssumptions (i + 1) rest
    return .node "If Clause" (line :: lines) :: others

/-- `DisplayStateAST`, with the formatting of a `float64` for a parameter. -/
def displayStateAST (formatFloat : F → String) (ast : Code F) (state : StateNode) : Res F TextTree := do
  let assumptions ← displayAssumptions formatFloat state 0 ast.assumptions
  let clauses ← displayIfClauses formatFloat state ast.assumptions.length 0 ast.ifClauses
  return .node "State" (.node "Assumption" assumptions :: clauses)

/-! ## Nodes in their places -/

section Places

variable {id : Int64} {type : String} {valid executed : Bool} {before after : List StateNode}

@[simp] theorem child_middle (n : StateNode) :
    ((StateNode.node id type valid executed (before ++ n :: after)).child before.length : Res F StateNode) = .ok n := by
  simp [StateNode.child]

theorem setChild_middle (n m : StateNode) :
    (StateNode.node id type valid executed (before ++ n :: after)).setChild before.length m =
      .node id type valid executed (before ++ m :: after) := by
  simp [StateNode.setChild]

theorem mark_middle (id' id'' : Int64) (type' type'' : String) (below rest : List StateNode) (holds : Bool) :
    ((StateNode.node id type valid executed (before ++
        .node id' type' false false (.node id'' type'' false false below :: rest) :: after)).mark before.length holds :
        Res F StateNode) =
      .ok (.node id type valid executed (before ++
        .node id' type' holds true (.node id'' type'' holds true below :: rest) :: after)) := by
  unfold StateNode.mark
  rw [child_middle]
  simp only [Outcome.ok_bind, StateNode.child, List.getElem?_cons_zero, Option.elim_some, StateNode.set,
    Bool.false_or, Outcome.pure_eq, setChild_middle]
  rfl

theorem markActions_middle (n : Int64) (ntype : String) (nvalid nexecuted : Bool) (condition : StateNode)
    (actions actions' : List StateNode)
    (hactions : (actions.mapM (StateNode.set false) : Res F (List StateNode)) = .ok actions') :
    ((StateNode.node id type valid executed (before ++
        .node n ntype nvalid nexecuted (condition :: actions) :: after)).markActions before.length :
        Res F StateNode) =
      .ok (.node id type valid executed (before ++
        .node n ntype nvalid nexecuted (condition :: actions') :: after)) := by
  unfold StateNode.markActions
  rw [child_middle]
  simp only [Outcome.ok_bind, List.drop_succ_cons, List.drop_zero, hactions, Outcome.pure_eq, setChild_middle,
    List.take_succ_cons, List.take_zero, List.singleton_append]

end Places

/-! ## The flags that an evaluation leaves -/

section Marked

variable (holds : Condition F → Bool)

def MarkedAssumption (a : Option (Assumption F)) (n : StateNode) : Prop :=
  ∃ x id id', a = some x ∧
    n = .node id "assumption" (holds x.condition) true [.node id' "condition" (holds x.condition) true []]

def MarkedClause (clause : Option (IfClause F)) (n : StateNode) : Prop :=
  ∃ x id id' actions, clause = some x ∧
    n = .node id "if" (holds x.condition) true (.node id' "condition" (holds x.condition) true [] :: actions) ∧
    List.Forall₂ (fun _ m => ∃ id'', m = .node id'' "action" false (holds x.condition) []) x.actions actions

/-- A node for each part of the program. Those of assumptions, clauses and conditions are executed, and
valid as their condition says; that of an action is executed when its clause holds. -/
def Marked (code : Code F) (tree : StateNode) : Prop :=
  ∃ assumptions clauses, tree = .node 0 "code" false false (assumptions ++ clauses) ∧
    List.Forall₂ (MarkedAssumption holds) code.assumptions assumptions ∧
    List.Forall₂ (MarkedClause holds) code.ifClauses clauses

end Marked

/-! ## Every line of the display has its node -/

section Display

variable (formatFloat : F → String)

theorem text_literal (l : Literal F) (h : l.NoNil) : ∃ t, l.text formatFloat = .ok t := by
  unfold Literal.text
  cases hs : l.string with
  | some s => exact ⟨s, rfl⟩
  | none =>
    rw [Literal.NoNil, hs] at h
    obtain ⟨n, hn⟩ := Option.isSome_iff_exists.mp (h.resolve_left (by simp))
    exact ⟨formatFloat n, by rw [hn]; rfl⟩

theorem text_condition (d : Condition F) (h : d.NoNil) : ∃ t, d.text formatFloat = .ok t := by
  obtain ⟨value, hvalue⟩ := text_literal formatFloat d.value h.value
  have hfields : (d.object.fields.mapM fun f => f.elim (.panic nilDeref) fun f => .ok ("." ++ f.name) :
      Res F (List String)).isOk := by
    rw [Outcome.isOk_mapM, List.all_eq_true]
    intro f hf
    obtain ⟨x, rfl⟩ := Option.ne_none_iff_exists'.mp (h.fields f hf)
    rfl
  obtain ⟨names, hnames⟩ := (Outcome.isOk_iff _).mp hfields
  refine ⟨"[Condition] " ++ (d.object.role ++ String.join names) ++ " " ++ d.op ++ " " ++ value, ?_⟩
  simp only [Condition.text, Object.text, hnames, hvalue, Outcome.ok_bind, Outcome.pure_eq]

theorem text_action (a : Action F) (h : a.NoNil) : ∃ t, a.text formatFloat = .ok t := by
  have hparams : (a.params.mapM fun p : Option (Literal F) =>
      p.elim (.panic nilDeref) (Literal.text formatFloat)).isOk := by
    rw [Outcome.isOk_mapM, List.all_eq_true]
    intro p hp
    obtain ⟨l, rfl, hl⟩ := h p hp
    obtain ⟨t, ht⟩ := text_literal formatFloat l hl
    rw [Option.elim_some, ht]
    rfl
  obtain ⟨params, hparams⟩ := (Outcome.isOk_iff _).mp hparams
  unfold Action.text
  rw [hparams]
  exact ⟨_, rfl⟩

theorem line_of_ne_nil (n : StateNode) (h : n ≠ .nil) (text : String) :
    ∃ l, (n.line text : Res F TextTree) = .ok l := by
  cases n with
  | nil => exact (h rfl).elim
  | node id type valid executed children => exact ⟨_, rfl⟩

variable (id : Int64) (type : String) (valid executed : Bool)

theorem displayAssumptions_ok (as : List (Option (Assumption F)))
    (has : ∀ a ∈ as, ∃ x, a = some x ∧ x.condition.NoNil) (before nodes after : List StateNode)
    (hnodes : List.Forall₂ (fun _ n => n ≠ .nil) as nodes) :
    ∃ lines, displayAssumptions formatFloat (.node id type valid executed (before ++ (nodes ++ after)))
      before.length as = .ok lines := by
  induction hnodes generalizing before with
  | nil => exact ⟨[], rfl⟩
  | @cons a n as nodes hn _ ih =>
    obtain ⟨x, rfl, hx⟩ := has a List.mem_cons_self
    obtain ⟨text, htext⟩ := text_condition formatFloat x.condition hx
    obtain ⟨line, hline⟩ := line_of_ne_nil (F := F) n hn text
    obtain ⟨lines, hlines⟩ := ih (fun a ha => has a (List.mem_cons_of_mem _ ha)) (before ++ [n])
    simp only [List.length_append, List.length_singleton, List.append_assoc, List.singleton_append] at hlines
    exact ⟨line :: lines, by simp only [displayAssumptions, List.cons_append, child_middle, Outcome.ok_bind,
      Option.elim_some, htext, hline, hlines, Outcome.pure_eq]⟩

theorem displayActions_ok (as : List (Option (Action F))) (has : ∀ a ∈ as, ∃ x, a = some x ∧ x.NoNil)
    (j : Nat) (before nodes : List StateNode) (hbefore : before.length = j + 1)
    (hnodes : List.Forall₂ (fun _ n => n ≠ .nil) as nodes) :
    ∃ lines, displayActions formatFloat (.node id type valid executed (before ++ nodes)) j as = .ok lines := by
  induction hnodes generalizing before j with
  | nil => exact ⟨[], rfl⟩
  | @cons a n as nodes hn _ ih =>
    obtain ⟨x, rfl, hx⟩ := has a List.mem_cons_self
    obtain ⟨text, htext⟩ := text_action formatFloat x hx
    obtain ⟨line, hline⟩ := line_of_ne_nil (F := F) n hn text
    obtain ⟨lines, hlines⟩ := ih (fun a ha => has a (List.mem_cons_of_mem _ ha)) (j + 1) (before ++ [n])
      (by simp [hbefore])
    rw [List.append_assoc, List.singleton_append, ← hbefore] at hlines
    exact ⟨line :: lines, by simp only [displayActions, ← hbefore, child_middle, Outcome.ok_bind,
      Option.elim_some, htext, hline, hlines, Outcome.pure_eq]⟩

/-- A clause has a node for its condition and one for each of its actions. -/
def FitsClause (clause : Option (IfClause F)) (n : StateNode) : Prop :=
  ∃ id type valid executed condition actions, n = .node id type valid executed (condition :: actions) ∧
    condition ≠ .nil ∧ List.Forall₂ (fun _ m => m ≠ .nil) (clause.elim [] (·.actions)) actions

theorem displayIfClauses_ok (n i : Nat) (cs : List (Option (IfClause F)))
    (hcs : ∀ clause ∈ cs, ∃ x, clause = some x ∧ x.NoNil) (before nodes : List StateNode)
    (hbefore : before.length = n + i) (hnodes : List.Forall₂ FitsClause cs nodes) :
    ∃ lines, displayIfClauses formatFloat (.node id type valid executed (before ++ nodes)) n i cs = .ok lines := by
  induction hnodes generalizing before i with
  | nil => exact ⟨[], rfl⟩
  | @cons clause node cs nodes hfits _ ih =>
    obtain ⟨x, rfl, hx⟩ := hcs clause List.mem_cons_self
    obtain ⟨id', type', valid', executed', condition, actions, rfl, hcondition, hactions⟩ := hfits
    obtain ⟨text, htext⟩ := text_condition formatFloat x.condition hx.condition
    obtain ⟨line, hline⟩ := line_of_ne_nil (F := F) condition hcondition text
    obtain ⟨items, hitems⟩ := displayActions_ok formatFloat id' type' valid' executed' x.actions hx.actions 0
      [condition] actions rfl hactions
    obtain ⟨lines, hlines⟩ := ih (i + 1) (fun a ha => hcs a (List.mem_cons_of_mem _ ha))
      (before ++ [.node id' type' valid' executed' (condition :: actions)]) (by simp [hbefore]; omega)
    rw [List.append_assoc, List.singleton_append] at hlines
    rw [List.singleton_append] at hitems
    have hchild : ((StateNode.node id' type' valid' executed' (condition :: actions)).child 0 : Res F StateNode) =
        .ok condition := rfl
    exact ⟨.node "If Clause" (line :: items) :: lines, by simp only [displayIfClauses, ← hbefore, child_middle,
      Outcome.ok_bind, hchild, Option.elim_some, htext, hline, hitems, hlines,
      Outcome.pure_eq]⟩

/-- The tree has a node for each part of the program. -/
def Fits (code : Code F) (tree : StateNode) : Prop :=
  ∃ id type valid executed assumptions clauses,
    tree = .node id type valid executed (assumptions ++ clauses) ∧
    List.Forall₂ (fun _ n => n ≠ .nil) code.assumptions assumptions ∧
    List.Forall₂ FitsClause code.ifClauses clauses

theorem displayStateAST_ok (code : Code F) (hcode : code.NoNil) (tree : StateNode) (h : Fits code tree) :
    (displayStateAST formatFloat code tree).isOk = true := by
  obtain ⟨id, type, valid, executed, assumptions, clauses, rfl, hassumptions, hclauses⟩ := h
  obtain ⟨lines, hlines⟩ := displayAssumptions_ok formatFloat id type valid executed code.assumptions
    hcode.assumptions [] assumptions clauses hassumptions
  obtain ⟨items, hitems⟩ := displayIfClauses_ok formatFloat id type valid executed code.assumptions.length 0
    code.ifClauses hcode.ifClauses assumptions clauses hassumptions.length_eq.symm hclauses
  rw [List.nil_append, List.length_nil] at hlines
  simp only [displayStateAST, hlines, hitems, Outcome.ok_bind, Outcome.pure_eq, Outcome.isOk_ok]

end Display

variable [Float64 F]

section Loops

variable (c : Contract F) (w : World F)

theorem validateAssumptionsLoop_marks (as : List (Option (Assumption F)))
    (has : ∀ a ∈ as, ∃ x, a = some x ∧ (c.validateCondition x.condition w).isOk) (id : Int64)
    (before after : List StateNode) (valid : Bool) :
    ∃ nodes, List.Forall₂ (MarkedAssumption (c.holds w)) as nodes ∧
      c.validateAssumptionsLoop w before.length
          (.node 0 "code" false false (before ++ ((assumptionNodes id as).1 ++ after))) valid as =
        .ok (valid && (as.filterMap fun a => a.map (·.condition)).all (c.holds w),
          .node 0 "code" false false (before ++ (nodes ++ after))) := by
  induction as generalizing id before valid with
  | nil => exact ⟨[], .nil, by simp [Contract.validateAssumptionsLoop, assumptionNodes]⟩
  | cons a as ih =>
    obtain ⟨x, rfl, hx⟩ := has a List.mem_cons_self
    obtain ⟨holds, hx⟩ := (Outcome.isOk_iff _).mp hx
    have hholds : c.holds w x.condition = holds := by simp [Contract.holds, hx, Outcome.any]
    obtain ⟨nodes, hnodes, hloop⟩ := ih (fun a ha => has a (List.mem_cons_of_mem _ ha)) (id + 2)
      (before ++ [.node id "assumption" holds true [.node (id + 1) "condition" holds true []]]) (valid && holds)
    refine ⟨_ :: nodes, .cons ⟨x, id, id + 1, rfl, rfl⟩ hnodes, ?_⟩
    simp only [List.length_append, List.length_singleton, List.append_assoc, List.singleton_append] at hloop
    simp only [Contract.validateAssumptionsLoop, assumptionNodes, hx, Outcome.ok_bind, List.cons_append,
      mark_middle, hloop, List.filterMap_cons, Option.map_some, List.all_cons, hholds, Bool.and_assoc]

omit [Float64 F] in
theorem mapM_set_actionNodes (as : List (Option (Action F))) (id : Int64) :
    ∃ nodes, ((actionNodes id as).1.mapM (StateNode.set false) : Res F (List StateNode)) = .ok nodes ∧
      List.Forall₂ (fun _ m => ∃ id'', m = .node id'' "action" false true []) as nodes := by
  induction as generalizing id with
  | nil => exact ⟨[], rfl, .nil⟩
  | cons a as ih =>
    obtain ⟨nodes, hset, hnodes⟩ := ih (id + 1)
    refine ⟨.node id "action" false true [] :: nodes, ?_, .cons ⟨id, rfl⟩ hnodes⟩
    simp only [actionNodes, List.mapM_cons, hset]
    rfl

omit [Float64 F] in
theorem actionNodes_fresh (as : List (Option (Action F))) (id : Int64) :
    List.Forall₂ (fun _ m => ∃ id'', m = .node id'' "action" false false []) as (actionNodes id as).1 := by
  induction as generalizing id with
  | nil => exact .nil
  | cons a as ih => exact .cons ⟨id, rfl⟩ (ih (id + 1))

theorem collectActionsLoop_marks (n i : Nat) (cs : List (Option (IfClause F)))
    (hcs : ∀ clause ∈ cs, ∃ x, clause = some x ∧ (c.validateCondition x.condition w).isOk ∧
      ∀ a ∈ x.actions, a ≠ none) (first : Int64) (before : List StateNode) (hbefore : before.length = i + n)
    (collected : List (Action F)) :
    ∃ nodes, List.Forall₂ (MarkedClause (c.holds w)) cs nodes ∧
      c.collectActionsLoop w n i (.node 0 "code" false false (before ++ (ifClauseNodes first cs).1)) collected cs =
        .ok (collected ++ c.chosen w cs, .node 0 "code" false false (before ++ nodes)) := by
  induction cs generalizing first before i collected with
  | nil => exact ⟨[], .nil, by simp [Contract.collectActionsLoop, ifClauseNodes, Contract.chosen]⟩
  | cons clause cs ih =>
    obtain ⟨x, rfl, hx, hactions⟩ := hcs clause List.mem_cons_self
    obtain ⟨holds, hx⟩ := (Outcome.isOk_iff _).mp hx
    have hholds : c.holds w x.condition = holds := by simp [Contract.holds, hx, Outcome.any]
    have hchosen : c.chosen w (some x :: cs) = (if holds then x.actions.filterMap id else []) ++ c.chosen w cs := by
      simp [Contract.chosen, hholds]
    -- what the rest of the loop does once this clause has its node
    have hrest := fun node collected => ih (i + 1) (fun clause h => hcs clause (List.mem_cons_of_mem _ h))
      (actionNodes (first + 2) x.actions).2 (before ++ [node]) (by simp [hbefore]; omega) collected
    simp only [List.append_assoc, List.singleton_append] at hrest
    simp only [Contract.collectActionsLoop, ifClauseNodes, hx, Outcome.ok_bind, ← hbefore, mark_middle,
      Option.elim_some, hchosen]
    cases holds with
    | false =>
      obtain ⟨nodes, hnodes, hloop⟩ := hrest (.node first "if" false true
        (.node (first + 1) "condition" false true [] :: (actionNodes (first + 2) x.actions).1)) collected
      refine ⟨_ :: nodes, .cons ⟨x, first, first + 1, (actionNodes (first + 2) x.actions).1, rfl,
        by rw [hholds], ?_⟩ hnodes, ?_⟩
      · rw [hholds]
        exact actionNodes_fresh x.actions (first + 2)
      · simp only [Bool.false_eq_true, if_false, hloop, List.nil_append]
    | true =>
      obtain ⟨actions, hset, hactionNodes⟩ := mapM_set_actionNodes x.actions (first + 2)
      obtain ⟨nodes, hnodes, hloop⟩ := hrest (.node first "if" true true
        (.node (first + 1) "condition" true true [] :: actions)) (collected ++ x.actions.filterMap id)
      refine ⟨_ :: nodes, .cons ⟨x, first, first + 1, actions, rfl, by rw [hholds], ?_⟩ hnodes, ?_⟩
      · rw [hholds]
        exact hactionNodes
      · simp only [if_true, markActions_middle _ _ _ _ _ _ _ hset, Outcome.ok_bind,
          derefActions_some _ hactions, hloop, List.append_assoc]

end Loops

/-! ## Trees that fit -/

omit [Float64 F] in
theorem assumptionNodes_fit (as : List (Option (Assumption F))) (id : Int64) :
    List.Forall₂ (fun _ n => n ≠ .nil) as (assumptionNodes id as).1 := by
  induction as generalizing id with
  | nil => exact .nil
  | cons a as ih => exact .cons (by simp) (ih (id + 2))

omit [Float64 F] in
theorem ifClauseNodes_fit (cs : List (Option (IfClause F))) (id : Int64) :
    List.Forall₂ FitsClause cs (ifClauseNodes id cs).1 := by
  induction cs generalizing id with
  | nil => exact .nil
  | cons clause cs ih =>
    refine .cons ⟨id, "if", false, false, _, _, rfl, by simp, ?_⟩ (ih _)
    refine (actionNodes_fresh _ (id + 2)).imp ?_
    rintro a m ⟨id'', rfl⟩
    simp

omit [Float64 F] in
theorem MarkedAssumption.fits {holds : Condition F → Bool} {a : Option (Assumption F)} {n : StateNode}
    (h : MarkedAssumption holds a n) : n ≠ .nil := by
  obtain ⟨x, id, id', -, rfl⟩ := h
  simp

omit [Float64 F] in
theorem MarkedClause.fits {holds : Condition F → Bool} {clause : Option (IfClause F)} {n : StateNode}
    (h : MarkedClause holds clause n) : FitsClause clause n := by
  obtain ⟨x, id, id', actions, rfl, rfl, hactions⟩ := h
  refine ⟨id, "if", _, true, _, actions, rfl, by simp, hactions.imp ?_⟩
  rintro a m ⟨id'', rfl⟩
  simp

section Evaluation

variable {c : Contract F} {w : World F} (hcode : c.codeAst.NoNil)
  (hok : ∀ d ∈ c.codeAst.assumed ++ c.codeAst.guards, (c.validateCondition d w).isOk = true)
include hcode hok

theorem assumptions_ok :
    ∀ a ∈ c.codeAst.assumptions, ∃ x, a = some x ∧ (c.validateCondition x.condition w).isOk := by
  intro a ha
  obtain ⟨x, rfl, -⟩ := hcode.assumptions a ha
  refine ⟨x, rfl, hok _ (List.mem_append_left _ ?_)⟩
  exact List.mem_filterMap.mpr ⟨some x, ha, rfl⟩

theorem clauses_ok : ∀ clause ∈ c.codeAst.ifClauses, ∃ x, clause = some x ∧
    (c.validateCondition x.condition w).isOk ∧ ∀ a ∈ x.actions, a ≠ none := by
  intro clause hclause
  obtain ⟨x, rfl, hx⟩ := hcode.ifClauses clause hclause
  refine ⟨x, rfl, hok _ (List.mem_append_right _ ?_), ?_⟩
  · exact List.mem_filterMap.mpr ⟨some x, hclause, rfl⟩
  · rintro a ha rfl
    obtain ⟨y, hy, -⟩ := hx.actions none ha
    cases hy

/-- The clause nodes are fresh, whatever has been marked before them. -/
theorem collectActions_marks (before : List StateNode) (hbefore : before.length = c.codeAst.assumptions.length)
    (first : Int64) :
    ∃ nodes, List.Forall₂ (MarkedClause (c.holds w)) c.codeAst.ifClauses nodes ∧
      Contract.collectActions { c with
          stateTree := .node 0 "code" false false (before ++ (ifClauseNodes first c.codeAst.ifClauses).1) } w =
        .ok (c.chosen w c.codeAst.ifClauses, { c with stateTree := .node 0 "code" false false (before ++ nodes) }) := by
  obtain ⟨nodes, hnodes, hloop⟩ := collectActionsLoop_marks
    { c with stateTree := .node 0 "code" false false (before ++ (ifClauseNodes first c.codeAst.ifClauses).1) } w
    c.codeAst.assumptions.length 0 c.codeAst.ifClauses (clauses_ok hcode hok) first before
    (by rw [hbefore, Nat.zero_add]) []
  refine ⟨nodes, hnodes, ?_⟩
  unfold Contract.collectActions
  simp only [hloop, Outcome.ok_bind, Outcome.pure_eq, List.nil_append]
  rfl

end Evaluation

/-- Evaluating a new contract on a world state where each of its conditions has a value. No index
is out of range, the assumptions are valid when all their conditions hold, the actions are those of
the clauses that hold, and every node is marked as its condition says. -/
theorem contract_evaluation (formatFloat : F → String) (c : Contract F) (w : World F)
    (hnew : ∃ contractId contractName plainCode proposer acceptor,
      c = newContract contractId contractName plainCode c.codeAst proposer acceptor)
    (hcode : c.codeAst.NoNil)
    (hok : ∀ d ∈ c.codeAst.assumed ++ c.codeAst.guards, (c.validateCondition d w).isOk = true) :
    ∃ c₁ c₂ c₃, c.validateAssumptions w = .ok (decide (∀ d ∈ c.codeAst.assumed, c.holds w d = true), c₁) ∧
      c₁.collectActions w = .ok (c.chosen w c.codeAst.ifClauses, c₂) ∧
      Marked (c.holds w) c.codeAst c₂.stateTree ∧
      c.collectActions w = .ok (c.chosen w c.codeAst.ifClauses, c₃) ∧
      ∀ tree ∈ [c.stateTree, c₁.stateTree, c₂.stateTree, c₃.stateTree],
        (displayStateAST formatFloat c.codeAst tree).isOk = true := by
  have hfresh : c.stateTree = constructStateTree c.codeAst := by
    obtain ⟨_, _, _, _, _, hc⟩ := hnew
    rw [hc]
    rfl
  have htree : c.stateTree = .node 0 "code" false false ((assumptionNodes 1 c.codeAst.assumptions).1 ++
      (ifClauseNodes (assumptionNodes 1 c.codeAst.assumptions).2 c.codeAst.ifClauses).1) := hfresh
  generalize (assumptionNodes 1 c.codeAst.assumptions).2 = first at htree
  obtain ⟨nodes, hnodes, hloop⟩ := validateAssumptionsLoop_marks c w c.codeAst.assumptions
    (assumptions_ok hcode hok) 1 [] (ifClauseNodes first c.codeAst.ifClauses).1 true
  obtain ⟨marked, hmarked, hcollect⟩ := collectActions_marks hcode hok nodes hnodes.length_eq.symm first
  obtain ⟨marked', hmarked', hcollect'⟩ := collectActions_marks hcode hok
    (assumptionNodes 1 c.codeAst.assumptions).1 (assumptionNodes_covers c.codeAst.assumptions 1).1 first
  rw [← htree] at hcollect'
  refine ⟨_, _, _, ?_, hcollect, ⟨nodes, marked, rfl, hnodes, hmarked⟩, hcollect', ?_⟩
  · unfold Contract.validateAssumptions
    rw [htree]
    simp only [List.nil_append, List.length_nil] at hloop
    simp only [hloop, Outcome.ok_bind, Outcome.pure_eq, Bool.true_and]
    have hall : decide (∀ d ∈ c.codeAst.assumed, c.holds w d = true) = c.codeAst.assumed.all (c.holds w) := by
      rw [Bool.eq_iff_iff, decide_eq_true_iff, List.all_eq_true]
    rw [hall]
    rfl
  · have hfit := assumptionNodes_fit c.codeAst.assumptions 1
    have hfit' := ifClauseNodes_fit c.codeAst.ifClauses first
    have hnodes' := hnodes.imp fun _ _ => MarkedAssumption.fits
    simp only [List.mem_cons, List.not_mem_nil, or_false, forall_eq_or_imp, forall_eq]
    refine ⟨?_, ?_, ?_, ?_⟩ <;> apply displayStateAST_ok formatFloat c.codeAst hcode
    · rw [htree]
      exact ⟨0, "code", false, false, _, _, rfl, hfit, hfit'⟩
    · exact ⟨0, "code", false, false, _, _, rfl, hnodes', hfit'⟩
    · exact ⟨0, "code", false, false, _, _, rfl, hnodes', hmarked.imp fun _ _ => MarkedClause.fits⟩
    · exact ⟨0, "code", false, false, _, _, rfl, hfit, hmarked'.imp fun _ _ => MarkedClause.fits⟩

def sampleCondition (op : String) : Condition Int := ⟨⟨"buyer", [some ⟨"balance"⟩]⟩, op, ⟨none, some 5⟩⟩

/-- One assumption, and two clauses of which the second holds on a buyer with seven coins. -/
def sampleCode : Code Int where
  assumptions := [some ⟨sampleCondition ">"⟩]
  ifClauses := [some ⟨sampleCondition "<", [some ⟨"buyer", "transfer", [some ⟨none, some 1⟩]⟩]⟩,
    some ⟨sampleCondition ">=", [some ⟨"buyer", "transfer", [some ⟨none, some 2⟩]⟩]⟩]

def sampleBuyerWorld : World Int := SimpleKV.put .new "b" (.account ⟨0, 7, .new, ""⟩)

theorem sampleCode_evaluation :
    ∃ c₁ c₂, (newContract "0" "sample" "" sampleCode "b" "s").validateAssumptions sampleBuyerWorld = .ok (true, c₁) ∧
      c₁.collectActions sampleBuyerWorld = .ok ([⟨"buyer", "transfer", [some ⟨none, some 2⟩]⟩], c₂) := by
  have hcondition : ∀ op, (sampleCondition op).NoNil := fun op => ⟨by simp [sampleCondition], Or.inr rfl⟩
  have haction : ∀ n : Int, Action.NoNil (⟨"buyer", "transfer", [some ⟨none, some n⟩]⟩ : Action Int) := by
    intro n p hp
    rw [List.mem_singleton] at hp
    exact ⟨_, hp, Or.inr rfl⟩
  have hcode : sampleCode.NoNil := by
    refine ⟨?_, ?_⟩
    · simp [sampleCode, hcondition]
    · intro clause hclause
      simp only [sampleCode, List.mem_cons, List.not_mem_nil, or_false] at hclause
      rcases hclause with rfl | rfl
      · exact ⟨_, rfl, hcondition _, by simp [haction]⟩
      · exact ⟨_, rfl, hcondition _, by simp [haction]⟩
  obtain ⟨c₁, c₂, -, hvalid, hcollect, -⟩ := contract_evaluation (fun n => toString n)
    (newContract "0" "sample" "" sampleCode "b" "s") sampleBuyerWorld ⟨_, _, _, _, _, rfl⟩ hcode
    (List.all_eq_true.mp (by decide))
  exact ⟨c₁, c₂, hvalid, hcollect⟩

end MarketPeer.Contracts

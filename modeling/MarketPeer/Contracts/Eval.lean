import MarketPeer.Ledger.State

/-!
# Evaluating a contract

`ValidateCondition`, `ValidateAssumptions` and `CollectActions` of
`contract/impl`. The last two also mark the state tree, so they return the tree
next to their result. None of them writes to the world state.
-/

namespace MarketPeer.Contracts

open MarketPeer.Ledger

variable {F : Type} [Float64 F]

/-! ## Conditions -/

def compareString (left right op : String) : Res F Bool :=
  if op = "==" then .ok (left = right)
  else if op = "!=" then .ok (left ≠ right)
  else .err (.errorf "comparator not supported on string: %v" [.str op])

def compareNumber (left right : F) (op : String) : Res F Bool :=
  if op = ">" then .ok (Float64.lt right left)
  else if op = "<" then .ok (Float64.lt left right)
  else if op = ">=" then .ok (Float64.le right left)
  else if op = "<=" then .ok (Float64.le left right)
  else if op = "==" then .ok (Float64.eq left right)
  else if op = "!=" then .ok (!Float64.eq left right)
  else .err (.errorf "comparator not supported on number: %v" [.str op])

/-- The account a condition is about. Any other role leaves the string empty. -/
def Contract.targetAccount (c : Contract F) (role : String) : String :=
  if role = "buyer" then c.proposerAccount
  else if role = "seller" then c.acceptorAccount
  else ""

/-- The name of the only field. No field at all is an index out of range. -/
def attributeOf (fields : List (Option Field)) : Res F String :=
  if fields.length > 1 then
    .err (.errorf "Condition field unknown, assumed only one attribute." [])
  else
    match fields with
    | [] => .panic outOfRange
    | none :: _ => .panic nilDeref
    | some field :: _ => .ok field.name

/-- The left value. `reflect.TypeOf(nil).String()` runs before the error of `Get` is looked at,
so a missing key is a panic, and so is a stored nil. -/
def leftValue (s : State F) (name : String) : Res F (Value F) :=
  if name = "balance" then .ok (.float (Float64.ofUint s.balance))
  else
    match s.storageRoot.get? name with
    | none => .panic nilDeref
    | some .null => .panic nilDeref
    | some (.int i) => .ok (.float (Float64.ofInt i))
    | some v => .ok v

def rightValue (val : Literal F) : Res F (Value F) :=
  match val.string with
  | some s => .ok (.str s)
  | none => val.number.elim (.panic nilDeref) fun n => .ok (.float n)

def compareValues (left right : Value F) (op : String) : Res F Bool :=
  match left, right with
  | .str l, .str r => compareString l r op
  | .float l, .float r => compareNumber l r op
  | _, _ => .err (.errorf "type of the values are not paired: %v %v" [.value left, .value right])

def Contract.validateCondition (c : Contract F) (condition : Condition F) (w : World F) :
    Res F Bool := do
  let name ← attributeOf condition.object.fields
  match w.get? (c.targetAccount condition.object.role) with
  | none => .panic Sentinel.keyNotFound.text
  | some (.other _) => .err (.errorf "account state is corrupted: %v" [])
  | some (.account s) => do
    let left ← leftValue s name
    let right ← rightValue condition.value
    compareValues left right condition.op

/-! ## The state tree -/

namespace StateNode

def set (valid : Bool) : StateNode → Res F StateNode
  | .nil => .panic nilDeref
  | .node id type v _ children => .ok (.node id type (v || valid) true children)

def child (n : StateNode) (i : Nat) : Res F StateNode :=
  match n with
  | .nil => .panic nilDeref
  | .node _ _ _ _ children => children[i]?.elim (.panic outOfRange) .ok

def setChild (n : StateNode) (i : Nat) (c : StateNode) : StateNode :=
  match n with
  | .nil => .nil
  | .node id type valid executed children => .node id type valid executed (children.set i c)

/-- `SetExecuted`, and `SetValid` when the condition holds, on child `i` and on its condition. -/
def mark (tree : StateNode) (i : Nat) (holds : Bool) : Res F StateNode := do
  let n ← tree.child i
  let condition ← n.child 0
  let n ← n.set holds
  let condition ← condition.set holds
  return tree.setChild i (n.setChild 0 condition)

def markActions (tree : StateNode) (i : Nat) : Res F StateNode := do
  let n ← tree.child i
  match n with
  | .nil => .panic nilDeref
  | .node id type valid executed children =>
    let actions ← (children.drop 1).mapM (set false)
    return tree.setChild i (.node id type valid executed (children.take 1 ++ actions))

end StateNode

/-! ## Assumptions and clauses -/

def Contract.validateAssumptionsLoop (c : Contract F) (w : World F) (i : Nat) (tree : StateNode)
    (assumptionsValid : Bool) : List (Option (Assumption F)) → Res F (Bool × StateNode)
  | [] => .ok (assumptionsValid, tree)
  | none :: _ => .panic nilDeref
  | some assumption :: rest => do
    let holds ← c.validateCondition assumption.condition w
    let tree ← tree.mark i holds
    c.validateAssumptionsLoop w (i + 1) tree (assumptionsValid && holds) rest

def Contract.validateAssumptions (c : Contract F) (w : World F) : Res F (Bool × Contract F) := do
  let (valid, tree) ← c.validateAssumptionsLoop w 0 c.stateTree true c.codeAst.assumptions
  return (valid, { c with stateTree := tree })

def derefActions (actions : List (Option (Action F))) : Res F (List (Action F)) :=
  actions.mapM fun a => a.elim (.panic nilDeref) .ok

/-- The loop of `CollectActions` from clause `i` on; the clause nodes follow the `n` assumptions. -/
def Contract.collectActionsLoop (c : Contract F) (w : World F) (n i : Nat) (tree : StateNode)
    (collected : List (Action F)) : List (Option (IfClause F)) → Res F (List (Action F) × StateNode)
  | [] => .ok (collected, tree)
  | none :: _ => .panic nilDeref
  | some clause :: rest => do
    let holds ← c.validateCondition clause.condition w
    let tree ← tree.mark (i + n) holds
    if holds then
      let tree ← tree.markActions (i + n)
      let actions ← derefActions clause.actions
      c.collectActionsLoop w n (i + 1) tree (collected ++ actions) rest
    else
      c.collectActionsLoop w n (i + 1) tree collected rest

def Contract.collectActions (c : Contract F) (w : World F) :
    Res F (List (Action F) × Contract F) := do
  let n := c.codeAst.assumptions.length
  let (actions, tree) ← c.collectActionsLoop w n 0 c.stateTree [] c.codeAst.ifClauses
  return (actions, { c with stateTree := tree })

end MarketPeer.Contracts

import MarketPeer.Go.Value

/-!
# Contracts as stored

The AST of `contract/parser`, the state tree and the instance of
`contract/impl`. An instance is decoded from the code of an account, which is
any text its creator sent: a pointer can be nil, so pointers are options here,
and a list can have any length.
-/

namespace MarketPeer.Contracts

/-- A literal: `String` is set, or `Number`, or (in decoded code) neither. -/
structure Literal (F : Type) where
  string : Option String
  number : Option F

structure Field where
  name : String

structure Object where
  role : String
  fields : List (Option Field)

structure Condition (F : Type) where
  object : Object
  op : String
  value : Literal F

structure Assumption (F : Type) where
  condition : Condition F

structure Action (F : Type) where
  role : String
  action : String
  params : List (Option (Literal F))

structure IfClause (F : Type) where
  condition : Condition F
  actions : List (Option (Action F))

structure Code (F : Type) where
  assumptions : List (Option (Assumption F))
  ifClauses : List (Option (IfClause F))

inductive StateNode where
  | nil
  | node (nodeId : Int64) (type : String) (valid executed : Bool) (children : List StateNode)

structure Contract (F : Type) where
  contractId : String
  contractName : String
  codeAst : Code F
  codePlain : String
  stateTree : StateNode
  proposerAccount : String
  acceptorAccount : String

/-! ## The state tree of a program -/

def assumptionNodes {F : Type} (id : Int64) : List (Option (Assumption F)) → List StateNode × Int64
  | [] => ([], id)
  | _ :: rest =>
    let (nodes, last) := assumptionNodes (id + 2) rest
    (.node id "assumption" false false [.node (id + 1) "condition" false false []] :: nodes, last)

def actionNodes {F : Type} (id : Int64) : List (Option (Action F)) → List StateNode × Int64
  | [] => ([], id)
  | _ :: rest =>
    let (nodes, last) := actionNodes (id + 1) rest
    (.node id "action" false false [] :: nodes, last)

/-- If clauses: a condition, then one node for each action. A parsed clause is never nil. -/
def ifClauseNodes {F : Type} (id : Int64) : List (Option (IfClause F)) → List StateNode × Int64
  | [] => ([], id)
  | clause :: rest =>
    let (actions, next) := actionNodes (id + 2) (clause.elim [] (·.actions))
    let (nodes, last) := ifClauseNodes next rest
    (.node id "if" false false (.node (id + 1) "condition" false false [] :: actions) :: nodes, last)

def constructStateTree {F : Type} (code : Code F) : StateNode :=
  let (assumptions, next) := assumptionNodes 1 code.assumptions
  let (clauses, _) := ifClauseNodes next code.ifClauses
  .node 0 "code" false false (assumptions ++ clauses)

/-- `NewContract`, given what `parser.Parse` returned for the plain code. -/
def newContract {F : Type} (contractId contractName plainCode : String) (code : Code F)
    (proposerAccount acceptorAccount : String) : Contract F where
  contractId
  contractName
  codeAst := code
  codePlain := plainCode
  stateTree := constructStateTree code
  proposerAccount
  acceptorAccount

end MarketPeer.Contracts

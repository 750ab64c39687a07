import MarketPeer.Contracts.Syntax
import MarketPeer.Go.Encoding

/-!
# Contracts as text

`Contract.Marshal`: the text that a creation transaction carries and that the
contract account keeps as its code. `none` when a number has no JSON.
-/

namespace MarketPeer.Contracts

variable {F α : Type} [Float64 F]

/-- A pointer: nil is `null`. -/
def jsonPtr (json : α → Option String) (p : Option α) : Option String := p.elim (some "null") json

/-- A slice. The parser leaves an empty one nil. -/
def jsonSlice (json : α → Option String) (l : List α) : Option String :=
  if l.isEmpty then some "null" else (l.mapM json).map jsonArray

def Literal.json (l : Literal F) : Option String := do
  let s ← jsonPtr (fun s => some (jsonString s)) l.string
  let n ← jsonPtr Float64.json l.number
  return jsonObject [("String", s), ("Number", n)]

def Object.json (o : Object) : Option String := do
  let fields ← jsonSlice (jsonPtr fun f : Field => some (jsonObject [("Name", jsonString f.name)])) o.fields
  return jsonObject [("Role", jsonString o.role), ("Fields", fields)]

def Condition.json (c : Condition F) : Option String := do
  let object ← c.object.json
  let value ← c.value.json
  return jsonObject [("Object", object), ("Op", jsonString c.op), ("Value", value)]

def Assumption.json (a : Assumption F) : Option String := do
  let condition ← a.condition.json
  return jsonObject [("Condition", condition)]

def Action.json (a : Action F) : Option String := do
  let params ← jsonSlice (jsonPtr Literal.json) a.params
  return jsonObject [("Role", jsonString a.role), ("Action", jsonString a.action), ("Params", params)]

def IfClause.json (c : IfClause F) : Option String := do
  let condition ← c.condition.json
  let actions ← jsonSlice (jsonPtr Action.json) c.actions
  return jsonObject [("Condition", condition), ("Actions", actions)]

def Code.json (c : Code F) : Option String := do
  let assumptions ← jsonSlice (jsonPtr Assumption.json) c.assumptions
  let ifClauses ← jsonSlice (jsonPtr IfClause.json) c.ifClauses
  return jsonObject [("Assumptions", assumptions), ("IfClauses", ifClauses)]

def jsonBool (b : Bool) : String := if b then "true" else "false"

mutual

def StateNode.json : StateNode → String
  | .nil => "null"
  | .node nodeId type valid executed children =>
    jsonObject [("NodeId", jsonInt nodeId), ("Type", jsonString type), ("Valid", jsonBool valid),
      ("Executed", jsonBool executed), ("Children", jsonArray (StateNode.jsonList children))]

def StateNode.jsonList : List StateNode → List String
  | [] => []
  | n :: rest => n.json :: StateNode.jsonList rest

end

/-- `Marshal`. The embedded interface of the struct is nil. -/
def Contract.marshal (c : Contract F) : Option String := do
  let code ← c.codeAst.json
  return jsonObject [("SmartContract", "null"), ("Contract_id", jsonString c.contractId),
    ("Contract_name", jsonString c.contractName), ("Code_ast", code),
    ("Code_plain", jsonString c.codePlain), ("State_tree", c.stateTree.json),
    ("Proposer_account", jsonString c.proposerAccount), ("Acceptor_account", jsonString c.acceptorAccount)]

end MarketPeer.Contracts

import MarketPeer.Contracts.Grammar

/-!
# The conditions that an evaluation comes to

`ValidateAssumptions` and `CollectActions` evaluate the conditions of a program in
order and stop at the first that returns an error or panics. The state tree never
stands in their way.
-/

namespace MarketPeer.Contracts

open MarketPeer.Ledger

variable {F : Type}

theorem not_panics_rightValue (l : Literal F) (h : l.Parsed) : ¬ (rightValue l).Panics := by
  unfold rightValue
  rcases h with ⟨hs, -⟩ | ⟨hs, hn⟩
  · obtain ⟨s, hs⟩ := Option.isSome_iff_exists.mp hs
    simp [hs]
  · obtain ⟨n, hn⟩ := Option.isSome_iff_exists.mp hn
    simp [hs, hn]

/-- The conditions of the assumptions, and those of the clauses. -/
def Code.assumed (code : Code F) : List (Condition F) :=
  code.assumptions.filterMap fun a => a.map (·.condition)

def Code.guards (code : Code F) : List (Condition F) :=
  code.ifClauses.filterMap fun c => c.map (·.condition)

section Parsed

variable {code : Code F} (hcode : code.Parsed)
include hcode

theorem assumed_parsed : ∀ d ∈ code.assumed, d.Parsed := by
  intro d hd
  unfold Code.assumed at hd
  obtain ⟨a, ha, hd⟩ := List.mem_filterMap.mp hd
  obtain ⟨x, rfl, hx⟩ := hcode.assumptions a ha
  rw [← Option.some.inj hd]
  exact hx

theorem guards_parsed : ∀ d ∈ code.guards, d.Parsed := by
  intro d hd
  unfold Code.guards at hd
  obtain ⟨a, ha, hd⟩ := List.mem_filterMap.mp hd
  obtain ⟨x, rfl, hx⟩ := hcode.ifClauses a ha
  rw [← Option.some.inj hd]
  exact hx.condition

end Parsed

/-- Both accounts of a contract are in the world state. -/
structure Contract.PartiesIn (c : Contract F) (w : World F) : Prop where
  proposer : (w.account? c.proposerAccount).isSome
  acceptor : (w.account? c.acceptorAccount).isSome

theorem Contract.PartiesIn.target {c : Contract F} {w : World F} (h : c.PartiesIn w) {role : String}
    (hrole : IsRole role) : ∃ s, w.account? (c.targetAccount role) = some s := by
  rcases hrole with rfl | rfl
  · exact Option.isSome_iff_exists.mp h.proposer
  · exact Option.isSome_iff_exists.mp h.acceptor

/-- A condition can be evaluated without a panic: it has a field, and when this is the only one,
`balance` or a key with a value in the storage of its account. -/
def Contract.SafeAt (c : Contract F) (w : World F) (d : Condition F) : Prop :=
  d.object.fields ≠ [] ∧ ∀ f s, d.object.fields = [some f] →
    w.account? (c.targetAccount d.object.role) = some s →
    f.name = "balance" ∨ ∃ v, s.storageRoot.get? f.name = some v ∧ v ≠ .null

theorem derefActions_some (as : List (Option (Action F))) (h : ∀ a ∈ as, a ≠ none) :
    derefActions as = .ok (as.filterMap id) := by
  unfold derefActions
  induction as with
  | nil => rfl
  | cons a as ih =>
    cases a with
    | none => exact (h none List.mem_cons_self rfl).elim
    | some x =>
      rw [List.mapM_cons, ih fun a ha => h a (List.mem_cons_of_mem _ ha)]
      rfl

variable [Float64 F]

theorem panics_leftValue (s : State F) (name : String) :
    (leftValue s name).Panics ↔ ¬ (name = "balance" ∨ ∃ v, s.storageRoot.get? name = some v ∧ v ≠ .null) := by
  unfold leftValue
  by_cases hbalance : name = "balance"
  · simp [hbalance]
  · cases hv : s.storageRoot.get? name with
    | none => simp [hbalance]
    | some v => cases v <;> simp [hbalance]

theorem not_panics_compareValues (left right : Value F) (op : String) : ¬ (compareValues left right op).Panics := by
  unfold compareValues
  split
  · unfold compareString
    split_ifs <;> simp
  · unfold compareNumber
    split_ifs <;> simp
  · simp

theorem panics_validateCondition {c : Contract F} {w : World F} (hparties : c.PartiesIn w)
    {d : Condition F} (hd : d.Parsed) : (c.validateCondition d w).Panics ↔ ¬ c.SafeAt w d := by
  obtain ⟨s, hs⟩ := hparties.target hd.role
  have hget := (World.account?_eq_some w _ s).mp hs
  unfold Contract.validateCondition Contract.SafeAt
  rw [Outcome.panics_bind, hget]
  cases hf : d.object.fields with
  | nil => simp [attributeOf]
  | cons f rest =>
    cases rest with
    | cons g rest => simp [attributeOf]
    | nil =>
      cases f with
      | none => exact (hd.fields none (by simp [hf]) rfl).elim
      | some f =>
        simp [attributeOf, Outcome.panics_bind, panics_leftValue, not_panics_rightValue d.value hd.value,
          not_panics_compareValues, hs]

/-! ## The two loops -/

def Contract.holds (c : Contract F) (w : World F) (d : Condition F) : Bool :=
  (c.validateCondition d w).any id

theorem isOk_of_holds {c : Contract F} {w : World F} {ds : List (Condition F)} (h : ds.all (c.holds w) = true) :
    (ds.mapM (c.validateCondition · w)).isOk = true := by
  rw [Outcome.isOk_mapM, List.all_eq_true]
  intro d hd
  have hd := List.all_eq_true.mp h d hd
  unfold Contract.holds at hd
  obtain ⟨b, hb, -⟩ := (Outcome.any_eq_true ..).mp hd
  rw [hb]
  rfl

/-- The actions of the clauses whose condition holds. -/
def Contract.chosen (c : Contract F) (w : World F) (clauses : List (Option (IfClause F))) : List (Action F) :=
  clauses.flatMap fun clause => clause.elim [] fun x => if c.holds w x.condition then x.actions.filterMap id else []

theorem mem_chosen {c : Contract F} {w : World F} {clauses : List (Option (IfClause F))} {a : Action F}
    (h : a ∈ c.chosen w clauses) : ∃ x, some x ∈ clauses ∧ some a ∈ x.actions := by
  unfold Contract.chosen at h
  obtain ⟨clause, hclause, ha⟩ := List.mem_flatMap.mp h
  cases clause with
  | none => cases ha
  | some x =>
    simp only [Option.elim_some] at ha
    split_ifs at ha
    · obtain ⟨y, hy, hya⟩ := List.mem_filterMap.mp ha
      rw [id_eq] at hya
      exact ⟨x, hclause, hya ▸ hy⟩
    · cases ha

/-- The loop evaluates the conditions one after the other, and marks the tree on the way. -/
theorem validateAssumptionsLoop_eq (c : Contract F) (w : World F) {k : Nat} (as : List (Option (Assumption F)))
    (has : ∀ a ∈ as, a ≠ none) (i : Nat) (hi : i + as.length ≤ k) (tree : StateNode) (htree : tree.Covers k)
    (valid : Bool) :
    ∃ tree', tree'.Covers k ∧ c.validateAssumptionsLoop w i tree valid as = (do
      let _ ← (as.filterMap fun a => a.map (·.condition)).mapM (c.validateCondition · w)
      return (valid && (as.filterMap fun a => a.map (·.condition)).all (c.holds w), tree')) := by
  induction as generalizing i tree valid with
  | nil => exact ⟨tree, htree, by simp [Contract.validateAssumptionsLoop]⟩
  | cons a as ih =>
    cases a with
    | none => exact (has none List.mem_cons_self rfl).elim
    | some x =>
      rw [List.length_cons] at hi
      simp only [Contract.validateAssumptionsLoop, List.filterMap_cons, Option.map_some, List.mapM_cons,
        List.all_cons, Contract.holds]
      cases hx : c.validateCondition x.condition w with
      | ok b =>
        obtain ⟨tree₁, hmark, hcovers⟩ := htree.mark (F := F) (i := i) (by omega) b
        obtain ⟨tree', htree', hloop⟩ := ih (fun a ha => has a (List.mem_cons_of_mem _ ha)) (i + 1) (by omega)
          tree₁ hcovers (valid && b)
        refine ⟨tree', htree', ?_⟩
        simp only [Outcome.ok_bind, hmark, hloop, bind_assoc, pure_bind, Outcome.any, id_eq, Bool.and_assoc]
      | err e => exact ⟨tree, htree, rfl⟩
      | panic why => exact ⟨tree, htree, rfl⟩

theorem collectActionsLoop_eq (c : Contract F) (w : World F) {k n : Nat} (cs : List (Option (IfClause F)))
    (hcs : ∀ x ∈ cs, ∃ y, x = some y ∧ ∀ a ∈ y.actions, a ≠ none) (i : Nat) (hi : i + n + cs.length ≤ k)
    (tree : StateNode) (htree : tree.Covers k) (collected : List (Action F)) :
    ∃ tree', c.collectActionsLoop w n i tree collected cs = (do
      let _ ← (cs.filterMap fun x => x.map (·.condition)).mapM (c.validateCondition · w)
      return (collected ++ c.chosen w cs, tree')) := by
  induction cs generalizing i tree collected with
  | nil => exact ⟨tree, by simp [Contract.collectActionsLoop, Contract.chosen]⟩
  | cons x cs ih =>
    obtain ⟨y, rfl, hactions⟩ := hcs x List.mem_cons_self
    have hrest := fun z hz => hcs z (List.mem_cons_of_mem _ hz)
    rw [List.length_cons] at hi
    simp only [Contract.collectActionsLoop, List.filterMap_cons, Option.map_some, List.mapM_cons]
    cases hy : c.validateCondition y.condition w with
    | err e => exact ⟨tree, rfl⟩
    | panic why => exact ⟨tree, rfl⟩
    | ok b =>
      obtain ⟨tree₁, hmark, hcovers⟩ := htree.mark (F := F) (i := i + n) (by omega) b
      have hchosen : c.chosen w (some y :: cs) = (if b then y.actions.filterMap id else []) ++ c.chosen w cs := by
        simp [Contract.chosen, Contract.holds, hy, Outcome.any]
      cases b with
      | false =>
        obtain ⟨tree', hloop⟩ := ih hrest (i + 1) (by omega) tree₁ hcovers collected
        refine ⟨tree', ?_⟩
        simp only [Outcome.ok_bind, hmark, hloop, hchosen, bind_assoc, pure_bind, Bool.false_eq_true, if_false,
          List.nil_append]
      | true =>
        obtain ⟨tree₂, hmark', hcovers'⟩ := hcovers.markActions (F := F) (i := i + n) (by omega)
        obtain ⟨tree', hloop⟩ := ih hrest (i + 1) (by omega) tree₂ hcovers' (collected ++ y.actions.filterMap id)
        refine ⟨tree', ?_⟩
        simp only [Outcome.ok_bind, hmark, hmark', derefActions_some _ hactions, hloop, hchosen, bind_assoc,
          pure_bind, if_true, List.append_assoc]

section Parsed

variable {c : Contract F} {w : World F} (hcode : c.codeAst.Parsed)
include hcode

theorem chosen_parsed : ∀ a ∈ c.chosen w c.codeAst.ifClauses, a.Parsed := by
  intro a ha
  obtain ⟨clause, hclause, ha⟩ := mem_chosen ha
  obtain ⟨x, hx, hparsed⟩ := hcode.ifClauses _ hclause
  cases hx
  obtain ⟨z, hz, hz'⟩ := hparsed.actions.2 _ ha
  cases hz
  exact hz'

theorem validateAssumptions_eq (hfresh : c.stateTree = constructStateTree c.codeAst) :
    ∃ tree, tree.Covers (c.codeAst.assumptions.length + c.codeAst.ifClauses.length) ∧
      c.validateAssumptions w = (do
        let _ ← c.codeAst.assumed.mapM (c.validateCondition · w)
        return (c.codeAst.assumed.all (c.holds w), { c with stateTree := tree })) := by
  have hsome : ∀ a ∈ c.codeAst.assumptions, a ≠ none := by
    rintro a ha rfl
    obtain ⟨x, hx, -⟩ := hcode.assumptions none ha
    cases hx
  have hcovers := constructStateTree_covers c.codeAst
  rw [← hfresh] at hcovers
  obtain ⟨tree, htree, hloop⟩ :=
    validateAssumptionsLoop_eq c w c.codeAst.assumptions hsome 0 (by omega) c.stateTree hcovers true
  refine ⟨tree, htree, ?_⟩
  unfold Contract.validateAssumptions
  rw [hloop]
  simp [Code.assumed]

/-- The tree is not the one that the contract was stored with, but has the same nodes. -/
theorem collectActions_eq (tree : StateNode)
    (htree : tree.Covers (c.codeAst.assumptions.length + c.codeAst.ifClauses.length)) :
    ∃ tree', Contract.collectActions { c with stateTree := tree } w = (do
      let _ ← c.codeAst.guards.mapM (c.validateCondition · w)
      return (c.chosen w c.codeAst.ifClauses, { c with stateTree := tree' })) := by
  have hsome : ∀ x ∈ c.codeAst.ifClauses, ∃ y, x = some y ∧ ∀ a ∈ y.actions, a ≠ none := by
    intro x hx
    obtain ⟨y, rfl, hy⟩ := hcode.ifClauses x hx
    refine ⟨y, rfl, ?_⟩
    rintro a ha rfl
    obtain ⟨z, hz, -⟩ := hy.actions.2 none ha
    cases hz
  obtain ⟨tree', hloop⟩ := collectActionsLoop_eq { c with stateTree := tree } w (n := c.codeAst.assumptions.length)
    c.codeAst.ifClauses hsome 0 (by omega) tree htree []
  refine ⟨tree', ?_⟩
  unfold Contract.collectActions
  simp only [hloop, List.nil_append, bind_assoc, pure_bind, Code.guards]
  rfl

end Parsed

/-- The clauses are looked at only if all assumptions hold. -/
def Contract.reachedConditions (c : Contract F) (w : World F) : List (Condition F) :=
  Outcome.started (c.validateCondition · w) c.codeAst.assumed ++
    if c.codeAst.assumed.all (c.holds w) then Outcome.started (c.validateCondition · w) c.codeAst.guards else []

theorem mem_of_reachedConditions {c : Contract F} {w : World F} {d : Condition F}
    (hd : d ∈ c.reachedConditions w) : d ∈ c.codeAst.assumed ∨ d ∈ c.codeAst.guards := by
  unfold Contract.reachedConditions at hd
  rcases List.mem_append.mp hd with hd | hd
  · exact Or.inl (Outcome.started_subset _ _ hd)
  · split_ifs at hd
    · exact Or.inr (Outcome.started_subset _ _ hd)
    · cases hd

end MarketPeer.Contracts

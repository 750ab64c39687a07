import MarketPeer.Contracts.Reached

/-!
# Flags that are there already

An evaluation leaves a state tree that carries all its flags, and it only sets flags: on
a tree that carries them it returns the contract as it was.
-/

namespace MarketPeer.Contracts

open MarketPeer.Ledger

variable {F : Type}

/-! ## Nodes -/

namespace StateNode

def child? : StateNode → Nat → Option StateNode
  | .nil, _ => none
  | .node _ _ _ _ children, i => children[i]?

def isExecuted : StateNode → Bool
  | .nil => false
  | .node _ _ _ executed _ => executed

/-- Child `i` and its condition are executed, and valid in case `holds`. -/
def Carries (tree : StateNode) (i : Nat) (holds : Bool) : Prop :=
  ∃ id type valid id' type' valid' below rest,
    tree.child? i = some (.node id type valid true (.node id' type' valid' true below :: rest)) ∧
    (holds = true → valid = true ∧ valid' = true)

/-- The children of child `i`, apart from the first one, are executed. -/
def CarriesActions (tree : StateNode) (i : Nat) : Prop :=
  ∃ id type valid executed children, tree.child? i = some (.node id type valid executed children) ∧
    ∀ m ∈ children.drop 1, m.isExecuted = true

/-- The node of action `j` of the clause with child `i`. -/
def action? (tree : StateNode) (i j : Nat) : Option StateNode := (tree.child? i).bind (·.child? (j + 1))

variable {tree n : StateNode} {i : Nat}

theorem CarriesActions.isExecuted (h : tree.CarriesActions i) {j : Nat} (hn : tree.action? i j = some n) :
    n.isExecuted = true := by
  obtain ⟨id, type, valid, executed, children, hchild, hall⟩ := h
  rw [action?, hchild, Option.bind_some, child?] at hn
  apply hall
  rw [List.mem_iff_getElem?]
  exact ⟨j, by rw [List.getElem?_drop, Nat.add_comm]; exact hn⟩

theorem child_of_child? (h : tree.child? i = some n) : (tree.child i : Res F StateNode) = .ok n := by
  cases tree with
  | nil => cases h
  | node id type valid executed children =>
    rw [child?] at h
    simp only [child, h, Option.elim_some]

theorem setChild_self (h : tree.child? i = some n) : tree.setChild i n = tree := by
  cases tree with
  | nil => rfl
  | node id type valid executed children =>
    obtain ⟨hi, rfl⟩ := List.getElem?_eq_some_iff.mp h
    rw [setChild, List.set_getElem_self]

theorem Carries.mark {holds : Bool} (h : tree.Carries i holds) : (tree.mark i holds : Res F StateNode) = .ok tree := by
  obtain ⟨id, type, valid, id', type', valid', below, rest, hchild, hvalid⟩ := h
  have hor : (valid || holds) = valid ∧ (valid' || holds) = valid' := by
    cases holds with
    | false => simp
    | true => simp [hvalid rfl]
  unfold StateNode.mark
  rw [child_of_child? hchild]
  simp only [Outcome.ok_bind, child, List.getElem?_cons_zero, Option.elim_some, set, hor.1, hor.2, Outcome.pure_eq,
    setChild, List.set_cons_zero]
  exact congrArg Outcome.ok (setChild_self hchild)

theorem mapM_set_of_executed (ms : List StateNode) (h : ∀ m ∈ ms, m.isExecuted = true) :
    (ms.mapM (set false) : Res F (List StateNode)) = .ok ms := by
  induction ms with
  | nil => rfl
  | cons m ms ih =>
    have hm := h m List.mem_cons_self
    cases m with
    | nil => cases hm
    | node id type valid executed children =>
      rw [isExecuted] at hm
      subst hm
      rw [List.mapM_cons, ih fun m hm => h m (List.mem_cons_of_mem _ hm)]
      simp only [set, Bool.or_false, Outcome.ok_bind, Outcome.pure_eq]

theorem CarriesActions.markActions (h : tree.CarriesActions i) :
    (tree.markActions i : Res F StateNode) = .ok tree := by
  obtain ⟨id, type, valid, executed, children, hchild, hall⟩ := h
  unfold StateNode.markActions
  rw [child_of_child? hchild]
  simp only [Outcome.ok_bind, mapM_set_of_executed _ hall, Outcome.pure_eq, List.take_append_drop]
  exact congrArg Outcome.ok (setChild_self hchild)

theorem child?_of_child (h : (tree.child i : Res F StateNode) = .ok n) : tree.child? i = some n := by
  cases tree with
  | nil => cases h
  | node id type valid executed children =>
    rw [child] at h
    rw [child?]
    cases hi : children[i]? with
    | none => simp [hi] at h
    | some m => simpa [hi] using h

theorem child?_setChild_self (h : tree.child? i = some n) (m : StateNode) : (tree.setChild i m).child? i = some m := by
  cases tree with
  | nil => cases h
  | node id type valid executed children =>
    obtain ⟨hi, -⟩ := List.getElem?_eq_some_iff.mp h
    simp [setChild, child?, hi]

theorem child?_setChild_of_ne {k : Nat} (hne : k ≠ i) (m : StateNode) :
    (tree.setChild i m).child? k = tree.child? k := by
  cases tree with
  | nil => rfl
  | node id type valid executed children => simp [setChild, child?, Ne.symm hne]

theorem mark_ok {holds : Bool} {tree' : StateNode} (h : (tree.mark i holds : Res F StateNode) = .ok tree') :
    tree'.Carries i holds ∧ ∀ k, k ≠ i → tree'.child? k = tree.child? k := by
  simp only [StateNode.mark, Outcome.bind_eq_ok, Outcome.pure_eq, Outcome.ok.injEq] at h
  obtain ⟨n, hn, condition, hcondition, n', hn', condition', hcondition', rfl⟩ := h
  have hchild := child?_of_child hn
  refine ⟨?_, fun k hk => child?_setChild_of_ne hk _⟩
  cases n with
  | nil => cases hn'
  | node id type valid executed children =>
    cases children with
    | nil => cases hcondition
    | cons first rest =>
      cases hcondition
      cases condition with
      | nil => cases hcondition'
      | node id' type' valid' executed' below =>
        cases hn'
        cases hcondition'
        exact ⟨id, type, valid || holds, id', type', valid' || holds, below, rest, child?_setChild_self hchild _,
          by rintro rfl; simp⟩

theorem executed_of_mapM_set (ms ms' : List StateNode) (h : (ms.mapM (set false) : Res F (List StateNode)) = .ok ms') :
    ∀ m ∈ ms', m.isExecuted = true := by
  induction ms generalizing ms' with
  | nil =>
    rw [List.mapM_nil, Outcome.pure_eq, Outcome.ok.injEq] at h
    simp [← h]
  | cons m ms ih =>
    cases m with
    | nil => simp [set] at h
    | node id type valid executed children =>
      simp only [List.mapM_cons, set, Outcome.ok_bind, Outcome.bind_eq_ok, Outcome.pure_eq, Outcome.ok.injEq] at h
      obtain ⟨rest, hrest, rfl⟩ := h
      intro m hm
      rcases List.mem_cons.mp hm with rfl | hm
      · rfl
      · exact ih rest hrest m hm

theorem markActions_ok {tree' : StateNode} (h : (tree.markActions i : Res F StateNode) = .ok tree') :
    tree'.CarriesActions i ∧ (∀ holds, tree.Carries i holds → tree'.Carries i holds) ∧
      ∀ k, k ≠ i → tree'.child? k = tree.child? k := by
  simp only [StateNode.markActions, Outcome.bind_eq_ok] at h
  obtain ⟨n, hn, h⟩ := h
  have hchild := child?_of_child hn
  cases n with
  | nil => cases h
  | node id type valid executed children =>
    simp only [Outcome.bind_eq_ok, Outcome.pure_eq, Outcome.ok.injEq] at h
    obtain ⟨actions, hactions, rfl⟩ := h
    refine ⟨⟨id, type, valid, executed, _, child?_setChild_self hchild _, ?_⟩, ?_,
      fun k hk => child?_setChild_of_ne hk _⟩
    · intro m hm
      cases children with
      | nil =>
        cases hactions
        cases hm
      | cons first rest => exact executed_of_mapM_set _ actions hactions m (by simpa using hm)
    · rintro holds ⟨id', type', valid', id'', type'', valid'', below, rest, hcarries, hvalid⟩
      rw [hchild, Option.some.injEq] at hcarries
      cases hcarries
      exact ⟨_, _, _, id'', type'', valid'', below, actions, child?_setChild_self hchild _, hvalid⟩

end StateNode

variable [Float64 F]

/-! ## Evaluations that mark nothing new -/

/-- What `doContract` does with the decoded contract: the clauses are looked at if the assumptions
hold. -/
def Contract.evaluate (c : Contract F) (w : World F) : Res F (List (Action F) × Contract F) := do
  let (valid, c) ← c.validateAssumptions w
  if !valid then return ([], c)
  else c.collectActions w

/-- The tree carries every flag that an evaluation on `w` sets. -/
structure Contract.AllMarked (c : Contract F) (w : World F) : Prop where
  assumptions : ∀ i a, c.codeAst.assumptions[i]? = some (some a) →
    c.stateTree.Carries i (c.holds w a.condition)
  clauses : c.codeAst.assumed.all (c.holds w) = true → ∀ i clause, c.codeAst.ifClauses[i]? = some (some clause) →
    c.stateTree.Carries (i + c.codeAst.assumptions.length) (c.holds w clause.condition) ∧
    (c.holds w clause.condition = true → c.stateTree.CarriesActions (i + c.codeAst.assumptions.length))

section Evaluation

variable {c : Contract F} {w : World F} {tree tree' : StateNode}

theorem holds_of_ok {d : Condition F} {b : Bool} (h : c.validateCondition d w = .ok b) : c.holds w d = b := by
  simp [Contract.holds, h, Outcome.any]

theorem validateAssumptionsLoop_valid (as : List (Option (Assumption F))) (i : Nat) (valid valid' : Bool)
    (hloop : c.validateAssumptionsLoop w i tree valid as = .ok (valid', tree')) :
    valid' = (valid && (as.filterMap fun a => a.map (·.condition)).all (c.holds w)) := by
  induction as generalizing i valid tree with
  | nil =>
    rw [Contract.validateAssumptionsLoop, Outcome.ok.injEq, Prod.mk.injEq] at hloop
    simp [← hloop.1]
  | cons a as ih =>
    cases a with
    | none => cases hloop
    | some x =>
      simp only [Contract.validateAssumptionsLoop, Outcome.bind_eq_ok] at hloop
      obtain ⟨b, hb, tree₁, -, hloop⟩ := hloop
      simp [ih (i + 1) (valid && b) hloop, holds_of_ok hb, Bool.and_assoc]

theorem validateAssumptionsLoop_same (as : List (Option (Assumption F))) (i : Nat) (valid valid' : Bool)
    (hmarked : ∀ k a, as[k]? = some (some a) → tree.Carries (i + k) (c.holds w a.condition))
    (hloop : c.validateAssumptionsLoop w i tree valid as = .ok (valid', tree')) :
    tree' = tree := by
  induction as generalizing i valid with
  | nil =>
    rw [Contract.validateAssumptionsLoop, Outcome.ok.injEq, Prod.mk.injEq] at hloop
    exact hloop.2.symm
  | cons a as ih =>
    cases a with
    | none => cases hloop
    | some x =>
      simp only [Contract.validateAssumptionsLoop, Outcome.bind_eq_ok] at hloop
      obtain ⟨b, hb, tree₁, hmark, hloop⟩ := hloop
      have hcarries := hmarked 0 x rfl
      rw [Nat.add_zero, holds_of_ok hb] at hcarries
      rw [hcarries.mark, Outcome.ok.injEq] at hmark
      subst hmark
      refine ih (i + 1) (valid && b) (fun k a hk => ?_) hloop
      have := hmarked (k + 1) a hk
      rwa [Nat.add_comm k, ← Nat.add_assoc] at this

theorem collectActionsLoop_same (cs : List (Option (IfClause F))) (n i : Nat) (collected xs : List (Action F))
    (hmarked : ∀ k clause, cs[k]? = some (some clause) →
      tree.Carries (i + k + n) (c.holds w clause.condition) ∧
      (c.holds w clause.condition = true → tree.CarriesActions (i + k + n)))
    (hloop : c.collectActionsLoop w n i tree collected cs = .ok (xs, tree')) : tree' = tree := by
  induction cs generalizing i collected with
  | nil =>
    rw [Contract.collectActionsLoop, Outcome.ok.injEq, Prod.mk.injEq] at hloop
    exact hloop.2.symm
  | cons clause? cs ih =>
    cases clause? with
    | none => cases hloop
    | some clause =>
      simp only [Contract.collectActionsLoop, Outcome.bind_eq_ok] at hloop
      obtain ⟨b, hb, tree₁, hmark, hloop⟩ := hloop
      have hlater : ∀ k clause, cs[k]? = some (some clause) →
          tree.Carries (i + 1 + k + n) (c.holds w clause.condition) ∧
          (c.holds w clause.condition = true → tree.CarriesActions (i + 1 + k + n)) := by
        intro k clause hk
        have := hmarked (k + 1) clause hk
        rwa [Nat.add_comm k, ← Nat.add_assoc] at this
      obtain ⟨hcarries, hactions⟩ := hmarked 0 clause rfl
      rw [Nat.add_zero, holds_of_ok hb] at hcarries
      rw [Nat.add_zero, holds_of_ok hb] at hactions
      rw [hcarries.mark, Outcome.ok.injEq] at hmark
      subst hmark
      split_ifs at hloop with hholds
      · simp only [(hactions hholds).markActions, Outcome.ok_bind, Outcome.bind_eq_ok] at hloop
        obtain ⟨actions, -, hloop⟩ := hloop
        exact ih (i + 1) _ hlater hloop
      · exact ih (i + 1) _ hlater hloop

theorem evaluate_same {actions : List (Action F)} {c' : Contract F} (hmarked : c.AllMarked w)
    (heval : c.evaluate w = .ok (actions, c')) : c' = c := by
  simp only [Contract.evaluate, Contract.validateAssumptions, Outcome.bind_eq_ok, Outcome.pure_eq,
    Outcome.ok.injEq] at heval
  obtain ⟨⟨valid, c₁⟩, ⟨⟨valid', tree⟩, hloop, heq⟩, heval⟩ := heval
  rw [Prod.mk.injEq] at heq
  obtain ⟨rfl, rfl⟩ := heq
  have hvalid := validateAssumptionsLoop_valid c.codeAst.assumptions 0 true valid' hloop
  obtain rfl := validateAssumptionsLoop_same c.codeAst.assumptions 0 true valid'
    (fun k a hk => by simpa using hmarked.assumptions k a hk) hloop
  cases valid' with
  | false =>
    simp only [Bool.not_false, if_true, Outcome.ok.injEq, Prod.mk.injEq] at heval
    exact heval.2.symm
  | true =>
    simp only [Bool.not_true, Bool.false_eq_true, if_false, Contract.collectActions, Outcome.bind_eq_ok,
      Outcome.pure_eq, Outcome.ok.injEq, Prod.mk.injEq] at heval
    obtain ⟨⟨xs, tree⟩, hcollect, -, rfl⟩ := heval
    have hall : c.codeAst.assumed.all (c.holds w) = true := by simpa [Code.assumed] using hvalid.symm
    have hsame := collectActionsLoop_same c.codeAst.ifClauses _ 0 [] xs
      (fun k clause hk => by simpa using hmarked.clauses hall k clause hk) hcollect
    rw [hsame]

/-! ## Every evaluation marks all it comes to -/

theorem validateAssumptionsLoop_carries (as : List (Option (Assumption F))) (i : Nat) (valid valid' : Bool)
    (hloop : c.validateAssumptionsLoop w i tree valid as = .ok (valid', tree')) :
    (∀ k a, as[k]? = some (some a) → tree'.Carries (i + k) (c.holds w a.condition)) ∧
      ∀ k, k < i ∨ i + as.length ≤ k → tree'.child? k = tree.child? k := by
  induction as generalizing i valid tree with
  | nil =>
    rw [Contract.validateAssumptionsLoop, Outcome.ok.injEq, Prod.mk.injEq] at hloop
    exact ⟨by simp, fun k _ => by rw [hloop.2]⟩
  | cons a as ih =>
    cases a with
    | none => cases hloop
    | some x =>
      simp only [Contract.validateAssumptionsLoop, Outcome.bind_eq_ok] at hloop
      obtain ⟨b, hb, tree₁, hmark, hloop⟩ := hloop
      obtain ⟨hcarries, hframe⟩ := StateNode.mark_ok hmark
      obtain ⟨hrest, hframe'⟩ := ih (i + 1) (valid && b) hloop
      refine ⟨?_, ?_⟩
      · intro k a hk
        cases k with
        | zero =>
          cases hk
          unfold StateNode.Carries
          rw [Nat.add_zero, hframe' i (Or.inl (Nat.lt_succ_self i)), holds_of_ok hb]
          exact hcarries
        | succ k =>
          have := hrest k a hk
          rwa [Nat.add_assoc, Nat.add_comm 1] at this
      · intro k hk
        rw [List.length_cons] at hk
        rw [hframe' k (by omega), hframe k (by omega)]

theorem collectActionsLoop_carries (cs : List (Option (IfClause F))) (n i : Nat) (collected xs : List (Action F))
    (hloop : c.collectActionsLoop w n i tree collected cs = .ok (xs, tree')) :
    (∀ k clause, cs[k]? = some (some clause) → tree'.Carries (i + k + n) (c.holds w clause.condition) ∧
      (c.holds w clause.condition = true → tree'.CarriesActions (i + k + n))) ∧
      ∀ k, k < i + n → tree'.child? k = tree.child? k := by
  induction cs generalizing i collected tree with
  | nil =>
    rw [Contract.collectActionsLoop, Outcome.ok.injEq, Prod.mk.injEq] at hloop
    exact ⟨by simp, fun k _ => by rw [hloop.2]⟩
  | cons clause? cs ih =>
    cases clause? with
    | none => cases hloop
    | some clause =>
      simp only [Contract.collectActionsLoop, Outcome.bind_eq_ok] at hloop
      obtain ⟨b, hb, tree₁, hmark, hloop⟩ := hloop
      obtain ⟨hcarries, hframe⟩ := StateNode.mark_ok hmark
      -- the tree that the rest of the loop starts with
      have hnext : ∃ tree₂ collected', tree₂.Carries (i + n) b ∧ (b = true → tree₂.CarriesActions (i + n)) ∧
          (∀ k, k ≠ i + n → tree₂.child? k = tree.child? k) ∧
          c.collectActionsLoop w n (i + 1) tree₂ collected' cs = .ok (xs, tree') := by
        split_ifs at hloop with hholds
        · simp only [Outcome.bind_eq_ok] at hloop
          obtain ⟨tree₂, hactions, actions, -, hloop⟩ := hloop
          obtain ⟨hcarriesActions, hkeeps, hframe'⟩ := StateNode.markActions_ok hactions
          exact ⟨tree₂, _, hkeeps b hcarries, fun _ => hcarriesActions,
            fun k hk => (hframe' k hk).trans (hframe k hk), hloop⟩
        · exact ⟨tree₁, collected, hcarries, fun h => (hholds h).elim, hframe, hloop⟩
      obtain ⟨tree₂, collected', hcarries₂, hactions₂, hframe₂, hloop⟩ := hnext
      obtain ⟨hrest, hframe'⟩ := ih (i + 1) collected' hloop
      refine ⟨?_, ?_⟩
      · intro k clause' hk
        cases k with
        | zero =>
          cases hk
          unfold StateNode.Carries StateNode.CarriesActions
          rw [Nat.add_zero, hframe' (i + n) (by omega), holds_of_ok hb]
          exact ⟨hcarries₂, hactions₂⟩
        | succ k =>
          have := hrest k clause' hk
          rwa [Nat.add_assoc i, Nat.add_comm 1] at this
      · intro k hk
        rw [hframe' k (by omega), hframe₂ k (by omega)]

theorem evaluate_allMarked {actions : List (Action F)} {c' : Contract F} (heval : c.evaluate w = .ok (actions, c'))
    (hsame : c'.stateTree = c.stateTree) : c.AllMarked w := by
  simp only [Contract.evaluate, Contract.validateAssumptions, Outcome.bind_eq_ok, Outcome.pure_eq,
    Outcome.ok.injEq] at heval
  obtain ⟨⟨valid, c₁⟩, ⟨⟨valid', tree⟩, hloop, heq⟩, heval⟩ := heval
  rw [Prod.mk.injEq] at heq
  obtain ⟨rfl, rfl⟩ := heq
  have hvalid : valid' = c.codeAst.assumed.all (c.holds w) := by
    simpa [Code.assumed] using validateAssumptionsLoop_valid c.codeAst.assumptions 0 true valid' hloop
  obtain ⟨hcarries, -⟩ := validateAssumptionsLoop_carries c.codeAst.assumptions 0 true valid' hloop
  cases valid' with
  | false =>
    simp only [Bool.not_false, if_true, Outcome.ok.injEq, Prod.mk.injEq] at heval
    rw [← heval.2] at hsame
    refine ⟨fun i a hi => ?_, fun hall => ?_⟩
    · rw [← hsame]
      simpa using hcarries i a hi
    · rw [hall] at hvalid
      cases hvalid
  | true =>
    simp only [Bool.not_true, Bool.false_eq_true, if_false, Contract.collectActions, Outcome.bind_eq_ok,
      Outcome.pure_eq, Outcome.ok.injEq, Prod.mk.injEq] at heval
    obtain ⟨⟨xs, tree'⟩, hcollect, -, rfl⟩ := heval
    obtain ⟨hcarries', hframe⟩ := collectActionsLoop_carries c.codeAst.ifClauses _ 0 [] xs hcollect
    refine ⟨fun i a hi => ?_, fun _ i clause hi => ?_⟩
    · have hlt : i < c.codeAst.assumptions.length := (List.getElem?_eq_some_iff.mp hi).1
      have hi := hcarries i a hi
      unfold StateNode.Carries at hi ⊢
      rw [← hsame, hframe i (by omega)]
      simpa using hi
    · have hi := hcarries' i clause hi
      rw [Nat.zero_add] at hi
      rw [← hsame]
      exact hi

/-! ## Contracts as they are made -/

/-- The state tree is the one of `NewContract`. -/
def Contract.Fresh (c : Contract F) : Prop := c.stateTree = constructStateTree c.codeAst

/-- There is neither an assumption nor a clause, and so no node to mark. -/
def Contract.Silent (c : Contract F) : Prop := c.codeAst.assumptions = [] ∧ c.codeAst.ifClauses = []

omit [Float64 F] in
theorem constructStateTree_not_carries (code : Code F) (holds : Bool)
    (h : code.assumptions ≠ [] ∨ code.ifClauses ≠ []) : ¬ (constructStateTree code).Carries 0 holds := by
  rintro ⟨id, type, valid, id', type', valid', below, rest, hchild, -⟩
  unfold constructStateTree StateNode.child? at hchild
  cases hassumptions : code.assumptions with
  | cons a as => simp [hassumptions, assumptionNodes] at hchild
  | nil =>
    cases hclauses : code.ifClauses with
    | cons clause rest => simp [hassumptions, hclauses, assumptionNodes, ifClauseNodes] at hchild
    | nil => simp [hassumptions, hclauses] at h

/-- A tree as `NewContract` makes it carries the flags of an evaluation only if there are none to set. -/
theorem silent_of_allMarked {actions : List (Action F)} {c' : Contract F} (hfresh : c.Fresh) (hmarked : c.AllMarked w)
    (heval : c.evaluate w = .ok (actions, c')) : c.Silent := by
  by_contra hsilent
  have hnodes : c.codeAst.assumptions ≠ [] ∨ c.codeAst.ifClauses ≠ [] := by
    rw [← not_and_or]
    exact hsilent
  have hnot := fun holds => constructStateTree_not_carries c.codeAst holds hnodes
  rw [← hfresh] at hnot
  simp only [Contract.evaluate, Contract.validateAssumptions, Outcome.bind_eq_ok, Outcome.pure_eq,
    Outcome.ok.injEq] at heval
  obtain ⟨⟨valid, c₁⟩, ⟨⟨valid', tree⟩, hloop, heq⟩, heval⟩ := heval
  rw [Prod.mk.injEq] at heq
  obtain ⟨rfl, rfl⟩ := heq
  cases hassumptions : c.codeAst.assumptions with
  | cons a as =>
    -- the first assumption is evaluated, so its node has to be marked
    rw [hassumptions] at hloop
    cases a with
    | none => cases hloop
    | some a => exact hnot _ (hmarked.assumptions 0 a (by rw [hassumptions]; rfl))
  | nil =>
    rw [hassumptions, Contract.validateAssumptionsLoop, Outcome.ok.injEq, Prod.mk.injEq] at hloop
    obtain ⟨rfl, rfl⟩ := hloop
    simp only [Bool.not_true, Bool.false_eq_true, if_false, Contract.collectActions, Outcome.bind_eq_ok] at heval
    obtain ⟨⟨xs, tree'⟩, hcollect, -⟩ := heval
    cases hclauses : c.codeAst.ifClauses with
    | nil => simp [hassumptions, hclauses] at hnodes
    | cons clause? rest =>
      rw [hclauses] at hcollect
      cases clause? with
      | none => cases hcollect
      | some clause =>
        have hall : c.codeAst.assumed.all (c.holds w) = true := by simp [Code.assumed, hassumptions]
        have hcarries := (hmarked.clauses hall 0 clause (by rw [hclauses]; rfl)).1
        rw [hassumptions] at hcarries
        exact hnot _ hcarries

end Evaluation

end MarketPeer.Contracts

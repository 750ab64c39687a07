import MarketPeer.Ledger.Atomic
import Mathlib.Algebra.BigOperators.Group.Finset.Basic
import Mathlib.Algebra.Order.Ring.Rat
import Mathlib.Tactic.Linarith

/-!
# Contracts conserve goods

With amounts read as exact rationals, what a send takes from one party it gives to the
other, also when the two are one account, and nobody else is touched.
-/

namespace MarketPeer.Ledger

open MarketPeer.Contracts

variable {F : Type}

/-! ## Amounts -/

/-- Every `float64` of the run is the rational `val` says, with no rounding. -/
structure ExactAmounts [Float64 F] (val : F → ℚ) : Prop where
  ofInt : ∀ i : Int64, val (Float64.ofInt i) = (i.toInt : ℚ)
  add : ∀ x y, val (Float64.add x y) = val x + val y
  sub : ∀ x y, val (Float64.sub x y) = val x - val y
  lt : ∀ x y, Float64.lt x y = true ↔ val x < val y

/-- The amount that a storage entry stands for; a missing one stands for nothing. -/
def amountOf (val : F → ℚ) : Option (Value F) → ℚ
  | some (.float f) => val f
  | some (.int i) => i.toInt
  | _ => 0

/-- What the accounts have of a product together. -/
def totalOf (val : F → ℚ) (h : Holdings F) (accounts : Finset String) (product : String) : ℚ :=
  ∑ k ∈ accounts, amountOf val (h k product)

variable [Float64 F] {val : F → ℚ}

theorem amountOf_numeric (hexact : ExactAmounts val) (v : Value F) (x : F) (h : numericToFloat v = some x) :
    amountOf val (some v) = val x := by
  cases v with
  | float f =>
    rw [numericToFloat, Option.some.injEq] at h
    rw [amountOf, h]
  | int i =>
    rw [numericToFloat, Option.some.injEq] at h
    rw [amountOf, ← h, hexact.ofInt]
  | _ => cases h

/-! ## One send -/

section Trade

variable {h h' : Holdings F} {sender receiver product : String} {amount : F}

omit [Float64 F] in
@[simp] theorem set_same (h : Holdings F) (k product : String) (v : Value F) : h.set k product v k product = some v := by
  simp [Holdings.set]

omit [Float64 F] in
theorem set_of_ne (h : Holdings F) (k product k' product' : String) (v : Value F)
    (hne : ¬ (k = k' ∧ product = product')) : h.set k product v k' product' = h k' product' := by
  simp only [Holdings.set, if_neg hne]

/-- The sender has enough. It is left with the rest, and the receiver has the amount on top of what
it had after that. -/
theorem trade_done (hexact : ExactAmounts val) (hdone : h.trade sender receiver product amount = .done h') :
    ∃ x y : F, val amount ≤ amountOf val (h sender product) ∧
      val x = amountOf val (h sender product) - val amount ∧
      val y = val amount + amountOf val (h.set sender product (.float x) receiver product) ∧
      h' = (h.set sender product (.float x)).set receiver product (.float y) := by
  unfold Holdings.trade at hdone
  cases hheld : h sender product with
  | none => simp [hheld] at hdone
  | some held =>
    cases hx : numericToFloat held with
    | none => simp [hheld, hx] at hdone
    | some x =>
      simp only [hheld, Option.bind_some, hx] at hdone
      split_ifs at hdone with hlt
      have hle : val amount ≤ val x := not_lt.mp fun hlt' => hlt ((hexact.lt x amount).mpr hlt')
      rw [amountOf_numeric hexact held x hx]
      refine ⟨Float64.sub x amount, ?_⟩
      split at hdone
      · rename_i hnone
        refine ⟨amount, hle, hexact.sub _ _, ?_, (Turn.done.inj hdone).symm⟩
        simp [hnone, amountOf]
      · rename_i v hsome
        split at hdone
        · cases hdone
        · rename_i y hy
          refine ⟨Float64.add amount y, hle, hexact.sub _ _, ?_, (Turn.done.inj hdone).symm⟩
          rw [hsome, amountOf_numeric hexact v y hy, hexact.add]

theorem trade_total (hexact : ExactAmounts val) (hdone : h.trade sender receiver product amount = .done h')
    (product' : String) :
    totalOf val h' {sender, receiver} product' = totalOf val h {sender, receiver} product' := by
  obtain ⟨x, y, -, hx, hy, rfl⟩ := trade_done hexact hdone
  unfold totalOf
  by_cases hproduct : product = product'
  · subst hproduct
    by_cases hsame : sender = receiver
    · subst hsame
      rw [set_same, amountOf] at hy
      rw [Finset.pair_eq_singleton, Finset.sum_singleton, Finset.sum_singleton, set_same, amountOf]
      linarith
    · rw [set_of_ne _ _ _ _ _ _ fun h => hsame h.1] at hy
      rw [Finset.sum_pair hsame, Finset.sum_pair hsame, set_same, set_of_ne _ _ _ _ _ _ fun h => hsame h.1.symm,
        set_same, amountOf, amountOf]
      linarith
  · refine Finset.sum_congr rfl fun k _ => ?_
    rw [set_of_ne _ _ _ _ _ _ fun h => hproduct h.2, set_of_ne _ _ _ _ _ _ fun h => hproduct h.2]

theorem trade_covered (hexact : ExactAmounts val) (hdone : h.trade sender receiver product amount = .done h')
    (hamount : 0 ≤ val amount) : 0 ≤ amountOf val (h' sender product) := by
  obtain ⟨x, y, hle, hx, hy, rfl⟩ := trade_done hexact hdone
  by_cases hsame : sender = receiver
  · subst hsame
    rw [set_same, amountOf] at hy
    rw [set_same, amountOf]
    linarith
  · rw [set_of_ne _ _ _ _ _ _ fun h => hsame h.1.symm, set_same, amountOf]
    linarith

theorem trade_frame (hexact : ExactAmounts val) (hdone : h.trade sender receiver product amount = .done h')
    (k product' : String) (hproduct : product ≠ product') : h' k product' = h k product' := by
  obtain ⟨x, y, -, -, -, rfl⟩ := trade_done hexact hdone
  rw [set_of_ne _ _ _ _ _ _ fun h => hproduct h.2, set_of_ne _ _ _ _ _ _ fun h => hproduct h.2]

end Trade

/-! ## A list of actions -/

/-- The action sends the product from one party to the other. -/
def Sends (p a : String) (x : Action F) (sender receiver product : String) : Prop :=
  x.action = "send" ∧ parties p a x = some (sender, receiver) ∧ stringParam x 0 = .ok product

section Actions

variable {p a : String} {x : Action F} {xs : List (Action F)} {h h' : Holdings F}

theorem turn_done (hdone : turn p a x h = .done h') :
    (h' = h ∧ ∀ sender receiver product, ¬ Sends p a x sender receiver product) ∨
    ∃ sender receiver product amount, Sends p a x sender receiver product ∧ numberParam x 1 = .ok amount ∧
      h.trade sender receiver product amount = .done h' := by
  unfold turn at hdone
  split_ifs at hdone with htransfer hok hsend
  · refine Or.inl ⟨(Turn.done.inj hdone).symm, ?_⟩
    rintro sender receiver product ⟨hx, -⟩
    rw [htransfer] at hx
    exact absurd hx (by decide)
  · split at hdone
    · rename_i product amount hproduct hamount
      cases hparties : parties p a x with
      | none =>
        rw [hparties] at hdone
        refine Or.inl ⟨(Turn.done.inj hdone).symm, ?_⟩
        rintro sender receiver product ⟨-, hsome, -⟩
        rw [hparties] at hsome
        cases hsome
      | some roles =>
        rw [hparties] at hdone
        exact Or.inr ⟨roles.1, roles.2, product, amount, ⟨hsend, hparties, hproduct⟩, hamount, hdone⟩
    · cases hdone
  · refine Or.inl ⟨(Turn.done.inj hdone).symm, ?_⟩
    rintro sender receiver product ⟨hx, -⟩
    exact hsend hx

omit [Float64 F] in
theorem parties_pair {sender receiver : String} (hparties : parties p a x = some (sender, receiver)) :
    ({sender, receiver} : Finset String) = {p, a} := by
  unfold parties at hparties
  split_ifs at hparties
  · cases hparties
    rfl
  · cases hparties
    exact Finset.pair_comm a p

theorem trades_cons (htrades : trades p a (x :: xs) h = some h') :
    ∃ h₁, turn p a x h = .done h₁ ∧ trades p a xs h₁ = some h' := by
  rw [trades] at htrades
  split at htrades
  · rename_i h₁ hturn
    exact ⟨h₁, hturn, htrades⟩
  · cases htrades

theorem trades_total (hexact : ExactAmounts val) (htrades : trades p a xs h = some h') (product : String) :
    totalOf val h' {p, a} product = totalOf val h {p, a} product := by
  induction xs generalizing h with
  | nil =>
    rw [trades, Option.some.injEq] at htrades
    rw [htrades]
  | cons x xs ih =>
    obtain ⟨h₁, hturn, hrest⟩ := trades_cons htrades
    rw [ih hrest]
    rcases turn_done hturn with ⟨rfl, -⟩ | ⟨sender, receiver, product', amount, hsends, -, htrade⟩
    · rfl
    · rw [← parties_pair hsends.2.1]
      exact trade_total hexact htrade product

theorem trades_frame (hexact : ExactAmounts val) (htrades : trades p a xs h = some h') (product : String)
    (hunsent : ∀ x ∈ xs, ∀ sender receiver, ¬ Sends p a x sender receiver product) (k : String) :
    h' k product = h k product := by
  induction xs generalizing h with
  | nil =>
    rw [trades, Option.some.injEq] at htrades
    rw [htrades]
  | cons x xs ih =>
    obtain ⟨h₁, hturn, hrest⟩ := trades_cons htrades
    rw [ih hrest fun y hy => hunsent y (List.mem_cons_of_mem x hy)]
    rcases turn_done hturn with ⟨rfl, -⟩ | ⟨sender, receiver, product', amount, hsends, -, htrade⟩
    · rfl
    · apply trade_frame hexact htrade
      rintro rfl
      exact hunsent x List.mem_cons_self sender receiver hsends

end Actions

/-! ## A trigger -/

/-- The action stands in a clause of the program. -/
def InCode (code : Code F) (x : Action F) : Prop := ∃ clause, some clause ∈ code.ifClauses ∧ some x ∈ clause.actions

omit [Float64 F] in
theorem mem_derefActions (as : List (Option (Action F))) (xs : List (Action F)) (h : derefActions as = .ok xs)
    (x : Action F) (hx : x ∈ xs) : some x ∈ as := by
  unfold derefActions at h
  induction as generalizing xs with
  | nil =>
    rw [List.mapM_nil, Outcome.pure_eq, Outcome.ok.injEq] at h
    rw [← h] at hx
    cases hx
  | cons y as ih =>
    cases y with
    | none => simp [List.mapM_cons] at h
    | some y =>
      simp only [List.mapM_cons, Option.elim_some, Outcome.ok_bind, Outcome.bind_eq_ok, Outcome.pure_eq,
        Outcome.ok.injEq] at h
      obtain ⟨ys, hys, rfl⟩ := h
      rcases List.mem_cons.mp hx with rfl | hx
      · exact List.mem_cons_self
      · exact List.mem_cons_of_mem _ (ih ys hys hx)

theorem mem_collectActionsLoop (c : Contract F) (w : World F) (n i : Nat) (tree tree' : StateNode)
    (collected xs : List (Action F)) (cs : List (Option (IfClause F)))
    (h : c.collectActionsLoop w n i tree collected cs = .ok (xs, tree')) (x : Action F) (hx : x ∈ xs) :
    x ∈ collected ∨ ∃ clause, some clause ∈ cs ∧ some x ∈ clause.actions := by
  induction cs generalizing i tree collected with
  | nil =>
    rw [Contract.collectActionsLoop, Outcome.ok.injEq, Prod.mk.injEq] at h
    rw [h.1]
    exact Or.inl hx
  | cons clause? cs ih =>
    cases clause? with
    | none => cases h
    | some clause =>
      simp only [Contract.collectActionsLoop, Outcome.bind_eq_ok] at h
      obtain ⟨holds, -, tree₁, -, h⟩ := h
      have hlater : (∃ clause', some clause' ∈ cs ∧ some x ∈ clause'.actions) →
          ∃ clause', some clause' ∈ some clause :: cs ∧ some x ∈ clause'.actions := by
        rintro ⟨clause', hmem, hx⟩
        exact ⟨clause', List.mem_cons_of_mem _ hmem, hx⟩
      split_ifs at h
      · simp only [Outcome.bind_eq_ok] at h
        obtain ⟨tree₂, -, actions, hactions, h⟩ := h
        rcases ih (i + 1) tree₂ (collected ++ actions) h with hmem | hmem
        · rcases List.mem_append.mp hmem with hmem | hmem
          · exact Or.inl hmem
          · exact Or.inr ⟨clause, List.mem_cons_self, mem_derefActions _ actions hactions x hmem⟩
        · exact Or.inr (hlater hmem)
      · rcases ih (i + 1) tree₁ collected h with hmem | hmem
        · exact Or.inl hmem
        · exact Or.inr (hlater hmem)

/-- The contract stored at the receiver of a trigger. -/
def Stored (env : Env F) (t : SignedTransaction F) (w : World F) (c : Contract F) : Prop :=
  ∃ s, w.account? t.receiver = some s ∧ env.unmarshalContract s.code = .ok c

omit [Float64 F] in
theorem Stored.unique {env : Env F} {t : SignedTransaction F} {w : World F} {c c' : Contract F}
    (h : Stored env t w c) (h' : Stored env t w c') : c = c' := by
  obtain ⟨s, hs, hc⟩ := h
  obtain ⟨s', hs', hc'⟩ := h'
  rw [hs, Option.some.injEq] at hs'
  rw [← hs', hc, Outcome.ok.injEq] at hc'
  exact hc'

/-- A plan is between the accounts of the stored contract, and its actions stand in the code. -/
theorem plan_of_stored {env : Env F} {t : SignedTransaction F} {w : World F} {c : Contract F} {plan : Plan F}
    (hstored : Stored env t w c) (hplan : planContract env t w = .ok (some plan)) :
    plan.proposer = c.proposerAccount ∧ plan.acceptor = c.acceptorAccount ∧
      ∀ x ∈ plan.actions, InCode c.codeAst x := by
  cases planned_of_plan env t w _ hplan with
  | agreed s c₀ c₁ c₂ actions hs hc hacceptor hvalid hcollect hp ha =>
    obtain rfl := hstored.unique ⟨s, hs, hc⟩
    refine ⟨rfl, rfl, ?_⟩
    intro x hx
    simp only [Contract.validateAssumptions, Contract.collectActions, Outcome.bind_eq_ok, Outcome.pure_eq,
      Outcome.ok.injEq, Prod.mk.injEq] at hvalid hcollect
    obtain ⟨marked, -, -, rfl⟩ := hvalid
    obtain ⟨⟨actions', tree⟩, hloop, rfl, -⟩ := hcollect
    rcases mem_collectActionsLoop _ w _ _ _ _ _ _ _ hloop x hx with hnil | hclause
    · cases hnil
    · exact hclause

/-- What `actions` between `p` and `a` keep on the way from `w` to `w'`. -/
structure Conserves (val : F → ℚ) (p a : String) (actions : List (Action F)) (w w' : World F) : Prop where
  total : ∀ product, totalOf val w'.holdings {p, a} product = totalOf val w.holdings {p, a} product
  covered : ∀ done x rest w₁ w₂ sender receiver product, actions = done ++ x :: rest →
    runActions p a done w = (.ok (), w₁) → runAction p a x w₁ = (.ok (), w₂) →
    Sends p a x sender receiver product → 0 ≤ amountOf val (w₂.holdings sender product)
  unsent : ∀ product, (∀ x ∈ actions, ∀ sender receiver, ¬ Sends p a x sender receiver product) →
    ∀ k, w'.holdings k product = w.holdings k product
  others : ∀ k, k ≠ p → k ≠ a → w'.get? k = w.get? k

/-- The lexer has no sign, so that no amount of a send is below zero. -/
def NonnegSends (val : F → ℚ) (code : Code F) : Prop :=
  ∀ x, InCode code x → x.action = "send" → ∀ n, numberParam x 1 = .ok n → 0 ≤ val n

section Plan

variable {p a : String} {w w' : World F} (hp : (w.account? p).isSome) (ha : (w.account? a).isSome)
include hp ha

theorem moved_of_ok (xs : List (Action F)) (hrun : runActions p a xs w = (.ok (), w')) :
    trades p a xs w.holdings = some w'.holdings ∧ Moved p a (payments xs) w'.holdings w w' := by
  rcases runActions_keeps hp ha xs with ⟨h, w'', htrades, hok, hmoved⟩ | ⟨done, x, rest, h, left, rfl, htrades, hx⟩ |
    ⟨why, hpanic⟩
  · rw [hrun, Prod.mk.injEq] at hok
    rw [← hok.2] at hmoved
    rw [hmoved.holdings]
    exact ⟨htrades, hmoved⟩
  · obtain ⟨e, w'', herr, -⟩ := runActions_of_refused hp ha done x rest h left htrades hx
    rw [hrun] at herr
    cases herr
  · rw [hrun] at hpanic
    cases hpanic

theorem runActions_conserves (hexact : ExactAmounts val) (actions : List (Action F))
    (hnonneg : ∀ x ∈ actions, x.action = "send" → ∀ n, numberParam x 1 = .ok n → 0 ≤ val n)
    (hrun : runActions p a actions w = (.ok (), w')) :
    Conserves val p a actions w (w'.update a State.addNonce) := by
  obtain ⟨htrades, hmoved⟩ := moved_of_ok hp ha actions hrun
  have hholdings : (w'.update a State.addNonce).holdings = w'.holdings := holdings_update_of_eq _ _ _ fun _ => rfl
  refine ⟨?_, ?_, ?_, ?_⟩
  · intro product
    rw [hholdings]
    exact trades_total hexact htrades product
  · rintro done x rest w₁ w₂ sender receiver product rfl hdone hx hsends
    obtain ⟨-, hmoved₁⟩ := moved_of_ok hp ha done hdone
    have hkeeps := runAction_keeps (w := w₁) (p := p) (a := a) (by rw [hmoved₁.isSome]; exact hp)
      (by rw [hmoved₁.isSome]; exact ha) x
    rw [hx] at hkeeps
    generalize hturn : turn p a x w₁.holdings = t at hkeeps
    cases hkeeps with
    | done h _ hmoved₂ =>
      rw [hmoved₂.holdings]
      rcases turn_done hturn with ⟨-, hnot⟩ | ⟨sender', receiver', product', amount, hsends', hamount, htrade⟩
      · exact (hnot sender receiver product hsends).elim
      · have hroles := hsends.2.1.symm.trans hsends'.2.1
        have hproduct := hsends.2.2.symm.trans hsends'.2.2
        cases hroles
        cases hproduct
        exact trade_covered hexact htrade (hnonneg x (by simp) hsends.1 amount hamount)
  · intro product hunsent k
    rw [hholdings]
    exact trades_frame hexact htrades product hunsent k
  · intro k hkp hka
    rw [get?_update_of_ne _ _ _ _ (Ne.symm hka)]
    exact hmoved.frame k hkp hka

end Plan

/-- A trigger that succeeds conserves every product among the two parties, covers every send, and
leaves the other products and the other accounts alone. Without valid assumptions it does nothing. -/
theorem contract_conserves_goods (val : F → ℚ) (hexact : ExactAmounts val) (env : Env F) (t : SignedTransaction F)
    (w w' : World F) (c : Contract F) (hstored : Stored env t w c) (hnonneg : NonnegSends val c.codeAst)
    (hdo : doContract env t w = (.ok (), w')) :
    ∃ actions, (planContract env t w = .ok none ∧ actions = [] ∨
        planContract env t w = .ok (some ⟨c.proposerAccount, c.acceptorAccount, actions⟩)) ∧
      Conserves val c.proposerAccount c.acceptorAccount actions w w' := by
  rcases doContract_eq_ok env t w w' hdo with ⟨hplan, rfl⟩ | ⟨⟨p, a, actions⟩, w₁, hplan, hrun, rfl⟩
  · refine ⟨[], Or.inl ⟨hplan, rfl⟩, fun _ => rfl, ?_, fun _ _ _ => rfl, fun _ _ _ => rfl⟩
    intro done x rest _ _ _ _ _ hactions
    simp at hactions
  · obtain ⟨-, hp, ha⟩ := plan_parties env t w _ hplan
    obtain ⟨rfl, rfl, hcode⟩ := plan_of_stored hstored hplan
    refine ⟨actions, Or.inr hplan, ?_⟩
    exact runActions_conserves hp ha hexact actions (fun x hx => hnonneg x (hcode x hx)) hrun

/-- The seller has three apples. -/
def appleWorld : World Int :=
  sampleWorld [(sampleAddress 0, ⟨0, 7, SimpleKV.put .new "apple" (.int 3), ""⟩),
    (sampleAddress 2, sampleState 0 5 ""), (sampleContractAddress, sampleState 0 0 (appleContract.marshal.getD ""))]

theorem exactAmounts_int : ExactAmounts (fun n : Int => (n : ℚ)) where
  ofInt _ := rfl
  add x y := Int.cast_add x y
  sub x y := Int.cast_sub x y
  lt x y := by
    rw [Int.cast_lt]
    exact decide_eq_true_iff

theorem appleContract_conserves :
    ∃ w', doContract (sampleEnv (some appleContract)) payTrigger appleWorld = (.ok (), w') ∧
      totalOf (fun n : Int => (n : ℚ)) w'.holdings {(sampleAddress 2).string, (sampleAddress 0).string} "apple" =
        totalOf (fun n : Int => (n : ℚ)) appleWorld.holdings {(sampleAddress 2).string, (sampleAddress 0).string}
          "apple" := by
  have hok : (doContract (sampleEnv (some appleContract)) payTrigger appleWorld).1.isOk = true := by decide
  have hthere : (appleWorld.account? payTrigger.receiver).isSome = true := by decide
  rcases hdo : doContract (sampleEnv (some appleContract)) payTrigger appleWorld with ⟨r, w'⟩
  rw [hdo] at hok
  obtain ⟨u, rfl⟩ := (Outcome.isOk_iff r).mp hok
  obtain ⟨s, hs⟩ := Option.isSome_iff_exists.mp hthere
  have hnonneg : NonnegSends (fun n : Int => (n : ℚ)) appleContract.codeAst := by
    rintro x ⟨clause, hclause, hx⟩ hsend n hn
    cases List.mem_singleton.mp hclause
    rcases List.mem_cons.mp hx with hx | hx
    · cases hx
      exact absurd hsend (by decide)
    · cases List.mem_singleton.mp hx
      cases hn
      exact zero_le_one
  obtain ⟨actions, -, hconserves⟩ := contract_conserves_goods (fun n : Int => (n : ℚ)) exactAmounts_int
    (sampleEnv (some appleContract)) payTrigger appleWorld w' appleContract ⟨s, hs, rfl⟩ hnonneg hdo
  exact ⟨w', rfl, hconserves.total "apple"⟩

end MarketPeer.Ledger

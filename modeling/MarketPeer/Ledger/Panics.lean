import MarketPeer.Contracts.Reached
import MarketPeer.Ledger.Execute

/-!
# Contracts that crash a miner

A parsed program panics in two places only: at a condition with no field or with a key
that is not stored, and at an action without the parameters of its kind. Whether the
execution gets there depends on the accounts.
-/

namespace MarketPeer.Contracts

open MarketPeer.Ledger

variable {F : Type}

/-! ## Actions -/

def Action.HasNumber (a : Action F) (i : Nat) : Prop := ∃ l, a.params[i]? = some (some l) ∧ l.number.isSome

def Action.HasString (a : Action F) (i : Nat) : Prop := ∃ l, a.params[i]? = some (some l) ∧ l.string.isSome

/-- The parameters that the action loop reads are there: an amount, or a product and an amount. -/
def Action.Typed (a : Action F) : Prop :=
  (a.action = "transfer" → a.HasNumber 0) ∧ (a.action = "send" → a.HasString 0 ∧ a.HasNumber 1)

theorem panics_numberParam (a : Action F) (i : Nat) : (numberParam a i).Panics ↔ ¬ a.HasNumber i := by
  unfold numberParam param Action.HasNumber
  rw [Outcome.panics_bind]
  cases hp : a.params[i]? with
  | none => simp
  | some p =>
    cases p with
    | none => simp
    | some l => cases hl : l.number <;> simp [hl]

theorem panics_stringParam (a : Action F) (i : Nat) : (stringParam a i).Panics ↔ ¬ a.HasString i := by
  unfold stringParam param Action.HasString
  rw [Outcome.panics_bind]
  cases hp : a.params[i]? with
  | none => simp
  | some p =>
    cases p with
    | none => simp
    | some l => cases hl : l.string <;> simp [hl]

end MarketPeer.Contracts

namespace MarketPeer.Ledger

open MarketPeer.Contracts

variable {F α : Type}

theorem wrapErr_ok (format : String) (a : α) : wrapErr format (.ok a : Res F α) = .ok a := rfl

theorem panics_wrapErr (format : String) (r : Res F α) : (wrapErr format r).Panics ↔ r.Panics := by
  cases r <;> simp [wrapErr]

theorem panics_andThen (r : Res F α) (w : World F) (k : α → Res F Unit × World F) :
    (andThen r w k).1.Panics ↔ r.Panics ∨ ∃ a, r = .ok a ∧ (k a).1.Panics := by
  cases r <;> simp [andThen]

variable [Float64 F]

theorem not_panics_sendOut (sender product : String) (amount : F) (castFormat : String) (w : World F) :
    ¬ (sendOut sender product amount castFormat w).Panics := by
  unfold sendOut
  split
  · simp
  · split
    · simp
    · split_ifs <;> simp

theorem not_panics_sendIn (receiver product : String) (amount : F) (w : World F) :
    ¬ (sendIn receiver product amount w).Panics := by
  unfold sendIn
  split
  · simp
  · split <;> simp

theorem panics_runTransfer (proposer acceptor : String) (a : Action F) (w : World F) :
    (runTransfer proposer acceptor a w).1.Panics ↔ ¬ a.HasNumber 0 := by
  unfold runTransfer
  rw [panics_andThen, panics_numberParam]
  constructor
  · rintro (h | ⟨n, -, h⟩)
    · exact h
    · split_ifs at h <;> simp at h
  · exact Or.inl

theorem panics_runSend (proposer acceptor : String) (a : Action F) (w : World F) :
    (runSend proposer acceptor a w).1.Panics ↔ ¬ (a.HasString 0 ∧ a.HasNumber 1) := by
  -- Past its parameters a send can only fail with an error.
  have hrest : ∀ product amount, ¬ (if a.role = "buyer" then
      andThen (sendOut proposer product amount "cannot cast to float: %v" w) w fun w =>
      andThen (sendIn acceptor product amount w) w fun w => ((.ok () : Res F Unit), w)
    else if a.role = "seller" then
      andThen (sendOut acceptor product amount "cannot cast to float: %T" w) w fun w =>
      andThen (sendIn proposer product amount w) w fun w => (.ok (), w)
    else (.ok (), w)).1.Panics := by
    intro product amount
    split_ifs <;> simp [panics_andThen, not_panics_sendOut, not_panics_sendIn]
  unfold runSend
  rw [panics_andThen, panics_stringParam]
  constructor
  · rintro (h | ⟨product, -, h⟩) hparams
    · exact h hparams.1
    · rw [panics_andThen, panics_numberParam] at h
      rcases h with h | ⟨amount, -, h⟩
      · exact h hparams.2
      · exact hrest product amount h
  · intro h
    by_cases hstring : a.HasString 0
    · have hnumber : ¬ a.HasNumber 1 := fun hn => h ⟨hstring, hn⟩
      cases hp : stringParam a 0 with
      | ok product => exact Or.inr ⟨product, rfl, (panics_andThen ..).mpr (Or.inl ((panics_numberParam a 1).mpr hnumber))⟩
      | err e =>
        obtain ⟨l, hl, hs⟩ := hstring
        obtain ⟨s, hs⟩ := Option.isSome_iff_exists.mp hs
        simp [stringParam, param, hl, hs] at hp
      | panic why => exact absurd hstring ((panics_stringParam a 0).mp ⟨why, hp⟩)
    · exact Or.inl hstring

theorem panics_runAction (proposer acceptor : String) (a : Action F) (ha : a.Parsed) (w : World F) :
    (runAction proposer acceptor a w).1.Panics ↔ ¬ a.Typed := by
  unfold runAction Action.Typed
  rcases ha.action with h | h
  · simp [h, panics_runTransfer]
  · simp [h, panics_runSend]

/-- The actions that the loop comes to, until one fails. -/
def startedActions (proposer acceptor : String) : List (Action F) → World F → List (Action F)
  | [], _ => []
  | a :: rest, w =>
    a :: match runAction proposer acceptor a w with
      | (.ok _, w') => startedActions proposer acceptor rest w'
      | _ => []

theorem startedActions_subset (proposer acceptor : String) (as : List (Action F)) (w : World F) :
    startedActions proposer acceptor as w ⊆ as := by
  induction as generalizing w with
  | nil => simp [startedActions]
  | cons a as ih =>
    unfold startedActions
    split
    · exact List.cons_subset_cons a (ih _)
    · simp

theorem panics_runActions (proposer acceptor : String) (as : List (Action F)) (has : ∀ a ∈ as, a.Parsed)
    (w : World F) :
    (runActions proposer acceptor as w).1.Panics ↔ ∃ a ∈ startedActions proposer acceptor as w, ¬ a.Typed := by
  induction as generalizing w with
  | nil => simp [runActions, startedActions]
  | cons a as ih =>
    have hpanic := panics_runAction proposer acceptor a (has a List.mem_cons_self) w
    unfold runActions startedActions
    cases h : runAction proposer acceptor a w with
    | mk r w' =>
      rw [h] at hpanic
      cases r with
      | ok u =>
        have htyped : a.Typed := by
          by_contra hn
          exact Outcome.not_panics_ok _ (hpanic.mpr hn)
        simp [ih (fun b hb => has b (List.mem_cons_of_mem a hb)), htyped]
      | err e =>
        have htyped : a.Typed := by
          by_contra hn
          exact Outcome.not_panics_err _ (hpanic.mpr hn)
        simp [htyped]
      | panic why => simpa using hpanic

/-! ## A whole contract -/

/-- The actions of a contract that are executed or fail. -/
def reachedActions (c : Contract F) (w : World F) : List (Action F) :=
  if c.codeAst.assumed.all (c.holds w) ∧ c.codeAst.guards.all (fun d => (c.validateCondition d w).isOk) then
    startedActions c.proposerAccount c.acceptorAccount (c.chosen w c.codeAst.ifClauses) w
  else []

theorem reachedActions_subset (c : Contract F) (w : World F) :
    reachedActions c w ⊆ c.chosen w c.codeAst.ifClauses := by
  unfold reachedActions
  split_ifs
  · exact startedActions_subset _ _ _ _
  · simp

/-- The contract is in the account that the transaction is sent to, as `Marshal` wrote it, and the
acceptor triggers it. That `json.Unmarshal` gives it back is what is taken from the decoder. -/
structure Deployed (env : Env F) (c : Contract F) (txn : SignedTransaction F) (w : World F) : Prop where
  code : ∃ text s, c.marshal = some text ∧ env.unmarshalContract text = .ok c ∧
    w.account? txn.txn.toAddr.string = some s ∧ s.code = text
  parties : c.PartiesIn w
  trigger : txn.txn.fromAddr.string = c.acceptorAccount

section Deployed

variable {env : Env F} {c : Contract F} {txn : SignedTransaction F} {w : World F}
  (h : Deployed env c txn w) (hcode : c.codeAst.Parsed) (hfresh : c.stateTree = constructStateTree c.codeAst)
include h hcode hfresh

/-- Of the way to the action loop only the evaluation of the conditions is left. -/
theorem planContract_eq : planContract env txn w = (do
    let _ ← wrapErr "validating contract assumptions got stuck: %w" (c.codeAst.assumed.mapM (c.validateCondition · w))
    if c.codeAst.assumed.all (c.holds w) then do
      let _ ← wrapErr "contract if clauses fail to evaluate: %w" (c.codeAst.guards.mapM (c.validateCondition · w))
      return some ⟨c.proposerAccount, c.acceptorAccount, c.chosen w c.codeAst.ifClauses⟩
    else return none) := by
  obtain ⟨text, s, -, hunmarshal, hs, rfl⟩ := h.code
  obtain ⟨p, hp⟩ := Option.isSome_iff_exists.mp h.parties.proposer
  obtain ⟨a, ha⟩ := Option.isSome_iff_exists.mp h.parties.acceptor
  obtain ⟨tree, htree, hassumptions⟩ := validateAssumptions_eq (w := w) hcode hfresh
  obtain ⟨tree', hactions⟩ := collectActions_eq (w := w) hcode tree htree
  have hretrieve : ∀ key s, w.account? key = some s → retrieveState key w = .ok s :=
    fun key s hkey => (World.lookup_eq_ok ..).mpr hkey
  unfold planContract
  rw [hretrieve _ s hs, Outcome.ok_bind, hunmarshal, wrapErr_ok, Outcome.ok_bind,
    if_neg (not_not.mpr h.trigger), hassumptions]
  cases hA : c.codeAst.assumed.mapM (c.validateCondition · w) with
  | err e => rfl
  | panic why => rfl
  | ok bs =>
    cases hall : c.codeAst.assumed.all (c.holds w) with
    | false => rfl
    | true =>
      simp only [Outcome.ok_bind, Outcome.pure_eq, wrapErr, Bool.not_true, Bool.false_eq_true, if_false, if_true,
        hactions]
      cases hG : c.codeAst.guards.mapM (c.validateCondition · w) with
      | err e => rfl
      | panic why => rfl
      | ok gs =>
        simp only [Outcome.ok_bind, hretrieve _ p hp, hretrieve _ a ha]

theorem panics_planContract : (planContract env txn w).Panics ↔ ∃ d ∈ c.reachedConditions w, ¬ c.SafeAt w d := by
  have hpanics : ∀ d ∈ c.reachedConditions w, ((c.validateCondition d w).Panics ↔ ¬ c.SafeAt w d) := by
    intro d hd
    apply panics_validateCondition h.parties
    rcases mem_of_reachedConditions hd with hd | hd
    · exact assumed_parsed hcode d hd
    · exact guards_parsed hcode d hd
  rw [← exists_congr fun d => and_congr_right (hpanics d), planContract_eq h hcode hfresh, Outcome.panics_bind,
    panics_wrapErr, Outcome.panics_mapM]
  unfold Contract.reachedConditions
  by_cases hall : c.codeAst.assumed.all (c.holds w) = true
  · obtain ⟨bs, hbs⟩ := (Outcome.isOk_iff _).mp (isOk_of_holds hall)
    simp only [hbs, wrapErr_ok, Outcome.ok.injEq, hall, if_true, exists_eq_left', Outcome.panics_bind, panics_wrapErr,
      Outcome.panics_mapM, Outcome.pure_eq, Outcome.not_panics_ok, and_false, exists_false, or_false,
      List.mem_append, or_and_right, exists_or]
  · simp only [hall, Bool.false_eq_true, if_false, Outcome.pure_eq, Outcome.not_panics_ok, and_false, exists_false,
      or_false, List.append_nil]

/-- The plan that is carried out is that of the chosen actions. -/
theorem planContract_eq_some (plan : Plan F) : planContract env txn w = .ok (some plan) ↔
    (c.codeAst.assumed.all (c.holds w) = true ∧
      c.codeAst.guards.all (fun d => (c.validateCondition d w).isOk) = true) ∧
    plan = ⟨c.proposerAccount, c.acceptorAccount, c.chosen w c.codeAst.ifClauses⟩ := by
  rw [planContract_eq h hcode hfresh, ← Outcome.isOk_mapM]
  by_cases hall : c.codeAst.assumed.all (c.holds w) = true
  · obtain ⟨bs, hbs⟩ := (Outcome.isOk_iff _).mp (isOk_of_holds hall)
    simp only [hbs, wrapErr_ok, Outcome.ok_bind, hall, if_true, true_and]
    cases hG : c.codeAst.guards.mapM (c.validateCondition · w) with
    | ok gs => simp [wrapErr, eq_comm]
    | err e => simp [wrapErr]
    | panic why => simp [wrapErr]
  · simp [Outcome.bind_eq_ok, hall]

theorem panics_doContract : (doContract env txn w).1.Panics ↔
    (∃ d ∈ c.reachedConditions w, ¬ c.SafeAt w d) ∨ ∃ a ∈ reachedActions c w, ¬ a.Typed := by
  unfold doContract
  rw [panics_andThen, panics_planContract h hcode hfresh]
  refine or_congr_right ?_
  have hrun := panics_runActions c.proposerAccount c.acceptorAccount _ (chosen_parsed (w := w) hcode) w
  unfold reachedActions
  constructor
  · rintro ⟨plan, hplan, hpanics⟩
    cases plan with
    | none => simp at hpanics
    | some plan =>
      obtain ⟨hreached, rfl⟩ := (planContract_eq_some h hcode hfresh plan).mp hplan
      rw [if_pos hreached]
      rcases (panics_andThen ..).mp hpanics with hpanics | ⟨u, -, hpanics⟩
      · exact hrun.mp hpanics
      · simp at hpanics
  · rintro ⟨a, ha, htyped⟩
    split_ifs at ha with hreached
    · refine ⟨_, (planContract_eq_some h hcode hfresh _).mpr ⟨hreached, rfl⟩, ?_⟩
      exact (panics_andThen ..).mpr (Or.inl (hrun.mpr ⟨a, ha, htyped⟩))
    · cases ha

end Deployed

/-- A contract that was made of a parsed program does not panic if and only if every condition that
is evaluated has a field, with a value where it is the only one, and every action that is reached has
its parameters. -/
theorem contract_total_iff (env : Env F) (code : Code F) (hcode : code.Parsed)
    (contractId contractName plainCode proposer acceptor : String) (txn : SignedTransaction F) (w : World F)
    (h : Deployed env (newContract contractId contractName plainCode code proposer acceptor) txn w) :
    ¬ (doContract env txn w).1.Panics ↔
      (∀ d ∈ (newContract contractId contractName plainCode code proposer acceptor).reachedConditions w,
        (newContract contractId contractName plainCode code proposer acceptor).SafeAt w d) ∧
      ∀ a ∈ reachedActions (newContract contractId contractName plainCode code proposer acceptor) w, a.Typed := by
  rw [panics_doContract h hcode rfl]
  simp only [not_or, not_exists, not_and, not_not]

/-- `IF buyer.balance > 1 THEN buyer.transfer(...)`. -/
def payCode (params : List (Option (Literal Int))) : Code Int :=
  ⟨[], [some ⟨⟨⟨"buyer", [some ⟨"balance"⟩]⟩, ">", ⟨none, some 1⟩⟩, [some ⟨"buyer", "transfer", params⟩]⟩]⟩

theorem payCode_parsed (params : List (Option (Literal Int))) (h : ∀ p ∈ params, ∃ l, p = some l ∧ l.Parsed) :
    (payCode params).Parsed := by
  refine ⟨by simp [payCode], ?_⟩
  intro c hc
  rw [payCode, List.mem_singleton] at hc
  refine ⟨_, hc, ⟨Or.inl rfl, by simp, by simp, Or.inr ⟨rfl, rfl⟩⟩, by simp, ?_⟩
  intro a ha
  rw [List.mem_singleton] at ha
  exact ⟨_, ha, Or.inl rfl, Or.inl rfl, h⟩

def payContract (plainCode : String) (params : List (Option (Literal Int))) : Contract Int :=
  newContract "1" "pay" plainCode (payCode params) (sampleAddress 2).string (sampleAddress 0).string

def payWorld (c : Contract Int) : World Int :=
  sampleWorld [(sampleAddress 0, sampleState 0 7 ""), (sampleAddress 2, sampleState 0 5 ""),
    (sampleContractAddress, sampleState 0 0 (c.marshal.getD ""))]

def payTrigger : SignedTransaction Int :=
  sampleSigned 0 (sampleTxn 0 (sampleAddress 0) sampleContractAddress EXEC_CONTRACT 0)

theorem payContract_deployed (plainCode : String) (params : List (Option (Literal Int)))
    (hmarshal : (payContract plainCode params).marshal.isSome) :
    Deployed (sampleEnv (some (payContract plainCode params))) (payContract plainCode params) payTrigger
      (payWorld (payContract plainCode params)) := by
  obtain ⟨text, htext⟩ := Option.isSome_iff_exists.mp hmarshal
  have hworld : ∀ key, (payWorld (payContract plainCode params)).account? key =
      if sampleContractAddress.string = key then some (sampleState 0 0 text)
      else if (sampleAddress 2).string = key then some (sampleState 0 5 "")
      else if (sampleAddress 0).string = key then some (sampleState 0 7 "")
      else none := by
    intro key
    simp only [payWorld, sampleWorld, List.foldl_cons, List.foldl_nil, World.account?_put_account, htext,
      Option.getD_some]
    rfl
  have hother : sampleContractAddress.string ≠ (sampleAddress 2).string ∧
      sampleContractAddress.string ≠ (sampleAddress 0).string ∧
      (sampleAddress 2).string ≠ (sampleAddress 0).string := by decide
  refine ⟨⟨text, sampleState 0 0 text, htext, rfl, ?_, rfl⟩, ⟨?_, ?_⟩, rfl⟩
  · exact (hworld _).trans (if_pos rfl)
  · rw [hworld, payContract, newContract, if_neg hother.1, if_pos rfl]
    rfl
  · rw [hworld, payContract, newContract, if_neg hother.2.1, if_neg hother.2.2, if_pos rfl]
    rfl

theorem payTwo_total :
    ¬ (doContract (sampleEnv (some (payContract "IF buyer.balance > 1 THEN buyer.transfer(2)" [some ⟨none, some 2⟩])))
      payTrigger (payWorld (payContract "IF buyer.balance > 1 THEN buyer.transfer(2)" [some ⟨none, some 2⟩]))).1.Panics := by
  refine (contract_total_iff _ (payCode [some ⟨none, some 2⟩]) ?_ "1" "pay"
    "IF buyer.balance > 1 THEN buyer.transfer(2)" _ _ payTrigger _
    (payContract_deployed _ _ (by decide))).mpr ⟨?_, ?_⟩
  · exact payCode_parsed _ (by simp [Literal.Parsed])
  · intro d hd
    have hguard := (mem_of_reachedConditions hd).resolve_left (by simp [newContract, payCode, Code.assumed])
    simp only [newContract, payCode, Code.guards, List.filterMap_cons, List.filterMap_nil, Option.map_some,
      List.mem_singleton] at hguard
    subst hguard
    refine ⟨by simp, ?_⟩
    intro f s hf _
    cases hf
    exact Or.inl rfl
  · intro a ha
    obtain ⟨x, hx, ha⟩ := mem_chosen (reachedActions_subset _ _ ha)
    cases List.mem_singleton.mp hx
    cases List.mem_singleton.mp ha
    exact ⟨fun _ => ⟨⟨none, some 2⟩, rfl, rfl⟩, by simp⟩

/-- The grammar lets an action have no parameter at all. -/
theorem payNothing_panics :
    (payCode []).Parsed ∧
    Deployed (sampleEnv (some (payContract "IF buyer.balance > 1 THEN buyer.transfer()" [])))
      (payContract "IF buyer.balance > 1 THEN buyer.transfer()" []) payTrigger
      (payWorld (payContract "IF buyer.balance > 1 THEN buyer.transfer()" [])) ∧
    (doContract (sampleEnv (some (payContract "IF buyer.balance > 1 THEN buyer.transfer()" []))) payTrigger
      (payWorld (payContract "IF buyer.balance > 1 THEN buyer.transfer()" []))).1.Panics := by
  refine ⟨payCode_parsed [] (by simp), payContract_deployed _ _ (by decide), outOfRange, ?_⟩
  exact (Outcome.why?_eq_some ..).mp (by decide)

end MarketPeer.Ledger

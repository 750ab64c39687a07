import MarketPeer.Contracts.Progress
import MarketPeer.Ledger.Goods
import MarketPeer.Ledger.Validity
import MarketPeer.Lib.Runs

/-!
# The progress of a contract

A trigger decodes the contract, marks the state tree of its own copy, carries the actions
out and drops the copy: the code in the account stays what it was. What a run marks in
the tree is recorded only if it was marked before.
-/

namespace MarketPeer.Contracts

open MarketPeer.Ledger

variable {F : Type} [Float64 F]

/-- The action nodes that an evaluation carries out, by clause and place in the clause. -/
def Contract.applied (c : Contract F) (w : World F) : List (Nat × Nat) :=
  if c.codeAst.assumed.all (c.holds w) then
    c.codeAst.ifClauses.zipIdx.flatMap fun (clause?, i) => clause?.elim [] fun clause =>
      if c.holds w clause.condition then
        ((List.range clause.actions.length).filter fun j =>
          (c.stateTree.action? (i + c.codeAst.assumptions.length) j).isSome).map (i, ·)
      else []
  else []

theorem mem_applied {c : Contract F} {w : World F} {i j : Nat} (h : (i, j) ∈ c.applied w) :
    c.codeAst.assumed.all (c.holds w) = true ∧ ∃ clause n, c.codeAst.ifClauses[i]? = some (some clause) ∧
      c.holds w clause.condition = true ∧
      c.stateTree.action? (i + c.codeAst.assumptions.length) j = some n := by
  unfold Contract.applied at h
  split_ifs at h with hall
  · refine ⟨hall, ?_⟩
    obtain ⟨⟨clause?, k⟩, hmem, h⟩ := List.mem_flatMap.mp h
    cases clause? with
    | none => cases h
    | some clause =>
      simp only [Option.elim_some] at h
      split_ifs at h with hholds
      · simp only [List.mem_map, List.mem_filter, Prod.mk.injEq] at h
        obtain ⟨j', ⟨-, hnode⟩, rfl, rfl⟩ := h
        obtain ⟨n, hn⟩ := Option.isSome_iff_exists.mp hnode
        exact ⟨clause, n, List.mem_zipIdx_iff_getElem?.mp hmem, hholds, hn⟩
      · cases h
  · cases h

end MarketPeer.Contracts

namespace MarketPeer.Ledger

open MarketPeer.Contracts

variable {F : Type} [Float64 F]

/-! ## One trigger -/

/-- The tree in the account after a trigger has the flags that the trigger has set, and no action
that the tree before had marked executed was carried out. -/
def RecordsProgress (env : Env F) (t : SignedTransaction F) (w : World F) : Prop :=
  t.isTrigger → ∀ w', doContract env t w = (.ok (), w') →
    ∃ c actions c' c'', Stored env t w c ∧ c.evaluate w = .ok (actions, c') ∧ Stored env t w' c'' ∧
      c''.stateTree = c'.stateTree ∧
      ∀ i j n, (i, j) ∈ c.applied w → c.stateTree.action? (i + c.codeAst.assumptions.length) j = some n →
        n.isExecuted = false

/-- The stored tree has all flags that a trigger would set, and the trigger carries nothing out. -/
def NothingToRecord (env : Env F) (t : SignedTransaction F) (w : World F) : Prop :=
  t.isTrigger → (doContract env t w).1.isOk = true → ∀ c, Stored env t w c → c.AllMarked w ∧ c.applied w = []

section Trigger

variable {env : Env F} {t : SignedTransaction F} {w w' : World F} {c : Contract F}

theorem plan_evaluates {plan? : Option (Plan F)} (hplan : planContract env t w = .ok plan?) :
    ∃ c actions c', Stored env t w c ∧ c.evaluate w = .ok (actions, c') := by
  cases planned_of_plan env t w plan? hplan with
  | idle s c c₁ hs hc hvalid =>
    refine ⟨c, [], c₁, ⟨s, hs, hc⟩, ?_⟩
    simp [Contract.evaluate, hvalid]
  | agreed s c c₁ c₂ actions hs hc hacceptor hvalid hcollect hp ha =>
    refine ⟨c, actions, c₂, ⟨s, hs, hc⟩, ?_⟩
    simp [Contract.evaluate, hvalid, hcollect]

/-- The plan of a trigger that succeeds, and what it moved. -/
theorem doContract_ok (hdo : doContract env t w = (.ok (), w')) :
    (∃ plan?, planContract env t w = .ok plan?) ∧
      ∀ k, w'.view State.code k = w.view State.code k := by
  rcases doContract_eq_ok env t w w' hdo with ⟨hplan, rfl⟩ | ⟨plan, w₁, hplan, hrun, rfl⟩
  · exact ⟨⟨none, hplan⟩, fun _ => rfl⟩
  · refine ⟨⟨some plan, hplan⟩, ?_⟩
    intro k
    obtain ⟨-, hp, ha⟩ := plan_parties env t w plan hplan
    rw [view_update_of_eq _ _ _ _ State.addNonce fun _ => rfl]
    have hrest := congrArg (Option.map Prod.snd) ((moved_of_ok hp ha plan.actions hrun).2.rest k)
    simpa [World.view, Function.comp_def] using hrest

/-- The contract account has the same code afterwards. -/
theorem doContract_stored (hdo : doContract env t w = (.ok (), w')) (hstored : Stored env t w c) :
    Stored env t w' c := by
  obtain ⟨s, hs, hc⟩ := hstored
  have hcode := (doContract_ok hdo).2 t.receiver
  simp only [World.view, hs, Option.map_some, Option.map_eq_some_iff] at hcode
  obtain ⟨s', hs', hcode⟩ := hcode
  exact ⟨s', hs', by rw [hcode, hc]⟩

/-- A trigger records its progress exactly when it has none to record. -/
theorem recordsProgress_iff : RecordsProgress env t w ↔ NothingToRecord env t w := by
  constructor
  · intro h ht hok c hstored
    rcases hdo : doContract env t w with ⟨r, w'⟩
    rw [hdo] at hok
    obtain ⟨u, rfl⟩ := (Outcome.isOk_iff r).mp hok
    obtain ⟨c₀, actions, c', c'', hstored₀, heval, hstored'', htree, hfresh⟩ := h ht w' hdo
    obtain rfl := hstored.unique hstored₀
    obtain rfl := (doContract_stored hdo hstored).unique hstored''
    have hmarked := evaluate_allMarked heval htree.symm
    refine ⟨hmarked, List.eq_nil_iff_forall_not_mem.mpr ?_⟩
    rintro ⟨i, j⟩ hnode
    obtain ⟨hall, clause, n, hclause, hholds, hn⟩ := mem_applied hnode
    have hexecuted := ((hmarked.clauses hall i clause hclause).2 hholds).isExecuted hn
    rw [hfresh i j n hnode hn] at hexecuted
    cases hexecuted
  · intro h ht w' hdo
    obtain ⟨⟨plan?, hplan⟩, -⟩ := doContract_ok hdo
    obtain ⟨c, actions, c', hstored, heval⟩ := plan_evaluates hplan
    obtain ⟨hmarked, happlied⟩ := h ht (by rw [hdo]; rfl) c hstored
    refine ⟨c, actions, c', c, hstored, heval, doContract_stored hdo hstored, ?_, ?_⟩
    · rw [evaluate_same hmarked heval]
    · simp [happlied]

end Trigger

/-! ## Runs -/

/-- The world state, and the action nodes that have been carried out so far, each with the address of
its contract. -/
structure Progress (F : Type) where
  world : World F
  applied : List (String × Nat × Nat)

/-- The action nodes that a transaction carries out. -/
def appliedBy (env : Env F) (t : SignedTransaction F) (w : World F) : List (String × Nat × Nat) :=
  if t.txn.toAddr.isContract = true ∧ t.txn.type ≠ CREATE_CONTRACT ∧ (doContract env t w).1.isOk = true then
    (w.account? t.receiver).elim [] fun s =>
      match env.unmarshalContract s.code with
      | .ok c => (c.applied w).map (t.receiver, ·)
      | _ => []
  else []

def progressStep (env : Env F) (s : Progress F) (t : SignedTransaction F) : Option (Progress F) :=
  some ⟨(executeTxn env t s.world).2, s.applied ++ appliedBy env t s.world⟩

theorem appliedBy_eq_nil {env : Env F} {t : SignedTransaction F} {w : World F} (h : NothingToRecord env t w) :
    appliedBy env t w = [] := by
  unfold appliedBy
  split_ifs with ht
  · cases hs : w.account? t.receiver with
    | none => rfl
    | some s =>
      simp only [Option.elim_some]
      cases hc : env.unmarshalContract s.code with
      | ok c => simp [(h ⟨ht.1, ht.2.1⟩ ht.2.2 c ⟨s, hs, hc⟩).2]
      | err e => rfl
      | panic why => rfl
  · rfl

/-- No trigger that can be executed calls a contract with an assumption or a clause. -/
def NothingToMark (env : Env F) (t : SignedTransaction F) (w : World F) : Prop :=
  t.isTrigger → Executable env t w → ∀ c, Stored env t w c → c.Silent

theorem NothingToMark.nothingToRecord {env : Env F} {t : SignedTransaction F} {w : World F}
    (h : NothingToMark env t w) : NothingToRecord env t w := by
  intro ht hok c hstored
  rw [← executeTxn_trigger env t w ht, executeTxn_isOk_iff] at hok
  obtain ⟨hassumptions, hclauses⟩ := h ht hok c hstored
  refine ⟨⟨?_, ?_⟩, ?_⟩
  · simp [hassumptions]
  · simp [hclauses]
  · simp [Contract.applied, hclauses]

/-- A contract as `NewContract` makes it has its progress recorded exactly when it has nothing to mark. -/
theorem recordsProgress_iff_nothingToMark {env : Env F} {t : SignedTransaction F} {w : World F}
    (hfresh : ∀ c, Stored env t w c → c.Fresh) : RecordsProgress env t w ↔ NothingToMark env t w := by
  rw [recordsProgress_iff]
  refine ⟨fun h ht hexec c hstored => ?_, NothingToMark.nothingToRecord⟩
  rw [← executeTxn_isOk_iff, executeTxn_trigger env t w ht] at hexec
  obtain ⟨w', hdo⟩ : ∃ w', doContract env t w = (.ok (), w') := by
    obtain ⟨u, hu⟩ := (Outcome.isOk_iff _).mp hexec
    exact ⟨(doContract env t w).2, Prod.ext hu rfl⟩
  obtain ⟨plan?, hplan⟩ := (doContract_ok hdo).1
  obtain ⟨c', actions, c'', hstored', heval⟩ := plan_evaluates hplan
  obtain rfl := hstored.unique hstored'
  exact silent_of_allMarked (hfresh c hstored) (h ht hexec c hstored).1 heval

/-- The progress of a contract as `NewContract` makes it is recorded only when no trigger can be executed
or there is no node; whatever the tree, a trigger that carries an action out does not record it. In a run
without such triggers every step records its progress, and no action is carried out twice. -/
theorem progress_recorded (env : Env F) :
    (∀ (t : SignedTransaction F) (w : World F), (∀ c, Stored env t w c → c.Fresh) →
      (RecordsProgress env t w ↔ NothingToMark env t w)) ∧
    (∀ (t : SignedTransaction F) (w : World F), appliedBy env t w ≠ [] → ¬ RecordsProgress env t w) ∧
    ∀ (genesis : World F) (txns : List (SignedTransaction F)) (s : Progress F),
      run (progressStep env) ⟨genesis, []⟩ txns = some s →
      Meets (progressStep env) (fun s t => NothingToMark env t s.world) ⟨genesis, []⟩ txns →
      Meets (progressStep env) (fun s t => RecordsProgress env t s.world) ⟨genesis, []⟩ txns ∧ s.applied.Nodup := by
  refine ⟨fun t w => recordsProgress_iff_nothingToMark,
    fun t w happlied hrecords => happlied (appliedBy_eq_nil (recordsProgress_iff.mp hrecords)), ?_⟩
  intro genesis txns s hrun hnothing
  refine ⟨meets_mono (fun s t h => recordsProgress_iff.mpr h.nothingToRecord) txns hnothing, ?_⟩
  have hinv : s.applied = [] := by
    refine run_invariant (fun s : Progress F => s.applied = []) ?_ txns rfl hnothing hrun
    intro s t s' happlied hnothing hstep
    rw [← Option.some.inj hstep]
    simp [happlied, appliedBy_eq_nil hnothing.nothingToRecord]
  rw [hinv]
  exact List.nodup_nil

def payTwoContract : Contract Int :=
  payContract "IF buyer.balance > 1 THEN buyer.transfer(2)" [some ⟨none, some 2⟩]

def secondTrigger : SignedTransaction Int :=
  sampleSigned 0 (sampleTxn 1 (sampleAddress 0) sampleContractAddress EXEC_CONTRACT 0)

/-- The buyer, who is not the acceptor, calls the contract. -/
def buyerTrigger : SignedTransaction Int :=
  sampleSigned 2 (sampleTxn 0 (sampleAddress 2) sampleContractAddress EXEC_CONTRACT 0)

/-- Triggers that are refused have nothing to record. -/
theorem buyerTrigger_recorded :
    RecordsProgress (sampleEnv (some payTwoContract)) buyerTrigger (payWorld payTwoContract) ∧
    ∃ s, run (progressStep (sampleEnv (some payTwoContract))) ⟨payWorld payTwoContract, []⟩
        [buyerTrigger, buyerTrigger] = some s ∧ s.applied.Nodup := by
  obtain ⟨hiff, -, hruns⟩ := progress_recorded (sampleEnv (some payTwoContract))
  have hnothing : ∀ w, NothingToMark (sampleEnv (some payTwoContract)) buyerTrigger w := by
    intro w ht hexec
    have hstranger : buyerTrigger.sender ≠ payTwoContract.acceptorAccount := by decide
    cases hexec with
    | moved ht' => exact absurd ht'.1 (by decide)
    | stored _ hc => exact absurd hc (by decide)
    | created hcreate => exact absurd hcreate (by decide)
    | idle _ s c c₁ _ hc hacceptor =>
      cases hc
      exact absurd hacceptor hstranger
    | ran _ s c c₁ c₂ actions _ hc hacceptor =>
      cases hc
      exact absurd hacceptor hstranger
  refine ⟨(hiff buyerTrigger (payWorld payTwoContract) ?_).mpr (hnothing _), ?_⟩
  · rintro c ⟨s, hs, hc⟩
    cases hc
    rfl
  · obtain ⟨s, hrun⟩ : ∃ s, run (progressStep (sampleEnv (some payTwoContract))) ⟨payWorld payTwoContract, []⟩
        [buyerTrigger, buyerTrigger] = some s := ⟨_, rfl⟩
    refine ⟨s, hrun, (hruns _ _ s hrun (meets_of_forall _ ?_)).2⟩
    intro t ht s
    rcases List.mem_cons.mp ht with rfl | ht
    · exact hnothing s.world
    · rw [List.mem_singleton.mp ht]
      exact hnothing s.world

/-- The seller calls the contract twice, and the buyer pays twice. -/
theorem payTwoContract_repeated :
    ¬ RecordsProgress (sampleEnv (some payTwoContract)) payTrigger (payWorld payTwoContract) ∧
    ∃ s, run (progressStep (sampleEnv (some payTwoContract))) ⟨payWorld payTwoContract, []⟩
        [payTrigger, secondTrigger] = some s ∧
      ¬ s.applied.Nodup ∧ s.world.view State.balance (sampleAddress 2).string = some 1 := by
  constructor
  · rw [recordsProgress_iff]
    intro h
    have hthere : ((payWorld payTwoContract).account? payTrigger.receiver).isSome = true := by decide
    obtain ⟨s, hs⟩ := Option.isSome_iff_exists.mp hthere
    have hnone := (h ⟨by decide, by decide⟩ (by decide) payTwoContract ⟨s, hs, rfl⟩).2
    have happlied : payTwoContract.applied (payWorld payTwoContract) = [(0, 0)] := by decide
    rw [happlied] at hnone
    cases hnone
  · have hrun : (run (progressStep (sampleEnv (some payTwoContract))) ⟨payWorld payTwoContract, []⟩
        [payTrigger, secondTrigger]).any (fun s => decide (¬ s.applied.Nodup ∧
          s.world.view State.balance (sampleAddress 2).string = some 1)) = true := by decide
    obtain ⟨s, hs, hrepeated⟩ := (Option.any_eq_true _ _).mp hrun
    exact ⟨s, hs, decide_eq_true_iff.mp hrepeated⟩

end MarketPeer.Ledger

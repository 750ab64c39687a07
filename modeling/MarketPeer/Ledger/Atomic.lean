import MarketPeer.Ledger.Holdings
import MarketPeer.Ledger.Panics

/-!
# Transactions that fail

A transaction that returns an error has changed nothing, unless it is the trigger of a
contract: its actions are carried out one by one, and an action that is refused does
not take back those before it.
-/

namespace MarketPeer.Ledger

open MarketPeer.Contracts

variable {F : Type}

/-! ## Nothing moved -/

theorem State.ext_iff (s s' : State F) :
    s = s' ↔ s.nonce = s'.nonce ∧ s.balance = s'.balance ∧ s.code = s'.code ∧
      ∀ key, s.storageRoot.get? key = s'.storageRoot.get? key := by
  refine ⟨fun h => by simp [h], ?_⟩
  rintro ⟨hnonce, hbalance, hcode, hstorage⟩
  have hroot : s.storageRoot.internal = s'.storageRoot.internal := Std.ExtTreeMap.ext_getElem? hstorage
  cases s
  cases s'
  simp only [State.mk.injEq] at *
  exact ⟨hnonce, hbalance, congrArg SimpleKV.mk hroot, hcode⟩

section Moved

open scoped UInt64.CommRing

variable [Float64 F] {p a : String} {paid : UInt64} {h : Holdings F} {w w' : World F}

omit [Float64 F] in
theorem Moved.account?_eq (hm : Moved p a paid h w w') (hpaid : p = a ∨ paid = 0) (hh : h = w.holdings)
    (k : String) : w'.account? k = w.account? k := by
  have hrest := hm.rest k
  have hbalance := hm.balances k
  have hholdings := fun key => congrFun (congrFun (hm.holdings.trans hh) k) key
  simp only [World.view, World.holdings] at hrest hbalance hholdings
  cases hs : w.account? k with
  | none => simpa [hs] using hrest
  | some s =>
    cases hs' : w'.account? k with
    | none => simp [hs, hs'] at hrest
    | some s' =>
      simp only [hs, hs', Option.map_some, Option.some.injEq, Prod.mk.injEq, Option.bind_some]
        at hrest hbalance hholdings
      rw [Option.some.injEq, State.ext_iff]
      refine ⟨hrest.1, ?_, hrest.2, hholdings⟩
      rw [hbalance]
      rcases hpaid with rfl | rfl
      · split_ifs <;> ring
      · simp

omit [Float64 F] in
/-- What was moved is back where it was when the payments cancel and the holdings are the old ones. -/
theorem Moved.same_iff (hm : Moved p a paid h w w') (hp : (w.account? p).isSome) :
    (∀ k, w'.account? k = w.account? k) ↔ (p = a ∨ paid = 0) ∧ h = w.holdings := by
  refine ⟨fun hsame => ⟨?_, ?_⟩, fun ⟨hpaid, hh⟩ => hm.account?_eq hpaid hh⟩
  · by_cases hpa : p = a
    · exact Or.inl hpa
    · obtain ⟨s, hs⟩ := Option.isSome_iff_exists.mp hp
      have hbalance := hm.balances p
      simp only [World.view, hsame p, hs, Option.map_some, Option.some.injEq, if_true, hpa, if_false,
        add_zero] at hbalance
      exact Or.inr (sub_eq_self.mp hbalance.symm)
  · rw [← hm.holdings]
    funext k product
    simp only [World.holdings, hsame k]

end Moved

variable [Float64 F]

/-! ## Errors -/

/-- An error leaves every account as it was: nonce, balance, code and storage. -/
def Atomic (env : Env F) (t : SignedTransaction F) (w : World F) : Prop :=
  ∀ e w', executeTxn env t w = (.err e, w') → ∀ k, w'.account? k = w.account? k

/-- The plan of a trigger is refused at the action after `done`, and the holdings are `left` then. -/
structure RefusedAfter (env : Env F) (t : SignedTransaction F) (w : World F) (plan : Plan F)
    (done : List (Action F)) (left : Holdings F) : Prop where
  trigger : t.isTrigger
  planned : planContract env t w = .ok (some plan)
  refused : ∃ x rest h, plan.actions = done ++ x :: rest ∧
    trades plan.proposer plan.acceptor done w.holdings = some h ∧
    turn plan.proposer plan.acceptor x h = .refused left

section Errors

variable {env : Env F} {t : SignedTransaction F} {w w' : World F} {plan : Plan F} {done : List (Action F)}
  {left : Holdings F}

theorem RefusedAfter.executeTxn (h : RefusedAfter env t w plan done left) :
    ∃ e w', executeTxn env t w = (.err e, w') ∧
      Moved plan.proposer plan.acceptor (payments done) left w w' := by
  obtain ⟨-, hp, ha⟩ := plan_parties env t w plan h.planned
  obtain ⟨x, rest, held, hactions, htrades, hx⟩ := h.refused
  obtain ⟨e, w', hrun, hmoved⟩ := runActions_of_refused hp ha done x rest held left htrades hx
  refine ⟨.wrap "execute error: %w" [] e, w', ?_, hmoved⟩
  unfold Ledger.executeTxn doExecuteTxn
  have ht : t.txn.toAddr.isContract = true ∧ t.txn.type ≠ CREATE_CONTRACT := h.trigger
  rw [if_pos ht]
  unfold doContract
  simp only [h.planned, andThen, hactions, hrun, wrapFst, wrapErr]

/-- Only a plan that is refused makes an error leave something behind. -/
theorem executeTxn_err (e : GoError F) (herr : executeTxn env t w = (.err e, w')) :
    w' = w ∨ ∃ plan done left, RefusedAfter env t w plan done left := by
  have heffect := executeTxn_effect env t w
  rw [herr] at heffect
  cases heffect with
  | refused => exact Or.inl rfl
  | stopped plan r r' w' ht hplan hrun hr hr' =>
    obtain ⟨-, hp, ha⟩ := plan_parties env t w plan hplan
    rcases runActions_keeps hp ha plan.actions with
      ⟨h, w'', -, hok, -⟩ | ⟨done, x, rest, h, left, hactions, htrades, hx⟩ | ⟨why, hpanic⟩
    · rw [hrun, Prod.mk.injEq] at hok
      rw [hok.1] at hr
      cases hr
    · exact Or.inr ⟨plan, done, left, ht, hplan, x, rest, h, hactions, htrades, hx⟩
    · rw [hrun] at hpanic
      change r = _ at hpanic
      rw [hpanic] at hr'
      cases hr'

end Errors

/-- The actions before a refused one take no effect, and the refused one is a send of something that its
sender did not have before the call. -/
def RefusedEarly (env : Env F) (t : SignedTransaction F) (w : World F) : Prop :=
  t.isTrigger → ∀ plan done x rest held left, planContract env t w = .ok (some plan) →
    plan.actions = done ++ x :: rest → trades plan.proposer plan.acceptor done w.holdings = some held →
    turn plan.proposer plan.acceptor x held = .refused left →
      (∀ y ∈ done, ¬ writes y) ∧
      ∀ sender receiver product amount, parties plan.proposer plan.acceptor x = some (sender, receiver) →
        stringParam x 0 = .ok product → numberParam x 1 = .ok amount → ¬ w.holdings.Gives sender product amount

theorem pays_of_not_writes (x : Action F) (h : ¬ writes x) : pays x = 0 := by
  by_cases hx : x.action = "transfer"
  · have hbuyer : x.role ≠ "buyer" := fun hrole => h ⟨Or.inl hx, Or.inl hrole⟩
    have hseller : x.role ≠ "seller" := fun hrole => h ⟨Or.inl hx, Or.inr hrole⟩
    simp only [pays, hx, if_true, hbuyer, hseller, if_false]
    split <;> rfl
  · simp [pays, hx]

theorem payments_of_not_writes (xs : List (Action F)) (h : ∀ y ∈ xs, ¬ writes y) : payments xs = 0 := by
  induction xs with
  | nil => rfl
  | cons x rest ih =>
    rw [List.forall_mem_cons] at h
    have hrest := ih h.2
    unfold payments at hrest ⊢
    rw [List.map_cons, List.sum_cons, pays_of_not_writes x h.1, hrest]
    rfl

theorem turn_of_not_writes (p a : String) (x : Action F) (held held' : Holdings F) (h : ¬ writes x)
    (hturn : turn p a x held = .done held') : held' = held := by
  unfold turn at hturn
  split_ifs at hturn with htransfer hok hsend
  · exact (Turn.done.inj hturn).symm
  · split at hturn
    · cases hparties : parties p a x with
      | none =>
        rw [hparties] at hturn
        exact (Turn.done.inj hturn).symm
      | some sr =>
        have hrole : x.role = "buyer" ∨ x.role = "seller" := by
          unfold parties at hparties
          split_ifs at hparties with hbuyer hseller
          · exact Or.inl hbuyer
          · exact Or.inr hseller
        exact absurd ⟨Or.inr hsend, hrole⟩ h
    · cases hturn
  · exact (Turn.done.inj hturn).symm

theorem trades_of_not_writes (p a : String) (xs : List (Action F)) (held held' : Holdings F)
    (h : ∀ y ∈ xs, ¬ writes y) (htrades : trades p a xs held = some held') : held' = held := by
  induction xs generalizing held with
  | nil => exact (Option.some.inj htrades).symm
  | cons x rest ih =>
    rw [List.forall_mem_cons] at h
    rw [trades] at htrades
    split at htrades
    · rename_i held₁ hturn
      rw [ih held₁ h.2 htrades, turn_of_not_writes p a x held held₁ h.1 hturn]
    · cases htrades

/-- Only a send is refused; when its sender does not give, it leaves the holdings as they are. -/
theorem turn_refused (p a : String) (x : Action F) (held left : Holdings F) (hturn : turn p a x held = .refused left) :
    ∃ sender receiver product amount, parties p a x = some (sender, receiver) ∧ stringParam x 0 = .ok product ∧
      numberParam x 1 = .ok amount ∧ (¬ held.Gives sender product amount → left = held) := by
  unfold turn at hturn
  split_ifs at hturn
  split at hturn
  · rename_i product amount hproduct hamount
    cases hparties : parties p a x with
    | none =>
      rw [hparties] at hturn
      cases hturn
    | some sr =>
      rw [hparties] at hturn
      refine ⟨sr.1, sr.2, product, amount, rfl, hproduct, hamount, fun hno => ?_⟩
      rcases held.trade_cases sr.1 sr.2 product amount with ⟨hgives, -⟩ | ⟨-, hrefused⟩ | ⟨hgives, -⟩
      · exact absurd hgives hno
      · change held.trade sr.1 sr.2 product amount = _ at hturn
        rw [hrefused] at hturn
        exact (Turn.refused.inj hturn).symm
      · exact absurd hgives hno
  · cases hturn

theorem RefusedAfter.atomic_iff {env : Env F} {t : SignedTransaction F} {w : World F} {plan : Plan F}
    {done : List (Action F)} {left : Holdings F} (h : RefusedAfter env t w plan done left) :
    Atomic env t w ↔ (plan.proposer = plan.acceptor ∨ payments done = 0) ∧ left = w.holdings := by
  obtain ⟨e, w', herr, hmoved⟩ := h.executeTxn
  obtain ⟨-, hp, -⟩ := plan_parties env t w plan h.planned
  rw [← hmoved.same_iff hp]
  refine ⟨fun hatomic => hatomic e w' herr, fun hsame e' w'' herr' => ?_⟩
  rw [herr, Prod.mk.injEq] at herr'
  rw [← herr'.2]
  exact hsame

/-- A transaction whose plan is refused early, if at all, is atomic. One that is refused later is so just
when what was done cancels out: the payments sum to nothing, and all holdings have their old value. -/
theorem executeTxn_atomic (env : Env F) (t : SignedTransaction F) (w : World F) :
    (RefusedEarly env t w → Atomic env t w) ∧
    ∀ plan done left, RefusedAfter env t w plan done left →
      (Atomic env t w ↔ (plan.proposer = plan.acceptor ∨ payments done = 0) ∧ left = w.holdings) := by
  refine ⟨fun hearly e w' herr => ?_, fun plan done left h => h.atomic_iff⟩
  rcases executeTxn_err e herr with rfl | ⟨plan, done, left, h⟩
  · exact fun _ => rfl
  · obtain ⟨x, rest, held, hactions, htrades, hx⟩ := h.refused
    obtain ⟨hidle, hlacks⟩ := hearly h.trigger plan done x rest held left h.planned hactions htrades hx
    have hheld := trades_of_not_writes _ _ done _ _ hidle htrades
    obtain ⟨sender, receiver, product, amount, hparties, hproduct, hamount, hleft⟩ := turn_refused _ _ x held left hx
    have hleft' : left = w.holdings := by
      rw [hleft (hheld ▸ hlacks sender receiver product amount hparties hproduct hamount), hheld]
    exact h.atomic_iff.mpr ⟨Or.inr (payments_of_not_writes done hidle), hleft'⟩ e w' herr

/-- The buyer pays two coins, and then the seller has no apple to send. -/
def appleContract : Contract Int :=
  newContract "1" "apple" "IF buyer.balance > 1 THEN buyer.transfer(2) seller.send(\"apple\", 1)"
    ⟨[], [some ⟨⟨⟨"buyer", [some ⟨"balance"⟩]⟩, ">", ⟨none, some 1⟩⟩,
      [some ⟨"buyer", "transfer", [some ⟨none, some 2⟩]⟩,
        some ⟨"seller", "send", [some ⟨some "apple", none⟩, some ⟨none, some 1⟩]⟩]⟩]⟩
    (sampleAddress 2).string (sampleAddress 0).string

theorem appleContract_not_atomic :
    ¬ Atomic (sampleEnv (some appleContract)) payTrigger (payWorld appleContract) := by
  intro hatomic
  have herr : (executeTxn (sampleEnv (some appleContract)) payTrigger (payWorld appleContract)).1.isOk = false ∧
      (executeTxn (sampleEnv (some appleContract)) payTrigger (payWorld appleContract)).1.why? = none := by
    decide
  have hbalance : ((executeTxn (sampleEnv (some appleContract)) payTrigger (payWorld appleContract)).2.view
      State.balance (sampleAddress 2).string) ≠
      (payWorld appleContract).view State.balance (sampleAddress 2).string := by decide
  rcases hexec : executeTxn (sampleEnv (some appleContract)) payTrigger (payWorld appleContract) with ⟨r, w'⟩
  rw [hexec] at herr hbalance
  cases r with
  | ok u => cases herr.1
  | panic why => cases herr.2
  | err e => exact hbalance (by simp only [World.view, hatomic e w' hexec])

end MarketPeer.Ledger

import MarketPeer.Ledger.Effects
import Mathlib.Algebra.BigOperators.Group.List.Basic
import Mathlib.Data.List.Infix
import Mathlib.Tactic.Ring

/-!
# Overdrafts

The balances that a transaction writes, as a list of debits and credits, and when
none of them wraps. The check in front of a transaction compares signed numbers of
one account; the writes are unsigned and go to up to two.
-/

namespace MarketPeer.Ledger

open MarketPeer.Contracts

variable {F : Type}

/-! ## Debits and credits -/

abbrev Balances := String → Option UInt64

inductive BalanceOp where
  | debit (key : String) (amount : UInt64)
  | credit (key : String) (amount : UInt64)

namespace BalanceOp

def key : BalanceOp → String
  | debit key _ => key
  | credit key _ => key

def write : BalanceOp → UInt64 → UInt64
  | debit _ amount, x => x - amount
  | credit _ amount, x => x + amount

def apply (b : Balances) (op : BalanceOp) : Balances :=
  fun k => if op.key = k then (b k).map op.write else b k

def Fits (b : Balances) : BalanceOp → Prop
  | debit key amount => ∀ x, b key = some x → amount.toNat ≤ x.toNat
  | credit key amount => ∀ x, b key = some x → x.toNat + amount.toNat < 2 ^ 64

end BalanceOp

def AllFit : Balances → List BalanceOp → Prop
  | _, [] => True
  | b, op :: ops => op.Fits b ∧ AllFit (op.apply b) ops

theorem balances_update (w : World F) (op : BalanceOp) (f : State F → State F)
    (hf : ∀ s, (f s).balance = op.write s.balance) :
    (w.update op.key f).view State.balance = op.apply (w.view State.balance) := by
  funext k
  rw [view_update]
  simp only [BalanceOp.apply, World.view, Option.map_map]
  split
  · exact congrArg (Option.map · (w.account? k)) (funext hf)
  · rfl

theorem balances_same (w : World F) (key : String) (f : State F → State F)
    (hf : ∀ s, (f s).balance = s.balance) : (w.update key f).view State.balance = w.view State.balance := by
  funext k
  exact view_update_of_eq w State.balance key k f hf

variable [Float64 F]

/-! ## What a contract moves -/

inductive Payment where
  | byBuyer (amount : UInt64)
  | bySeller (amount : UInt64)

def paymentOf (x : Action F) : Option Payment :=
  if x.action = "transfer" then
    match (numberParam x 0 : Res F F) with
    | .ok n =>
      if x.role = "buyer" then some (.byBuyer (Float64.toUint n))
      else if x.role = "seller" then some (.bySeller (Float64.toUint n))
      else none
    | _ => none
  else none

/-- The writes in the order of the source: the proposer's account comes first. -/
def actionOps (p a : String) (x : Action F) : List BalanceOp :=
  match paymentOf x with
  | some (.byBuyer n) => [.debit p n, .credit a n]
  | some (.bySeller n) => [.credit p n, .debit a n]
  | none => []

theorem runAction_balances (p a : String) (x : Action F) (w : World F)
    (hok : (runAction p a x w).1.isOk = true) :
    (runAction p a x w).2.view State.balance = (actionOps p a x).foldl BalanceOp.apply (w.view State.balance) := by
  have h := runAction_effect p a x w
  generalize runAction p a x w = r at h hok
  cases h with
  | failed r hr => simp_all
  | skipped hskip =>
    have hnone : paymentOf x = none := by
      unfold paymentOf
      by_cases h1 : x.action = "transfer"
      · have hrole : ¬ (x.role = "buyer" ∨ x.role = "seller") := fun h => hskip ⟨Or.inl h1, h⟩
        rw [not_or] at hrole
        simp only [h1, if_true, if_neg hrole.1, if_neg hrole.2]
        split <;> rfl
      · rw [if_neg h1]
    simp [actionOps, hnone]
  | paid n hx hrole hn =>
    simp only [actionOps, paymentOf, hx, hrole, hn, if_true, List.foldl_cons, List.foldl_nil]
    rw [← balances_update w (.debit p (Float64.toUint n)) (State.debit (Float64.toUint n)) fun s => rfl]
    exact balances_update _ (.credit a (Float64.toUint n)) _ fun s => rfl
  | refunded n hx hrole hn =>
    simp only [actionOps, paymentOf, hx, hrole, hn, if_true, List.foldl_cons, List.foldl_nil,
      show ("seller" : String) ≠ "buyer" by decide, if_false]
    rw [← balances_update w (.credit p (Float64.toUint n)) (State.credit (Float64.toUint n)) fun s => rfl]
    exact balances_update _ (.debit a (Float64.toUint n)) _ fun s => rfl
  | halfSent sender product v r hhalf hr => simp_all
  | sent sender receiver product v v' hwrites hx =>
    have hnone : paymentOf x = none := by simp [paymentOf, hx]
    simp only [actionOps, hnone, List.foldl_nil]
    rw [balances_same _ receiver (State.store product v') (fun s => rfl),
      balances_same _ sender (State.store product v) (fun s => rfl)]

theorem runActions_balances (p a : String) (xs : List (Action F)) (w : World F)
    (hok : (runActions p a xs w).1.isOk = true) :
    (runActions p a xs w).2.view State.balance =
      (xs.flatMap (actionOps p a)).foldl BalanceOp.apply (w.view State.balance) := by
  induction xs generalizing w with
  | nil => rfl
  | cons x rest ih =>
    have hx := runAction_balances p a x w
    unfold runActions at hok ⊢
    split at hok
    · rename_i u w' hw'
      rw [hw'] at hx
      rw [ih w' hok, hx rfl, List.flatMap_cons, List.foldl_append]
    · rename_i hnot
      obtain ⟨u, hu⟩ := (Outcome.isOk_iff _).mp hok
      exact (hnot u (runAction p a x w).2 (Prod.ext hu rfl)).elim

/-! ## When the transfers of a contract fit -/

/-- What the proposer gives to the acceptor, in whole numbers. -/
def netPaid (x : Action F) : Int :=
  match paymentOf x with
  | some (.byBuyer n) => n.toNat
  | some (.bySeller n) => -n.toNat
  | none => 0

def netTotal (xs : List (Action F)) : Int := (xs.map netPaid).sum

def InRange (i : Int) : Prop := 0 ≤ i ∧ i < 2 ^ 64

/-- Neither party leaves the range of a balance at any point: after any first part of the
actions, or, when both parties are one account, within any single one. -/
def Covered (p a : String) (xs : List (Action F)) (x y : UInt64) : Prop :=
  if p = a then ∀ act ∈ xs, InRange (x.toNat - netPaid act)
  else ∀ q, q <+: xs → InRange (x.toNat - netTotal q) ∧ InRange (y.toNat + netTotal q)

omit [Float64 F] in
theorem inRange_toNat (x : UInt64) : InRange x.toNat :=
  ⟨Int.natCast_nonneg _, by exact_mod_cast x.toNat_lt⟩

section TwoAccounts

variable {p a : String} {b : Balances} {x y : UInt64}

theorem actionOps_fit_iff (hne : p ≠ a) (hx : b p = some x) (hy : b a = some y) (act : Action F)
    (ops : List BalanceOp) :
    AllFit b (actionOps p a act ++ ops) ↔
      (InRange (x.toNat - netPaid act) ∧ InRange (y.toNat + netPaid act)) ∧
        AllFit ((actionOps p a act).foldl BalanceOp.apply b) ops := by
  have hxlt := x.toNat_lt
  have hylt := y.toNat_lt
  unfold actionOps netPaid InRange
  rcases paymentOf act with - | (n | n)
  · simp only [List.nil_append, List.foldl_nil, sub_zero, add_zero, iff_and_self]
    intro _
    omega
  all_goals
    simp only [List.cons_append, List.nil_append, AllFit, BalanceOp.Fits, BalanceOp.apply,
      BalanceOp.key, hx, hy, if_neg hne, Option.some.injEq, forall_eq', List.foldl_cons,
      List.foldl_nil, ← and_assoc]
    apply and_congr_left
    intro _
    omega

theorem actionOps_exact (hne : p ≠ a) (hx : b p = some x) (hy : b a = some y) (act : Action F)
    (hxr : InRange (x.toNat - netPaid act)) (hyr : InRange (y.toNat + netPaid act)) :
    ∃ x' y' : UInt64, (actionOps p a act).foldl BalanceOp.apply b p = some x' ∧
      (actionOps p a act).foldl BalanceOp.apply b a = some y' ∧
      (x'.toNat : Int) = x.toNat - netPaid act ∧ (y'.toNat : Int) = y.toNat + netPaid act := by
  unfold actionOps
  unfold netPaid InRange at *
  rcases hpay : paymentOf act with - | (n | n) <;> simp only [hpay] at hxr hyr ⊢
  · exact ⟨x, y, hx, hy, by simp, by simp⟩
  · refine ⟨x - n, y + n, ?_, ?_, ?_, ?_⟩
    · simp [BalanceOp.apply, BalanceOp.key, BalanceOp.write, hne.symm, hx]
    · simp [BalanceOp.apply, BalanceOp.key, BalanceOp.write, hne, hy]
    · rw [UInt64.toNat_sub_of_le _ _ (UInt64.le_iff_toNat_le.mpr (by omega))]
      omega
    · rw [UInt64.toNat_add, Nat.mod_eq_of_lt (by omega)]
      omega
  · refine ⟨x + n, y - n, ?_, ?_, ?_, ?_⟩
    · simp [BalanceOp.apply, BalanceOp.key, BalanceOp.write, hne.symm, hx]
    · simp [BalanceOp.apply, BalanceOp.key, BalanceOp.write, hne, hy]
    · rw [UInt64.toNat_add, Nat.mod_eq_of_lt (by omega)]
      omega
    · rw [UInt64.toNat_sub_of_le _ _ (UInt64.le_iff_toNat_le.mpr (by omega))]
      omega

/-- Transfers between two accounts fit when every first part of them leaves both in range. -/
theorem transfers_fit_iff (hne : p ≠ a) (xs : List (Action F)) (hx : b p = some x) (hy : b a = some y) :
    AllFit b (xs.flatMap (actionOps p a)) ↔
      ∀ q, q <+: xs → InRange (x.toNat - netTotal q) ∧ InRange (y.toNat + netTotal q) := by
  induction xs generalizing b x y with
  | nil =>
    simp only [List.flatMap_nil, AllFit, List.prefix_nil, forall_eq, netTotal, List.map_nil,
      List.sum_nil, sub_zero, add_zero, true_iff]
    exact ⟨inRange_toNat x, inRange_toNat y⟩
  | cons act rest ih =>
    rw [List.flatMap_cons, actionOps_fit_iff hne hx hy]
    -- The exact balances after `act` are the ones the rest starts from.
    have hrest : ∀ x' y' : UInt64, (x'.toNat : Int) = x.toNat - netPaid act →
        (y'.toNat : Int) = y.toNat + netPaid act → ∀ q : List (Action F),
        (InRange (x'.toNat - netTotal q) ∧ InRange (y'.toNat + netTotal q) ↔
          InRange (x.toNat - netTotal (act :: q)) ∧ InRange (y.toNat + netTotal (act :: q))) := by
      intro x' y' hx' hy' q
      rw [hx', hy', netTotal, netTotal, List.map_cons, List.sum_cons, sub_sub, add_assoc]
    constructor
    · rintro ⟨⟨hxr, hyr⟩, hfit⟩ q hq
      obtain ⟨x', y', hx', hy', hxe, hye⟩ := actionOps_exact hne hx hy act hxr hyr
      rcases List.prefix_cons_iff.mp hq with rfl | ⟨q', rfl, hq'⟩
      · simp only [netTotal, List.map_nil, List.sum_nil, sub_zero, add_zero]
        exact ⟨inRange_toNat x, inRange_toNat y⟩
      · exact (hrest x' y' hxe hye q').mp ((ih hx' hy').mp hfit q' hq')
    · intro h
      have hact := h [act] (List.prefix_cons_iff.mpr (Or.inr ⟨[], rfl, List.nil_prefix⟩))
      simp only [netTotal, List.map_cons, List.map_nil, List.sum_cons, List.sum_nil, add_zero] at hact
      obtain ⟨x', y', hx', hy', hxe, hye⟩ := actionOps_exact hne hx hy act hact.1 hact.2
      refine ⟨hact, (ih hx' hy').mpr ?_⟩
      intro q hq
      exact (hrest x' y' hxe hye q).mpr (h (act :: q) (List.prefix_cons_iff.mpr (Or.inr ⟨q, rfl, hq⟩)))

end TwoAccounts

/-- Transfers from an account to itself fit when each one does, since each gives back what it takes. -/
theorem self_transfers_fit_iff (p : String) (xs : List (Action F)) (b : Balances) (x : UInt64)
    (hx : b p = some x) :
    AllFit b (xs.flatMap (actionOps p p)) ↔ ∀ act ∈ xs, InRange (x.toNat - netPaid act) := by
  induction xs generalizing b with
  | nil => simp [AllFit]
  | cons act rest ih =>
    have hxlt := x.toNat_lt
    have hback : (actionOps p p act).foldl BalanceOp.apply b p = some x := by
      unfold actionOps
      rcases paymentOf act with - | (n | n) <;>
        simp [BalanceOp.apply, BalanceOp.key, BalanceOp.write, hx]
    have hstep : AllFit b (actionOps p p act ++ rest.flatMap (actionOps p p)) ↔
        InRange (x.toNat - netPaid act) ∧
          AllFit ((actionOps p p act).foldl BalanceOp.apply b) (rest.flatMap (actionOps p p)) := by
      unfold actionOps netPaid InRange
      rcases paymentOf act with - | (n | n)
      · simp only [List.nil_append, List.foldl_nil, sub_zero, iff_and_self]
        intro _
        omega
      · simp only [List.cons_append, List.nil_append, AllFit, BalanceOp.Fits, BalanceOp.apply,
          BalanceOp.key, BalanceOp.write, hx, if_true, Option.map_some, Option.some.injEq, forall_eq',
          List.foldl_cons, List.foldl_nil, ← and_assoc]
        apply and_congr_left
        intro _
        constructor
        · rintro ⟨h1, -⟩
          omega
        · rintro h
          refine ⟨by omega, ?_⟩
          rw [UInt64.toNat_sub_of_le _ _ (UInt64.le_iff_toNat_le.mpr (by omega))]
          omega
      · simp only [List.cons_append, List.nil_append, AllFit, BalanceOp.Fits, BalanceOp.apply,
          BalanceOp.key, BalanceOp.write, hx, if_true, Option.map_some, Option.some.injEq, forall_eq',
          List.foldl_cons, List.foldl_nil, ← and_assoc]
        apply and_congr_left
        intro _
        constructor
        · rintro ⟨h1, -⟩
          omega
        · rintro h
          refine ⟨by omega, ?_⟩
          rw [UInt64.toNat_add, Nat.mod_eq_of_lt (by omega)]
          omega
    rw [List.flatMap_cons, hstep, ih _ hback, List.forall_mem_cons]

theorem covered_iff (p a : String) (xs : List (Action F)) (b : Balances) (x y : UInt64) (hx : b p = some x)
    (hy : b a = some y) : AllFit b (xs.flatMap (actionOps p a)) ↔ Covered p a xs x y := by
  unfold Covered
  split_ifs with h
  · subst h
    exact self_transfers_fit_iff p xs b x hx
  · exact transfers_fit_iff h xs hx hy

/-! ## Transactions -/

def balanceOps (env : Env F) (t : SignedTransaction F) (w : World F) : List BalanceOp :=
  if t.txn.toAddr.isContract ∧ t.txn.type ≠ CREATE_CONTRACT then
    match planContract env t w with
    | .ok (some plan) => plan.actions.flatMap (actionOps plan.proposer plan.acceptor)
    | _ => []
  else if t.txn.type = CREATE_CONTRACT ∨ t.txn.type = SET_STORAGE then []
  else [.debit t.sender t.amount, .credit t.receiver t.amount]

/-- A transaction that returns nil writes these and no other balance, but for the zero of a new
contract. -/
theorem executeTxn_balances (env : Env F) (t : SignedTransaction F) (w : World F)
    (hok : (executeTxn env t w).1.isOk = true) (k : String)
    (hk : ¬ (t.txn.type = CREATE_CONTRACT ∧ k = t.receiver)) :
    (executeTxn env t w).2.view State.balance k =
      (balanceOps env t w).foldl BalanceOp.apply (w.view State.balance) k := by
  have h := executeTxn_effect env t w
  generalize executeTxn env t w = r at h hok
  cases h with
  | refused r hr => simp_all
  | idle ht hplan =>
    rw [SignedTransaction.isTrigger] at ht
    simp [balanceOps, ht, hplan]
  | stopped plan r r' w' ht hplan hrun hr hr' =>
    subst hr'
    cases r <;> simp_all [wrapErr]
  | ran plan w' ht hplan hrun =>
    have hrun' := runActions_balances plan.proposer plan.acceptor plan.actions w (by rw [hrun]; rfl)
    rw [hrun] at hrun'
    rw [SignedTransaction.isTrigger] at ht
    simp only [balanceOps, ht, hplan, ne_eq, not_false_eq_true, and_self, if_true, ← hrun']
    rw [balances_same _ plan.acceptor State.addNonce fun s => rfl]
  | created s ht hs =>
    rw [not_and] at hk
    simp only [balanceOps, ht, ne_eq, not_true_eq_false, and_false, if_false, true_or, if_true,
      List.foldl_nil]
    rw [World.view, World.account?_put_account, if_neg (Ne.symm (hk ht))]
    exact view_update_of_eq w State.balance t.sender k State.addNonce fun s => rfl
  | stored s ht hc hs =>
    simp only [balanceOps, ht, hc, Bool.false_eq_true, false_and, if_false, or_true, if_true, List.foldl_nil]
    exact view_update_of_eq w State.balance t.sender k _ fun s => rfl
  | moved s s' ht hs hs' =>
    simp only [balanceOps, ht.1, ht.2.1, ht.2.2, Bool.false_eq_true, false_and, if_false, or_self,
      List.foldl_cons, List.foldl_nil]
    rw [← balances_update w (.debit t.sender t.amount) (fun s => (s.debit t.amount).addNonce) fun s => rfl]
    exact congrFun (balances_update _ (.credit t.receiver t.amount) _ fun s => rfl) k

/-- No write wraps, and a payment takes its value, read as a signed number, from the sender. -/
structure NoWrap (env : Env F) (t : SignedTransaction F) (w : World F) : Prop where
  fits : AllFit (w.view State.balance) (balanceOps env t w)
  exact : t.isTransfer → ∀ s, w.account? t.sender = some s →
    ((s.debit t.amount).balance.toNat : Int) = s.balance.toNat - t.txn.value.toInt ∧
      (s.debit t.amount).balance.toNat ≤ s.balance.toNat

/-- A payment is not negative, is covered by the account at the bytes of the sender, and has room
at the receiver. -/
def PaymentCovered (t : SignedTransaction F) (w : World F) : Prop :=
  ∀ s s', w.account? t.sender = some s → w.account? t.receiver = some s' →
    0 ≤ t.txn.value.toInt ∧ t.txn.value.toInt ≤ s.balance.toNat ∧
      (t.sender = t.receiver ∨ s'.balance.toNat + t.txn.value.toInt < 2 ^ 64)

def PlanCovered (env : Env F) (t : SignedTransaction F) (w : World F) : Prop :=
  ∀ plan s s', planContract env t w = .ok (some plan) → w.account? plan.proposer = some s →
    w.account? plan.acceptor = some s' →
    Covered plan.proposer plan.acceptor plan.actions s.balance s'.balance

/-- `uint(v)`: the bits of a negative number are a large one. -/
theorem toNat_toUInt64 (v : Int64) :
    (v.toUInt64.toNat : Int) = if 0 ≤ v.toInt then v.toInt else v.toInt + 2 ^ 64 := by
  have h := BitVec.toInt_eq_toNat_cond v.toBitVec
  rw [Int64.toInt_toBitVec, Int64.toNat_toBitVec] at h
  have hlt := v.toUInt64.toNat_lt
  split_ifs at h ⊢ <;> omega

theorem payment_noWrap_iff (env : Env F) (t : SignedTransaction F) (w : World F) (ht : t.isTransfer)
    (s s' : State F) (hs : w.account? t.sender = some s) (hs' : w.account? t.receiver = some s') :
    NoWrap env t w ↔ PaymentCovered t w := by
  have hops : balanceOps env t w = [.debit t.sender t.amount, .credit t.receiver t.amount] := by
    simp [balanceOps, ht.1, ht.2.1, ht.2.2]
  have hamount := toNat_toUInt64 t.txn.value
  have hlt := s.balance.toNat_lt
  have hsub : t.amount.toNat ≤ s.balance.toNat →
      (s.balance - t.amount).toNat = s.balance.toNat - t.amount.toNat := fun h =>
    UInt64.toNat_sub_of_le _ _ (UInt64.le_iff_toNat_le.mpr h)
  constructor
  · intro h s1 s1' hs1 hs1'
    rw [hs, Option.some.injEq] at hs1
    rw [hs', Option.some.injEq] at hs1'
    subst hs1 hs1'
    have hfits := h.fits
    have hexact := (h.exact ht s hs).1
    simp only [hops, AllFit, BalanceOp.Fits, BalanceOp.apply, BalanceOp.key, World.view, hs, hs',
      Option.map_some, Option.some.injEq, forall_eq', and_true] at hfits
    rw [State.debit, hsub hfits.1] at hexact
    refine ⟨?_, by omega, ?_⟩
    · unfold SignedTransaction.amount at *
      split_ifs at hamount <;> omega
    · by_cases hsame : t.sender = t.receiver
      · exact Or.inl hsame
      · have hcredit := hfits.2
        rw [if_neg hsame] at hcredit
        simp only [Option.some.injEq, forall_eq'] at hcredit
        exact Or.inr (by omega)
  · intro h
    obtain ⟨hpos, hcov, hroom⟩ := h s s' hs hs'
    rw [if_pos hpos] at hamount
    change (t.amount.toNat : Int) = _ at hamount
    have hle : t.amount.toNat ≤ s.balance.toNat := by omega
    refine ⟨?_, ?_⟩
    · simp only [hops, AllFit, BalanceOp.Fits, BalanceOp.apply, BalanceOp.key, World.view, hs, hs',
        Option.map_some, Option.some.injEq, forall_eq', and_true]
      refine ⟨hle, ?_⟩
      rcases hroom with hsame | hroom
      · rw [hsame, hs', Option.some.injEq] at hs
        subst hs
        simp only [hsame, if_true, Option.some.injEq, forall_eq', BalanceOp.write, hsub hle]
        omega
      · split_ifs with hsame
        · rw [hsame, hs', Option.some.injEq] at hs
          subst hs
          simp only [Option.some.injEq, forall_eq', BalanceOp.write, hsub hle]
          omega
        · simp only [Option.some.injEq, forall_eq']
          omega
    · intro _ s1 hs1
      rw [hs, Option.some.injEq] at hs1
      subst hs1
      rw [State.debit, hsub hle]
      omega

/-- A transaction that returns nil, accepted or not, makes the balances out of its debits and credits one
after the other, but for the zero of a new contract; and none of them wraps exactly when its payment, or
every first part of the transfers of the contract it calls, is covered. -/
theorem noWrap_iff (env : Env F) (t : SignedTransaction F) (w : World F)
    (hok : (executeTxn env t w).1.isOk = true) :
    (∀ k, ¬ (t.txn.type = CREATE_CONTRACT ∧ k = t.receiver) →
      (executeTxn env t w).2.view State.balance k =
        (balanceOps env t w).foldl BalanceOp.apply (w.view State.balance) k) ∧
    (NoWrap env t w ↔ (t.isTransfer → PaymentCovered t w) ∧ (t.isTrigger → PlanCovered env t w)) := by
  refine ⟨executeTxn_balances env t w hok, ?_⟩
  have h := executeTxn_effect env t w
  generalize executeTxn env t w = r at h hok
  have hnotTransfer : t.isTrigger → ¬ t.isTransfer := fun ht h => by
    rw [SignedTransaction.isTrigger, h.1] at ht; exact absurd ht.1 (by decide)
  cases h with
  | refused r hr => simp_all
  | idle ht hplan =>
    have hops : balanceOps env t w = [] := by
      rw [SignedTransaction.isTrigger] at ht
      simp [balanceOps, ht, hplan]
    refine ⟨fun _ => ⟨fun h => absurd h (hnotTransfer ht), fun _ plan s s' hplan' => ?_⟩, fun _ => ⟨?_, ?_⟩⟩
    · rw [hplan] at hplan'; cases hplan'
    · rw [hops]; trivial
    · exact fun h => absurd h (hnotTransfer ht)
  | stopped plan r r' w' ht hplan hrun hr hr' =>
    subst hr'
    cases r <;> simp_all [wrapErr]
  | ran plan w' ht hplan hrun =>
    obtain ⟨-, hp, ha⟩ := plan_parties env t w plan hplan
    obtain ⟨s, hs⟩ := Option.isSome_iff_exists.mp hp
    obtain ⟨s', hs'⟩ := Option.isSome_iff_exists.mp ha
    have hops : balanceOps env t w = plan.actions.flatMap (actionOps plan.proposer plan.acceptor) := by
      rw [SignedTransaction.isTrigger] at ht
      simp [balanceOps, ht, hplan]
    have hcov := covered_iff plan.proposer plan.acceptor plan.actions (w.view State.balance) s.balance
      s'.balance (by simp [World.view, hs]) (by simp [World.view, hs'])
    rw [← hops] at hcov
    constructor
    · intro h
      refine ⟨fun h => absurd h (hnotTransfer ht), ?_⟩
      intro _ plan' s1 s1' hplan' hs1 hs1'
      rw [hplan, Outcome.ok.injEq, Option.some.injEq] at hplan'
      subst hplan'
      rw [hs, Option.some.injEq] at hs1
      rw [hs', Option.some.injEq] at hs1'
      subst hs1 hs1'
      exact hcov.mp h.fits
    · intro h
      exact ⟨hcov.mpr (h.2 ht plan s s' hplan hs hs'), fun h => absurd h (hnotTransfer ht)⟩
  | created s ht hs =>
    refine ⟨fun _ => ⟨fun h => absurd ht h.2.1, fun h => absurd ht h.2⟩, fun _ => ⟨?_, fun h => absurd ht h.2.1⟩⟩
    simp [balanceOps, ht, AllFit]
  | stored s ht hc hs =>
    refine ⟨fun _ => ⟨fun h => absurd ht h.2.2, fun h => ?_⟩, fun _ => ⟨?_, fun h => absurd ht h.2.2⟩⟩
    · rw [SignedTransaction.isTrigger, hc] at h; exact absurd h.1 (by decide)
    · simp [balanceOps, ht, hc, AllFit]
  | moved s s' ht hs hs' =>
    rw [payment_noWrap_iff env t w ht s s' hs hs']
    exact ⟨fun h => ⟨fun _ => h, fun h' => absurd ht (hnotTransfer h')⟩, fun h => h.1 ht⟩

omit [Float64 F] in
theorem balance_of_view (w : World F) (k : String) (x : UInt64) (s : State F)
    (hview : w.view State.balance k = some x) (hs : w.account? k = some s) : s.balance = x := by
  simpa [World.view, hs] using hview

theorem payment_noWrap :
    (doVerifyTxn (sampleEnv none) sampleMiner payment paymentWorld).isOk = true ∧
      NoWrap (sampleEnv none) payment paymentWorld := by
  refine ⟨by decide, (noWrap_iff (sampleEnv none) payment paymentWorld (by decide)).2.mpr
    ⟨fun _ => ?_, fun h => absurd h.1 (by decide)⟩⟩
  intro s s' hs hs'
  rw [balance_of_view paymentWorld payment.sender 7 s (by decide) hs,
    balance_of_view paymentWorld payment.receiver 5 s' (by decide) hs']
  decide

def negativePayment : SignedTransaction Int :=
  sampleSigned 1 (sampleTxn 0 (sampleAddress 1) (sampleAddress 2) EXEC_TXN (-3))

/-- The check lets it pass, the debit wraps, and the money moves the other way. -/
theorem negativePayment_wraps :
    (doVerifyTxn (sampleEnv none) sampleMiner negativePayment paymentWorld).isOk = true ∧
    (executeTxn (sampleEnv none) negativePayment paymentWorld).1.isOk = true ∧
    (executeTxn (sampleEnv none) negativePayment paymentWorld).2.view State.balance
      (sampleAddress 1).string = some 10 ∧
    (executeTxn (sampleEnv none) negativePayment paymentWorld).2.view State.balance
      (sampleAddress 2).string = some 2 ∧
    ¬ NoWrap (sampleEnv none) negativePayment paymentWorld := by
  refine ⟨by decide, by decide, by decide, by decide, ?_⟩
  intro h
  have hfit : negativePayment.amount.toNat ≤ (7 : UInt64).toNat := h.fits.1 7 (by decide)
  exact absurd hfit (by decide)

end MarketPeer.Ledger

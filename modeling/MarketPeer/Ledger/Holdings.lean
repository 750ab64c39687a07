import MarketPeer.Ledger.Effects
import Mathlib.Data.UInt
import Mathlib.Tactic.Ring

/-!
# Contracts as bookkeeping

What the actions of a contract do to the holdings of its two parties, with no world
state around it, and what they pay. `runAction` keeps the same books.
-/

namespace MarketPeer.Ledger

open MarketPeer.Contracts

variable {F : Type}

/-- What each account has of each product. -/
abbrev Holdings (F : Type) := String → String → Option (Value F)

def World.holdings (w : World F) : Holdings F := fun k product => (w.account? k).bind (·.storageRoot.get? product)

def Holdings.set (h : Holdings F) (k product : String) (v : Value F) : Holdings F :=
  fun k' product' => if k = k' ∧ product = product' then some v else h k' product'

/-- How one action ends: it goes through, it is refused with an error, or it panics. -/
inductive Turn (F : Type) where
  | done (h : Holdings F)
  | refused (h : Holdings F)
  | crashed

variable [Float64 F]

/-! ## The books -/

/-- A send. The receiver is looked at when the sender has already given the product up. -/
def Holdings.trade (h : Holdings F) (sender receiver product : String) (amount : F) : Turn F :=
  match (h sender product).bind numericToFloat with
  | none => .refused h
  | some held =>
    if Float64.lt held amount then .refused h
    else
      let h' := h.set sender product (.float (Float64.sub held amount))
      match h' receiver product with
      | none => .done (h'.set receiver product (.float amount))
      | some v =>
        match numericToFloat v with
        | none => .refused h'
        | some y => .done (h'.set receiver product (.float (Float64.add amount y)))

/-- One action between proposer `p` and acceptor `a`. -/
def turn (p a : String) (x : Action F) (h : Holdings F) : Turn F :=
  if x.action = "transfer" then if (numberParam x 0).isOk then .done h else .crashed
  else if x.action = "send" then
    match stringParam x 0, numberParam x 1 with
    | .ok product, .ok amount =>
      (parties p a x).elim (.done h) fun (sender, receiver) => h.trade sender receiver product amount
    | _, _ => .crashed
  else .done h

/-- What the proposer pays to the acceptor. -/
def pays (x : Action F) : UInt64 :=
  if x.action = "transfer" then
    match numberParam x 0 with
    | .ok n => if x.role = "buyer" then Float64.toUint n else if x.role = "seller" then -Float64.toUint n else 0
    | _ => 0
  else 0

/-- The holdings after actions that all go through. -/
def trades (p a : String) : List (Action F) → Holdings F → Option (Holdings F)
  | [], h => some h
  | x :: rest, h =>
    match turn p a x h with
    | .done h' => trades p a rest h'
    | _ => none

def payments (xs : List (Action F)) : UInt64 := (xs.map pays).sum

/-! ## Feasible actions -/

/-- The sender holds a number of the product that is not below the amount. -/
def Holdings.Gives (h : Holdings F) (sender product : String) (amount : F) : Prop :=
  ∃ held, (h sender product).bind numericToFloat = some held ∧ Float64.lt held amount = false

/-- What the receiver has of the product already, if anything, is a number. -/
def Holdings.Takes (h : Holdings F) (receiver product : String) : Prop :=
  ∀ v, h receiver product = some v → (numericToFloat v).isSome

/-- A transfer or a send has its parameters, the sender gives and the receiver takes. -/
structure Feasible (p a : String) (x : Action F) (h : Holdings F) : Prop where
  transfer : x.action = "transfer" → ∃ n, numberParam x 0 = .ok n
  send : x.action = "send" → ∃ product amount, stringParam x 0 = .ok product ∧ numberParam x 1 = .ok amount ∧
    ∀ sender receiver, parties p a x = some (sender, receiver) →
      h.Gives sender product amount ∧ h.Takes receiver product

/-- Every action is feasible with the holdings that the ones before it leave. -/
def FeasibleAll (p a : String) (xs : List (Action F)) (h : Holdings F) : Prop :=
  ∀ before x after, xs = before ++ x :: after → ∀ h', trades p a before h = some h' → Feasible p a x h'

/-- A send ends in one of three ways; only the last refusal comes after the sender gave. -/
theorem Holdings.trade_cases (h : Holdings F) (sender receiver product : String) (amount : F) :
    (h.Gives sender product amount ∧ h.Takes receiver product ∧
      ∃ h', h.trade sender receiver product amount = .done h') ∨
    (¬ h.Gives sender product amount ∧ h.trade sender receiver product amount = .refused h) ∨
    (h.Gives sender product amount ∧ ¬ h.Takes receiver product ∧
      ∃ h', h.trade sender receiver product amount = .refused h') := by
  unfold Holdings.Gives
  cases hheld : (h sender product).bind numericToFloat with
  | none => exact Or.inr (Or.inl ⟨by simp, by simp [Holdings.trade, hheld]⟩)
  | some held =>
    cases hlt : Float64.lt held amount with
    | true => exact Or.inr (Or.inl ⟨by simp [hlt], by simp [Holdings.trade, hheld, hlt]⟩)
    | false =>
      have hgives : ∃ y, some held = some y ∧ Float64.lt y amount = false := ⟨held, rfl, hlt⟩
      -- The sender's own holding is a number before and after it gave.
      have htakes : h.Takes receiver product ↔
          ∀ v, h.set sender product (.float (Float64.sub held amount)) receiver product = some v →
            (numericToFloat v).isSome := by
        unfold Holdings.Takes Holdings.set
        by_cases hself : sender = receiver
        · subst hself
          rw [if_pos ⟨rfl, rfl⟩]
          refine ⟨fun _ v hv => Option.some.inj hv ▸ rfl, fun _ v hv => ?_⟩
          rw [hv, Option.bind_some] at hheld
          rw [hheld]
          rfl
        · rw [if_neg fun heq => hself heq.1]
      rw [htakes]
      cases hr : h.set sender product (.float (Float64.sub held amount)) receiver product with
      | none => exact Or.inl ⟨hgives, by simp, _, by simp only [Holdings.trade, hheld, hlt, hr]; rfl⟩
      | some v =>
        cases hv : numericToFloat v with
        | none =>
          exact Or.inr (Or.inr ⟨hgives, by simp [hv], _, by simp only [Holdings.trade, hheld, hlt, hr, hv]; rfl⟩)
        | some y => exact Or.inl ⟨hgives, by simp [hv], _, by simp only [Holdings.trade, hheld, hlt, hr, hv]; rfl⟩

theorem turn_done_iff (p a : String) (x : Action F) (h : Holdings F) :
    (∃ h', turn p a x h = .done h') ↔ Feasible p a x h := by
  by_cases htransfer : x.action = "transfer"
  · have hturn : (∃ h', turn p a x h = .done h') ↔ (numberParam x 0).isOk = true := by
      unfold turn
      rw [if_pos htransfer]
      split_ifs <;> simp_all
    rw [hturn, Outcome.isOk_iff]
    exact ⟨fun hn => ⟨fun _ => hn, fun hsend => by simp [htransfer] at hsend⟩, fun hc => hc.transfer htransfer⟩
  · by_cases hsend : x.action = "send"
    · unfold turn
      rw [if_neg htransfer, if_pos hsend]
      constructor
      · rintro ⟨h', hdone⟩
        refine ⟨fun ht => absurd ht htransfer, fun _ => ?_⟩
        split at hdone
        · rename_i product amount hproduct hamount
          refine ⟨product, amount, hproduct, hamount, fun sender receiver hparties => ?_⟩
          rw [hparties] at hdone
          rcases h.trade_cases sender receiver product amount with ⟨hg, ht, -⟩ | ⟨-, hno⟩ | ⟨-, -, h'', hno⟩
          · exact ⟨hg, ht⟩
          all_goals
            change h.trade sender receiver product amount = _ at hdone
            rw [hno] at hdone
            cases hdone
        · cases hdone
      · intro hc
        obtain ⟨product, amount, hproduct, hamount, hboth⟩ := hc.send hsend
        rw [hproduct, hamount]
        dsimp only
        cases hparties : parties p a x with
        | none => exact ⟨h, rfl⟩
        | some sr =>
          obtain ⟨hg, ht⟩ := hboth sr.1 sr.2 hparties
          rcases h.trade_cases sr.1 sr.2 product amount with ⟨-, -, hdone⟩ | ⟨hno, -⟩ | ⟨-, hno, -⟩
          · exact hdone
          · exact absurd hg hno
          · exact absurd ht hno
    · have hturn : turn p a x h = .done h := by simp [turn, htransfer, hsend]
      rw [hturn]
      exact ⟨fun _ => ⟨fun ht => absurd ht htransfer, fun hs => absurd hs hsend⟩, fun _ => ⟨h, rfl⟩⟩

theorem feasibleAll_cons_iff (p a : String) (x : Action F) (rest : List (Action F)) (h : Holdings F) :
    FeasibleAll p a (x :: rest) h ↔ ∃ h', turn p a x h = .done h' ∧ FeasibleAll p a rest h' := by
  constructor
  · intro hall
    obtain ⟨h', hturn⟩ := (turn_done_iff p a x h).mpr (hall [] x rest rfl h rfl)
    refine ⟨h', hturn, ?_⟩
    rintro before y after rfl h'' hbefore
    exact hall (x :: before) y after rfl h'' (by rw [trades, hturn]; exact hbefore)
  · rintro ⟨h', hturn, hrest⟩ before y after heq h'' hbefore
    cases before with
    | nil =>
      rw [List.nil_append, List.cons.injEq] at heq
      rw [trades, Option.some.injEq] at hbefore
      rw [← heq.1, ← hbefore]
      exact (turn_done_iff p a x h).mp ⟨h', hturn⟩
    | cons z before =>
      rw [List.cons_append, List.cons.injEq] at heq
      rw [← heq.1, trades, hturn] at hbefore
      exact hrest before y after heq.2 h'' hbefore

theorem trades_isSome_iff (p a : String) (xs : List (Action F)) (h : Holdings F) :
    (trades p a xs h).isSome ↔ FeasibleAll p a xs h := by
  induction xs generalizing h with
  | nil => simp [trades, FeasibleAll]
  | cons x rest ih =>
    rw [feasibleAll_cons_iff, trades]
    cases turn p a x h with
    | done h' => simp [ih]
    | refused h' => simp
    | crashed => simp

/-! ## The books and the world state -/

/-- `w'` has the holdings `h`, the proposer has paid `paid` to the acceptor, and nothing else is
different from `w`. -/
structure Moved (p a : String) (paid : UInt64) (h : Holdings F) (w w' : World F) : Prop where
  holdings : w'.holdings = h
  balances : ∀ k, w'.view State.balance k =
    (w.view State.balance k).map fun b => b - (if k = p then paid else 0) + (if k = a then paid else 0)
  rest : ∀ k, w'.view (fun s => (s.nonce, s.code)) k = w.view (fun s => (s.nonce, s.code)) k
  frame : ∀ k, k ≠ p → k ≠ a → w'.get? k = w.get? k

section Moved

open scoped UInt64.CommRing

variable {p a : String} {w w' w'' : World F} {h h' : Holdings F} {paid paid' : UInt64}

omit [Float64 F] in
theorem Moved.refl (p a : String) (w : World F) : Moved p a 0 w.holdings w w :=
  ⟨rfl, fun k => by simp, fun _ => rfl, fun _ _ _ => rfl⟩

omit [Float64 F] in
theorem Moved.trans (h1 : Moved p a paid h w w') (h2 : Moved p a paid' h' w' w'') :
    Moved p a (paid + paid') h' w w'' where
  holdings := h2.holdings
  balances k := by
    rw [h2.balances, h1.balances, Option.map_map]
    congr 1
    funext b
    simp only [Function.comp_apply]
    split_ifs <;> ring
  rest k := (h2.rest k).trans (h1.rest k)
  frame k hp ha := (h2.frame k hp ha).trans (h1.frame k hp ha)

omit [Float64 F] in
theorem Moved.isSome (hm : Moved p a paid h w w') (k : String) :
    (w'.account? k).isSome = (w.account? k).isSome := by
  have := congrArg Option.isSome (hm.rest k)
  simpa [World.view] using this

omit [Float64 F] in
theorem get?_update_of_ne (w : World F) (k k' : String) (f : State F → State F) (hne : k ≠ k') :
    (w.update k f).get? k' = w.get? k' := by
  unfold World.update
  split
  · rw [SimpleKV.get?_put, if_neg hne]
  · rfl

omit [Float64 F] in
theorem holdings_update_of_eq (w : World F) (k : String) (f : State F → State F)
    (hf : ∀ s, (f s).storageRoot = s.storageRoot) : (w.update k f).holdings = w.holdings := by
  funext k' product
  simp only [World.holdings, World.account?_update]
  split_ifs
  · cases w.account? k' <;> simp [hf]
  · rfl

omit [Float64 F] in
theorem holdings_store (w : World F) (k product : String) (v : Value F) (hk : (w.account? k).isSome) :
    (w.update k (State.store product v)).holdings = w.holdings.set k product v := by
  funext k' product'
  simp only [World.holdings, World.account?_update, Holdings.set]
  by_cases hkk : k = k'
  · subst hkk
    obtain ⟨s, hs⟩ := Option.isSome_iff_exists.mp hk
    simp [hs, State.store]
  · simp [hkk]

omit [Float64 F] in
theorem Moved.store (w : World F) (k product : String) (v : Value F) (hk : (w.account? k).isSome)
    (hkp : k = p ∨ k = a) :
    Moved p a 0 (w.holdings.set k product v) w (w.update k (State.store product v)) where
  holdings := holdings_store w k product v hk
  balances k' := by
    rw [view_update_of_eq w State.balance k k' (State.store product v) fun _ => rfl]
    simp
  rest k' := view_update_of_eq _ _ _ _ _ fun _ => rfl
  frame k' hp ha := by
    apply get?_update_of_ne
    rintro rfl
    exact hkp.elim hp ha

omit [Float64 F] in
/-- A payment; a negative one goes the other way. -/
theorem Moved.pay (w : World F) (paid : UInt64) (f g : State F → State F)
    (hf : ∀ s, f s = { s with balance := s.balance - paid })
    (hg : ∀ s, g s = { s with balance := s.balance + paid }) :
    Moved p a paid w.holdings w ((w.update p f).update a g) where
  holdings := by
    rw [holdings_update_of_eq _ _ _ fun s => by rw [hg], holdings_update_of_eq _ _ _ fun s => by rw [hf]]
  balances k := by
    simp only [World.view, World.account?_update]
    by_cases hp : p = k <;> by_cases ha : a = k <;> cases w.account? k <;> simp [hp, ha, hf, hg, eq_comm]
  rest k := by
    rw [view_update_of_eq _ _ _ _ _ fun s => by rw [hg], view_update_of_eq _ _ _ _ _ fun s => by rw [hf]]
  frame k hp ha := by
    rw [get?_update_of_ne _ _ _ _ (Ne.symm ha), get?_update_of_ne _ _ _ _ (Ne.symm hp)]

end Moved

/-! ## `runAction` keeps the books -/

/-- The result of an action and its turn in the books say the same. -/
inductive Keeps (p a : String) (paid : UInt64) (w : World F) : Turn F → Res F Unit × World F → Prop
  | done (h : Holdings F) (w' : World F) (hmoved : Moved p a paid h w w') : Keeps p a paid w (.done h) (.ok (), w')
  | refused (h : Holdings F) (e : GoError F) (w' : World F) (hmoved : Moved p a 0 h w w') :
      Keeps p a paid w (.refused h) (.err e, w')
  | crashed (why : String) : Keeps p a paid w .crashed (.panic why, w)

omit [Float64 F] in
theorem numberParam_cases (x : Action F) (i : Nat) :
    (∃ n, numberParam x i = .ok n) ∨ ∃ why, numberParam x i = .panic why := by
  unfold numberParam param
  cases x.params[i]? with
  | none => exact Or.inr ⟨_, rfl⟩
  | some l? =>
    cases l? with
    | none => exact Or.inr ⟨_, rfl⟩
    | some l => cases hn : l.number <;> simp [hn]

omit [Float64 F] in
theorem stringParam_cases (x : Action F) (i : Nat) :
    (∃ s, stringParam x i = .ok s) ∨ ∃ why, stringParam x i = .panic why := by
  unfold stringParam param
  cases x.params[i]? with
  | none => exact Or.inr ⟨_, rfl⟩
  | some l? =>
    cases l? with
    | none => exact Or.inr ⟨_, rfl⟩
    | some l => cases hs : l.string <;> simp [hs]

section Keeps

variable {p a : String} {w : World F} (hp : (w.account? p).isSome) (ha : (w.account? a).isSome)
include hp ha

theorem send_keeps (sender receiver product fmt : String) (amount : F) (hsender : sender = p ∨ sender = a)
    (hreceiver : receiver = p ∨ receiver = a) :
    Keeps p a 0 w (w.holdings.trade sender receiver product amount)
      (andThen (sendOut sender product amount fmt w) w fun w =>
        andThen (sendIn receiver product amount w) w fun w => (.ok (), w)) := by
  have hs : (w.account? sender).isSome := by rcases hsender with rfl | rfl <;> assumption
  have hr : (w.account? receiver).isSome := by rcases hreceiver with rfl | rfl <;> assumption
  unfold sendOut Holdings.trade
  change Keeps p a 0 w _ (andThen (match w.holdings sender product with | none => _ | some held => _) w _)
  cases hheld : w.holdings sender product with
  | none => exact .refused _ _ _ (.refl p a w)
  | some held =>
    cases hnum : numericToFloat held with
    | none =>
      simp only [Option.bind_some, hnum, andThen]
      exact .refused _ _ _ (.refl p a w)
    | some x =>
      simp only [Option.bind_some, hnum]
      split_ifs with hlt
      · exact .refused _ _ _ (.refl p a w)
      · have hgive := Moved.store (p := p) (a := a) w sender product (.float (Float64.sub x amount)) hs hsender
        rw [← hgive.holdings]
        generalize w.update sender (State.store product (.float (Float64.sub x amount))) = w1 at hgive
        have hr1 : (w1.account? receiver).isSome := by rw [hgive.isSome]; exact hr
        have htake := fun v => hgive.trans (.store w1 receiver product v hr1 hreceiver)
        change Keeps p a 0 w _ (andThen (match w1.holdings receiver product with | none => _ | some held => _) w1 _)
        cases hheld1 : w1.holdings receiver product with
        | none => exact .done _ _ (htake _)
        | some v =>
          cases hnum1 : numericToFloat v with
          | none =>
            simp only [hnum1, andThen]
            exact .refused _ _ _ (hgive.holdings ▸ hgive)
          | some y =>
            simp only [hnum1, andThen]
            exact .done _ _ (htake _)

omit hp ha in
theorem runTransfer_keeps (x : Action F) (hx : x.action = "transfer") :
    Keeps p a (pays x) w (turn p a x w.holdings) (runTransfer p a x w) := by
  unfold runTransfer turn pays
  simp only [hx, if_true]
  rcases numberParam_cases x 0 with ⟨n, hn⟩ | ⟨why, hn⟩
  · simp only [hn, Outcome.isOk_ok, if_true, andThen]
    split_ifs
    · exact .done _ _ (.pay w _ _ _ (fun _ => rfl) fun _ => rfl)
    · refine .done _ _ (.pay w _ _ _ ?_ ?_)
      · intro s
        simp [State.credit]
      · intro s
        simp [State.debit, sub_eq_add_neg]
    · exact .done _ _ (.refl p a w)
  · simp only [hn, Outcome.isOk_panic, Bool.false_eq_true, if_false, andThen]
    exact .crashed why

theorem runSend_keeps (x : Action F) (hx : x.action = "send") :
    Keeps p a (pays x) w (turn p a x w.holdings) (runSend p a x w) := by
  have hpays : pays x = 0 := by simp [pays, hx]
  rw [hpays]
  unfold runSend turn
  simp only [hx, String.reduceEq, if_false, if_true]
  rcases stringParam_cases x 0 with ⟨product, hproduct⟩ | ⟨why, hproduct⟩
  · rcases numberParam_cases x 1 with ⟨amount, hamount⟩ | ⟨why, hamount⟩
    · simp only [hproduct, hamount, andThen, parties]
      split_ifs
      · exact send_keeps hp ha p a product _ amount (Or.inl rfl) (Or.inr rfl)
      · exact send_keeps hp ha a p product _ amount (Or.inr rfl) (Or.inl rfl)
      · exact .done _ _ (.refl p a w)
    · simp only [hproduct, hamount, andThen]
      exact .crashed why
  · simp only [hproduct, andThen]
    exact .crashed why

theorem runAction_keeps (x : Action F) : Keeps p a (pays x) w (turn p a x w.holdings) (runAction p a x w) := by
  unfold runAction
  split_ifs with h1 h2
  · exact runTransfer_keeps x h1
  · exact runSend_keeps hp ha x h2
  · have hturn : turn p a x w.holdings = .done w.holdings := by simp [turn, h1, h2]
    have hpays : pays x = 0 := by simp [pays, h1]
    rw [hturn, hpays]
    exact .done _ _ (.refl p a w)

/-- The loop comes to its end, stops at an action that is refused, or panics. -/
theorem runActions_keeps (xs : List (Action F)) :
    (∃ h w', trades p a xs w.holdings = some h ∧ runActions p a xs w = (.ok (), w') ∧
      Moved p a (payments xs) h w w') ∨
    (∃ done x rest h left, xs = done ++ x :: rest ∧ trades p a done w.holdings = some h ∧
      turn p a x h = .refused left) ∨
    (runActions p a xs w).1.Panics := by
  induction xs generalizing w with
  | nil => exact Or.inl ⟨w.holdings, w, rfl, rfl, .refl p a w⟩
  | cons x rest ih =>
    have hkeeps := runAction_keeps hp ha x
    unfold runActions
    generalize hturn : turn p a x w.holdings = t at hkeeps
    generalize runAction p a x w = r at hkeeps
    cases hkeeps with
    | done h w' hmoved =>
      have htrades : ∀ ys, trades p a (x :: ys) w.holdings = trades p a ys w'.holdings := by
        intro ys
        rw [trades, hturn, hmoved.holdings]
      rcases ih (by rw [hmoved.isSome]; exact hp) (by rw [hmoved.isSome]; exact ha) with
        ⟨h', w'', hrest, hrun, hmoved'⟩ | ⟨done, y, rest', h', left, rfl, hrest, hy⟩ | hpanic
      · exact Or.inl ⟨h', w'', by rw [htrades]; exact hrest, hrun, hmoved.trans hmoved'⟩
      · exact Or.inr (Or.inl ⟨x :: done, y, rest', h', left, rfl, by rw [htrades]; exact hrest, hy⟩)
      · exact Or.inr (Or.inr hpanic)
    | refused h e w' hmoved => exact Or.inr (Or.inl ⟨[], x, rest, w.holdings, h, rfl, rfl, hturn⟩)
    | crashed why => exact Or.inr (Or.inr ⟨why, rfl⟩)

theorem runActions_isOk_iff (xs : List (Action F)) :
    (runActions p a xs w).1.isOk = true ↔ FeasibleAll p a xs w.holdings := by
  rw [← trades_isSome_iff]
  induction xs generalizing w with
  | nil => simp [runActions, trades]
  | cons x rest ih =>
    have hkeeps := runAction_keeps hp ha x
    rw [runActions, trades]
    generalize turn p a x w.holdings = t at hkeeps
    generalize runAction p a x w = r at hkeeps
    cases hkeeps with
    | done h' w' hmoved =>
      dsimp only
      rw [ih (by rw [hmoved.isSome]; exact hp) (by rw [hmoved.isSome]; exact ha), hmoved.holdings]
    | refused h e w' hmoved => simp
    | crashed why => simp

/-- At a refused action the loop stops with an error, and what came before it stays done. -/
theorem runActions_of_refused (done : List (Action F)) (x : Action F) (rest : List (Action F)) (h left : Holdings F)
    (htrades : trades p a done w.holdings = some h) (hx : turn p a x h = .refused left) :
    ∃ e w', runActions p a (done ++ x :: rest) w = (.err e, w') ∧ Moved p a (payments done) left w w' := by
  induction done generalizing w with
  | nil =>
    simp only [trades, Option.some.injEq] at htrades
    subst htrades
    have hkeeps := runAction_keeps hp ha x
    rw [hx] at hkeeps
    rw [List.nil_append, runActions]
    generalize runAction p a x w = r at hkeeps
    cases hkeeps with
    | refused _ e w' hmoved => exact ⟨e, w', rfl, hmoved⟩
  | cons y done ih =>
    have hkeeps := runAction_keeps hp ha y
    rw [List.cons_append, runActions]
    rw [trades] at htrades
    generalize turn p a y w.holdings = t at hkeeps htrades
    generalize runAction p a y w = r at hkeeps
    cases hkeeps with
    | done h' w' hmoved =>
      rw [← hmoved.holdings] at htrades
      obtain ⟨e, w'', hrun, hmoved'⟩ := ih (by rw [hmoved.isSome]; exact hp) (by rw [hmoved.isSome]; exact ha) htrades
      exact ⟨e, w'', hrun, hmoved.trans hmoved'⟩
    | refused _ _ _ _ => cases htrades
    | crashed _ => cases htrades

end Keeps

end MarketPeer.Ledger

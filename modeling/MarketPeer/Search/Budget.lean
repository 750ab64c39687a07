import MarketPeer.Search.Model
import Mathlib.Algebra.BigOperators.Group.List.Basic
import Mathlib.Data.List.Nodup

/-!
# The budget of a search

What is left of the budget is on its way with the requests. A node that gets the request for
the first time takes one from it and divides the rest; everything else only loses some.
-/

namespace MarketPeer.Search

variable {A : Type} [DecidableEq A]

/-! ## Dividing a budget -/

def spent (budgets : List (A × UInt64)) : Nat := (budgets.map fun b => b.2.toNat).sum

theorem toInt_of_small (budget : UInt64) (h : budget.toNat < 2 ^ 63) : budget.toInt64.toInt = budget.toNat := by
  have hbits : 2 * budget.toBitVec.toNat < 2 ^ 64 := by
    rw [UInt64.toNat_toBitVec]
    omega
  exact BitVec.toInt_eq_toNat_of_lt hbits

theorem toNat_ofInt (n : Nat) (h : n < 2 ^ 64) : (UInt64.ofInt n).toNat = n := by
  have hmod : (n : Int) % 2 ^ 64 = n := Int.emod_eq_of_lt (by omega) (by omega)
  rw [UInt64.ofInt, hmod, Int.toNat_natCast, UInt64.toNat_ofNat', Nat.mod_eq_of_lt h]

/-- One neighbor gets `p`, every other one `q`. -/
theorem sum_lucky (neis : List A) (hnodup : neis.Nodup) (lucky : A) (hlucky : lucky ∈ neis) (p q : Nat) :
    (neis.map fun nei => if nei = lucky then p else q).sum = p + q * (neis.length - 1) := by
  induction neis with
  | nil => cases hlucky
  | cons nei neis ih =>
    obtain ⟨hnot, hrest⟩ := List.nodup_cons.mp hnodup
    rw [List.map_cons, List.sum_cons, List.length_cons, Nat.add_sub_cancel]
    by_cases heq : nei = lucky
    · subst heq
      have hothers : (neis.map fun x => if x = nei then p else q) = neis.map fun _ => q := by
        apply List.map_congr_left
        intro x hx
        rw [if_neg]
        rintro rfl
        exact hnot hx
      rw [if_pos rfl, hothers, List.map_const', List.sum_replicate, Nat.nsmul_eq_mul, Nat.mul_comm]
    · have hmem : lucky ∈ neis := (List.mem_cons.mp hlucky).resolve_left (Ne.symm heq)
      have hlength : 0 < neis.length := List.length_pos_of_mem hmem
      rw [if_neg heq, ih hrest hmem]
      obtain ⟨n, hn⟩ : ∃ n, neis.length = n + 1 := ⟨neis.length - 1, by omega⟩
      rw [hn, Nat.add_sub_cancel, Nat.mul_succ]
      omega

/-- Less than one for each: the first neighbors get one. -/
theorem budgetAllocation_few {neis : List A} {budget : UInt64} (hpos : budget ≠ 0) (hsmall : budget.toNat < 2 ^ 63)
    (hfew : budget.toNat < neis.length) (dice : Dice A) :
    budgetAllocation neis budget dice =
      if dice.shuffled.Perm (neis.take budget.toNat) then some (dice.shuffled.map fun nei => (nei, 1)) else none := by
  have hnone : ¬ (neis = [] ∨ budget = 0) := by
    rintro (rfl | hzero)
    · simp at hfew
    · exact hpos hzero
  have hper : ((budget.toNat / neis.length : Nat) : Int) < 1 := by
    rw [Nat.div_eq_of_lt hfew]
    decide
  unfold budgetAllocation
  rw [if_neg hnone]
  simp only [toInt_of_small budget hsmall, ← Int.ofNat_tdiv]
  rw [if_pos hper]
  simp

/-- The shares are at least one each, and together not more than the budget. -/
theorem budgetAllocation_spent (neis : List A) (hnodup : neis.Nodup) (budget : UInt64)
    (hsmall : budget.toNat < 2 ^ 63) (dice : Dice A) (budgets : List (A × UInt64))
    (h : budgetAllocation neis budget dice = some budgets) :
    spent budgets ≤ budget.toNat ∧ ∀ b ∈ budgets, 1 ≤ b.2.toNat := by
  by_cases hnone : neis = [] ∨ budget = 0
  · rw [budgetAllocation, if_pos hnone] at h
    cases h
    exact ⟨Nat.zero_le _, by simp⟩
  have hlength : 0 < neis.length := List.length_pos_iff.mpr (not_or.mp hnone).1
  by_cases hfew : budget.toNat < neis.length
  · rw [budgetAllocation_few (not_or.mp hnone).2 hsmall hfew] at h
    split_ifs at h with hshuffled
    cases h
    have hcount : dice.shuffled.length = budget.toNat := by
      rw [hshuffled.length_eq, List.length_take]
      omega
    have hones : (dice.shuffled.map fun nei => (nei, (1 : UInt64))).map (fun b => b.2.toNat)
        = dice.shuffled.map fun _ => 1 := by
      rw [List.map_map]
      rfl
    refine ⟨Nat.le_of_eq ?_, by simp⟩
    rw [spent, hones, List.map_const', List.sum_replicate, Nat.nsmul_eq_mul, hcount, Nat.mul_one]
  · -- One neighbor gets the remainder too.
    have hper : 1 ≤ budget.toNat / neis.length := (Nat.one_le_div_iff hlength).mpr (Nat.not_lt.mp hfew)
    unfold budgetAllocation at h
    rw [if_neg hnone] at h
    simp only [toInt_of_small budget hsmall, ← Int.ofNat_tdiv] at h
    have hmany : ¬ ((budget.toNat / neis.length : Nat) : Int) < 1 := Int.not_lt.mpr (Int.ofNat_le.mpr hper)
    rw [if_neg hmany] at h
    split_ifs at h
    obtain ⟨luckyNei, hget, rfl⟩ := Option.map_eq_some_iff.mp h
    have hdiv := Nat.div_add_mod budget.toNat neis.length
    generalize budget.toNat / neis.length = per at *
    have hcut : per * (neis.length - 1) + per ≤ budget.toNat := by
      have : per * (neis.length - 1) + per = neis.length * per := by
        rw [← Nat.mul_succ, Nat.succ_eq_add_one, Nat.sub_add_cancel hlength, Nat.mul_comm]
      omega
    have hshare : ∀ nei, (UInt64.ofInt (if nei = luckyNei then
        (budget.toNat : Int) - per * ((neis.length : Int) - 1) else per)).toNat =
        if nei = luckyNei then budget.toNat - per * (neis.length - 1) else per := by
      intro nei
      split_ifs
      · have hcast : (budget.toNat : Int) - per * ((neis.length : Int) - 1)
            = (budget.toNat - per * (neis.length - 1) : Nat) := by
          rw [Int.ofNat_sub (by omega), Int.natCast_mul, Int.ofNat_sub (by omega)]
          rfl
        rw [hcast, toNat_ofInt _ (by omega)]
      · rw [toNat_ofInt _ (by omega)]
    refine ⟨?_, ?_⟩
    · simp only [spent, List.map_map, Function.comp_def, hshare]
      rw [sum_lucky neis hnodup luckyNei (List.mem_of_getElem? hget)]
      omega
    · intro b hb
      obtain ⟨nei, -, rfl⟩ := List.mem_map.mp hb
      rw [hshare]
      split_ifs
      · omega
      · exact hper

/-! ## What is on its way -/

/-- The budgets of the requests in flight. -/
def inFlight (requests : List (Request A)) : Nat := (requests.map fun r => r.budget.toNat).sum

omit [DecidableEq A] in
/-- The requests of a division, as many as were sent. -/
theorem addressed_inFlight (relayedBy : A) (budgets : List (A × UInt64)) (sent : Nat)
    (hpositive : ∀ b ∈ budgets, 1 ≤ b.2.toNat) :
    inFlight ((addressed relayedBy budgets).take sent) ≤ spent budgets ∧
      ∀ r ∈ (addressed relayedBy budgets).take sent, 1 ≤ r.budget.toNat := by
  refine ⟨?_, ?_⟩
  · unfold inFlight addressed spent
    rw [List.map_take, List.map_map]
    exact Nat.le.intro (List.sum_take_add_sum_drop _ sent)
  · intro r hr
    obtain ⟨b, hb, rfl⟩ := List.mem_map.mp (List.mem_of_mem_take hr)
    exact hpositive b hb

omit [DecidableEq A] in
theorem inFlight_eraseIdx (requests : List (Request A)) (i : Nat) (req : Request A) (h : requests[i]? = some req) :
    inFlight (requests.eraseIdx i) + req.budget.toNat = inFlight requests := by
  unfold inFlight
  induction requests generalizing i with
  | nil => cases h
  | cons r requests ih =>
    cases i with
    | zero =>
      cases h
      rw [List.eraseIdx_cons_zero, List.map_cons, List.sum_cons, Nat.add_comm]
    | succ i =>
      rw [List.eraseIdx_cons_succ, List.map_cons, List.map_cons, List.sum_cons, List.sum_cons, ← ih i h, Nat.add_assoc]

/-- The budget is shared by those who took from it and the requests on their way; every reply counted
by the wait group is one of a node that took from it. -/
structure Bounded (origin : A) (budget : UInt64) (w : World A) : Prop where
  neighbors : ∀ a, (w.neighbors a).Nodup
  known : w.processed.Nodup ∧ ∀ a ∈ w.processed, w.searchReqs a = true
  total : w.processed.length + inFlight w.requests ≤ budget.toNat
  positive : ∀ r ∈ w.requests, 1 ≤ r.budget.toNat
  answered : w.repliesSent ≤ w.processed.length
  counted : w.replies + w.future ≤ w.repliesSent
  idle : w.searchReqs origin = false → w.requests = [] ∧ w.processed = [] ∧ w.finishes = 0
  waiting : w.searchReqs origin = true → (budget.toNat : Int) + w.replies + w.future ≤ w.finishes + w.repliesSent

omit [DecidableEq A] in
theorem bounded_init (origin : A) (budget : UInt64) (neighbors : A → List A) (h : ∀ a, (neighbors a).Nodup) :
    Bounded origin budget (World.init neighbors) where
  neighbors := h
  known := ⟨List.nodup_nil, by simp [World.init]⟩
  total := Nat.zero_le _
  positive := by simp [World.init]
  answered := Nat.le_refl _
  counted := Nat.le_refl _
  idle _ := ⟨rfl, rfl, rfl⟩
  waiting h := by cases h

section Steps

variable {origin : A} {budget : UInt64} {w w' : World A} (hw : Bounded origin budget w)
include hw

theorem bounded_search (hsmall : budget.toNat < 2 ^ 63) {dice : Dice A} {sent : Nat}
    (hidle : w.searchReqs origin = false) (h : searchAllFromNei w origin budget dice sent = some w') :
    Bounded origin budget w' := by
  unfold searchAllFromNei at h
  split_ifs at h
  · cases h
    exact hw
  · obtain ⟨budgets, hbudgets, rfl⟩ := Option.map_eq_some_iff.mp h
    obtain ⟨hspent, hpositive⟩ := budgetAllocation_spent _ (hw.neighbors origin) budget hsmall dice budgets hbudgets
    obtain ⟨hflight, hsent⟩ := addressed_inFlight origin budgets sent hpositive
    obtain ⟨hrequests, hprocessed, hfinishes⟩ := hw.idle hidle
    have hanswered := hw.answered
    have hcounted := hw.counted
    rw [hprocessed, List.length_nil] at hanswered
    refine ⟨hw.neighbors, ?_, ?_, ?_, ?_, hw.counted, ?_, ?_⟩
    · rw [hprocessed]
      exact ⟨List.nodup_nil, by simp⟩
    · simp only [hprocessed, hrequests, List.nil_append, List.length_nil]
      omega
    · simp only [hrequests, List.nil_append]
      exact hsent
    · exact hw.answered
    · intro h
      simp at h
    · intro _
      simp only [hfinishes, toInt_of_small budget hsmall]
      omega

/-- A node marks the request: one from the budget of the request that is gone. -/
theorem bounded_mark {i : Nat} {req : Request A} (hreq : w.requests[i]? = some req)
    (hnew : w.searchReqs req.dest = false) (more : List (Request A)) (hmore : inFlight more + 1 ≤ req.budget.toNat)
    (hpositive : ∀ r ∈ more, 1 ≤ r.budget.toNat) (answers : Bool) :
    Bounded origin budget { markRequest { w with requests := w.requests.eraseIdx i } req.dest with
      requests := w.requests.eraseIdx i ++ more
      repliesSent := if answers then w.repliesSent + 1 else w.repliesSent
      replies := if answers then w.replies + 1 else w.replies } := by
  have hstarted : w.searchReqs origin = true := by
    cases horigin : w.searchReqs origin with
    | true => rfl
    | false =>
      rw [(hw.idle horigin).1] at hreq
      cases hreq
  have hknows : ∀ a, w.searchReqs a = true → Function.update w.searchReqs req.dest true a = true := by
    intro a ha
    by_cases hd : a = req.dest
    · rw [hd, Function.update_self]
    · rw [Function.update_of_ne hd, ha]
  have herase := inFlight_eraseIdx w.requests i req hreq
  have htotal := hw.total
  have hanswered := hw.answered
  have hcounted := hw.counted
  have hwaiting := hw.waiting hstarted
  refine ⟨hw.neighbors, ⟨?_, ?_⟩, ?_, ?_, ?_, ?_, ?_, ?_⟩
  · refine List.nodup_cons.mpr ⟨?_, hw.known.1⟩
    intro hmem
    rw [hw.known.2 req.dest hmem] at hnew
    cases hnew
  · intro a ha
    rcases List.mem_cons.mp ha with rfl | ha
    · exact Function.update_self ..
    · exact hknows a (hw.known.2 a ha)
  · have happend : inFlight (w.requests.eraseIdx i ++ more) = inFlight (w.requests.eraseIdx i) + inFlight more := by
      unfold inFlight
      rw [List.map_append, List.sum_append]
    simp only [markRequest, List.length_cons, happend]
    omega
  · intro r hr
    rcases List.mem_append.mp hr with hr | hr
    · exact hw.positive r (List.mem_of_mem_eraseIdx hr)
    · exact hpositive r hr
  · simp only [markRequest, List.length_cons]
    split_ifs <;> omega
  · simp only [markRequest]
    split_ifs <;> omega
  · intro hidle
    have := hknows origin hstarted
    simp only [markRequest] at hidle
    rw [this] at hidle
    cases hidle
  · intro _
    simp only [markRequest]
    split_ifs
    · push_cast
      omega
    · exact hwaiting

omit [DecidableEq A] in
/-- Without the request, everything else as it was. -/
theorem bounded_erase (i : Nat) : Bounded origin budget { w with requests := w.requests.eraseIdx i } := by
  refine ⟨hw.neighbors, hw.known, ?_, ?_, hw.answered, hw.counted, ?_, hw.waiting⟩
  · have htotal := hw.total
    cases hreq : w.requests[i]? with
    | some req =>
      have herase := inFlight_eraseIdx w.requests i req hreq
      simp only
      omega
    | none =>
      simp only [List.eraseIdx_of_length_le (List.getElem?_eq_none_iff.mp hreq)]
      exact htotal
  · intro r hr
    exact hw.positive r (List.mem_of_mem_eraseIdx hr)
  · intro hidle
    obtain ⟨hrequests, hrest⟩ := hw.idle hidle
    exact ⟨by simp only [hrequests, List.eraseIdx_nil], hrest⟩

/-- One less than the budget of a request does not underflow. -/
theorem forwarded_budget (hsmall : budget.toNat < 2 ^ 63) {i : Nat} {req : Request A} (hreq : w.requests[i]? = some req) :
    (forwarded w origin req).1.Nodup ∧ (forwarded w origin req).2.toNat + 1 ≤ req.budget.toNat ∧
      (forwarded w origin req).2.toNat < 2 ^ 63 := by
  have hpositive := hw.positive req (List.mem_of_getElem? hreq)
  have hflight := inFlight_eraseIdx w.requests i req hreq
  have htotal := hw.total
  have hone : (req.budget - 1).toNat = req.budget.toNat - 1 := by
    have hle : (1 : UInt64) ≤ req.budget := UInt64.le_iff_toNat_le.mpr hpositive
    rw [UInt64.toNat_sub_of_le _ _ hle, UInt64.toNat_one]
  unfold forwarded
  split_ifs
  · refine ⟨(hw.neighbors req.dest).filter _, ?_, ?_⟩
    · rw [hone]
      omega
    · rw [hone]
      omega
  · refine ⟨List.nodup_nil, ?_, ?_⟩
    · rw [UInt64.toNat_zero]
      exact hpositive
    · rw [UInt64.toNat_zero]
      decide

theorem bounded_request (hsmall : budget.toNat < 2 ^ 63) {i : Nat} {req : Request A} {dice : Dice A} {sent : Nat}
    {replied : Bool} (hreq : w.requests[i]? = some req)
    (h : searchRequestMessageCallback { w with requests := w.requests.eraseIdx i } origin req dice sent replied = some w') :
    Bounded origin budget w' := by
  unfold searchRequestMessageCallback at h
  split_ifs at h with hknown
  · cases h
    exact bounded_erase hw i
  · obtain ⟨budgets, hbudgets, rfl⟩ := Option.map_eq_some_iff.mp h
    obtain ⟨hnodup, hless, hbelow⟩ := forwarded_budget hw hsmall hreq
    obtain ⟨hspent, hpositive⟩ := budgetAllocation_spent _ hnodup _ hbelow dice budgets hbudgets
    obtain ⟨hflight, hsent⟩ := addressed_inFlight req.dest budgets sent hpositive
    have hmarked := bounded_mark hw hreq (Bool.eq_false_iff.mpr hknown) _ (by omega) hsent
      (decide (budgets.length ≤ sent ∧ replied = true))
    simp only [decide_eq_true_eq] at hmarked
    exact hmarked

omit [DecidableEq A] in
/-- Replies that are read or lost. -/
theorem bounded_fewer (replies future : Nat) (registered reading : Bool) (h : replies + future ≤ w.replies + w.future) :
    Bounded origin budget { w with replies, future, registered, reading } := by
  refine ⟨hw.neighbors, hw.known, hw.total, hw.positive, hw.answered, Nat.le_trans h hw.counted, hw.idle, ?_⟩
  intro hstarted
  have hwaiting := hw.waiting hstarted
  simp only
  omega

omit [DecidableEq A] in
/-- `finishes.Done()` for a reply of the future. -/
theorem bounded_done (h : w.future = 1) :
    Bounded origin budget { w with future := 0, finishes := w.finishes - 1 } := by
  have hcounted := hw.counted
  have hanswered := hw.answered
  refine ⟨hw.neighbors, hw.known, hw.total, hw.positive, hw.answered, ?_, ?_, ?_⟩
  · simp only
    omega
  · intro hidle
    rw [(hw.idle hidle).2.1, List.length_nil] at hanswered
    omega
  · intro hstarted
    have hwaiting := hw.waiting hstarted
    simp only
    omega

theorem bounded_step (hsmall : budget.toNat < 2 ^ 63) {ev : Event A} (h : step origin budget w ev = some w') :
    Bounded origin budget w' := by
  cases ev with
  | addNeighbor node nei =>
    simp only [step] at h
    split_ifs at h with hknown
    · cases h
      exact hw
    · cases h
      refine ⟨?_, hw.known, hw.total, hw.positive, hw.answered, hw.counted, hw.idle, hw.waiting⟩
      intro a
      by_cases ha : a = node
      · subst ha
        simp only [Function.update_self]
        refine List.nodup_append.mpr ⟨hw.neighbors a, by simp, ?_⟩
        intro x hx y hy hxy
        rw [hxy, List.mem_singleton.mp hy] at hx
        exact hknown (Or.inl hx)
      · simp only [Function.update_of_ne ha]
        exact hw.neighbors a
  | search dice sent =>
    simp only [step] at h
    split_ifs at h with hidle
    exact bounded_search hw hsmall (Bool.eq_false_iff.mpr hidle) h
  | request i dice sent replied =>
    obtain ⟨req, hreq, h⟩ := Option.bind_eq_some_iff.mp h
    exact bounded_request hw hsmall hreq h
  | requestPanics i =>
    obtain ⟨req, hreq, h⟩ := Option.bind_eq_some_iff.mp h
    split_ifs at h with hpanics
    cases h
    have hmarked := bounded_mark hw hreq (Bool.eq_false_iff.mpr hpanics.1) []
      (by have := hw.positive req (List.mem_of_getElem? hreq); simp [inFlight]; omega) (by simp) false
    simp only [List.append_nil, Bool.false_eq_true, if_false] at hmarked
    exact hmarked
  | lose i =>
    simp only [step] at h
    split_ifs at h
    cases h
    exact bounded_erase hw i
  | reply =>
    simp only [step] at h
    split_ifs at h
    · cases h
      exact bounded_fewer hw _ _ _ _ (by omega)
    · cases h
      exact bounded_fewer hw _ _ _ _ (by omega)
  | loseReply =>
    simp only [step] at h
    split_ifs at h
    cases h
    exact bounded_fewer hw _ _ _ _ (by omega)
  | done =>
    simp only [step] at h
    split_ifs at h with hread
    cases h
    exact bounded_done hw hread.2
  | timeout =>
    simp only [step] at h
    split_ifs at h
    cases h
    exact bounded_fewer hw _ _ _ _ (Nat.le_refl _)

end Steps

/-- In every run of one search with a budget below 2^63, over neighbor lists without duplicates, the
nodes that took the request and the budgets in flight are together within the budget, no request has
a budget of zero, and the counter of the wait group is not negative. -/
theorem search_within_budget (origin : A) (budget : UInt64) (hbudget : 1 ≤ budget.toNat ∧ budget.toNat < 2 ^ 63)
    (neighbors : A → List A) (hneighbors : ∀ a, (neighbors a).Nodup ∧ a ∉ neighbors a) (es : List (Event A)) (w : World A)
    (hrun : run (step origin budget) (World.init neighbors) es = some w) :
    w.processed.Nodup ∧ w.repliesSent ≤ w.processed.length ∧
    w.processed.length + (w.requests.map fun r => r.budget.toNat).sum ≤ budget.toNat ∧
    (∀ r ∈ w.requests, 1 ≤ r.budget.toNat) ∧ 0 ≤ w.finishes := by
  have hinv : Bounded origin budget w :=
    run_preserves (Bounded origin budget) (fun _ _ _ hs hstep => bounded_step hs hbudget.2 hstep) es
      (bounded_init origin budget neighbors fun a => (hneighbors a).1) hrun
  have htotal := hinv.total
  have hanswered := hinv.answered
  refine ⟨hinv.known.1, hanswered, htotal, hinv.positive, ?_⟩
  cases horigin : w.searchReqs origin with
  | false =>
    have hidle := (hinv.idle horigin).2.2
    omega
  | true =>
    have hwaiting := hinv.waiting horigin
    omega

def triangle (a : Nat) : List Nat := [0, 1, 2].filter (· ≠ a)

/-- Node 0 searches with a budget of three. Node 2 has two of it and passes one on to node 1, which has
already had the request. -/
def triangleRun : List (Event Nat) :=
  [.search ⟨[], 1⟩ 2, .request 1 ⟨[], 0⟩ 1 true, .request 0 ⟨[], 0⟩ 0 true, .request 0 ⟨[], 0⟩ 0 true,
    .reply, .done, .reply, .done]

theorem triangleRun_within_budget :
    ∃ w, run (step 0 3) (World.init triangle) triangleRun = some w ∧ w.processed = [1, 2] ∧ w.repliesSent = 2 ∧
      w.processed.length + (w.requests.map fun r => r.budget.toNat).sum ≤ 3 ∧ 0 ≤ w.finishes := by
  have hcheck : (run (step 0 3) (World.init triangle) triangleRun).any
      (fun w => w.processed = [1, 2] ∧ w.repliesSent = 2) = true := by decide
  obtain ⟨w, hrun, hw⟩ := (Option.any_eq_true ..).mp hcheck
  obtain ⟨hprocessed, hreplies⟩ := of_decide_eq_true hw
  have htriangle : ∀ a, (triangle a).Nodup ∧ a ∉ triangle a := by
    intro a
    exact ⟨List.Nodup.filter _ (by decide), by simp [triangle]⟩
  obtain ⟨-, -, hbudget, -, hfinishes⟩ :=
    search_within_budget 0 3 (by decide) triangle htriangle triangleRun w hrun
  exact ⟨w, hrun, hprocessed, hreplies, hbudget, hfinishes⟩

end MarketPeer.Search

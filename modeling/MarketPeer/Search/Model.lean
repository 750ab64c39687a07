import MarketPeer.Lib.Runs
import Mathlib.Algebra.Group.Nat.Defs
import Mathlib.Data.List.Perm.Basic

/-!
# Searching the neighborhood

One search request of `searchAllFromNei`, from the node that starts it through the nodes
that get it: how a budget is divided, who passes the request on, and the replies on their
way back. What a reply says is left out. A callback or the sending loop of the search is
one step; a packet is delivered at any later time, or lost.
-/

namespace MarketPeer.Search

variable {A : Type} [DecidableEq A]

/-! ## Dividing a budget -/

/-- What the random numbers of `budgetAllocation` come to. -/
structure Dice (A : Type) where
  shuffled : List A
  lucky : Nat

/-- `rand.Int31n(int32(n))` can return `i`; it panics when the number that is left is not positive. -/
def int31n (n i : Nat) : Bool := (i : Int) < (Int32.ofNat n).toInt

/-- `budgetAllocation`, with what each neighbor gets beside it. `none` is a panic, or dice that do not
fall so. -/
def budgetAllocation (neis : List A) (budget : UInt64) (dice : Dice A) : Option (List (A × UInt64)) :=
  if neis = [] ∨ budget = 0 then some []
  else
    let total := budget.toInt64.toInt
    let budgetPerNei := total.tdiv neis.length
    if budgetPerNei < 1 then
      -- Only the first neighbors are shuffled, as many as the budget has.
      if 0 ≤ total ∧ dice.shuffled.Perm (neis.take total.toNat) then some (dice.shuffled.map fun nei => (nei, 1))
      else none
    else if int31n neis.length dice.lucky then
      neis[dice.lucky]?.map fun luckyNei =>
        let luckyBudget := total - budgetPerNei * (neis.length - 1)
        neis.map fun nei => (nei, UInt64.ofInt (if nei = luckyNei then luckyBudget else budgetPerNei))
    else none

/-- The slice of a negative length, or `Int31n` of a number that is not positive. -/
def allocationPanics (neis : List A) (budget : UInt64) : Bool :=
  let total := budget.toInt64.toInt
  neis ≠ [] ∧ budget ≠ 0 ∧
    if total.tdiv neis.length < 1 then total < 0 else (Int32.ofNat neis.length).toInt ≤ 0

/-! ## The nodes -/

/-- A `SearchRequestMessage` on its way. -/
structure Request (A : Type) where
  relayedBy : A
  dest : A
  budget : UInt64

/-- `searchReqs` says which nodes know the request, and `processed` are those that did not when it came.
The rest is the search of the origin: the replies sent and those still on their way, the ones in its
future, whether the future is in the map, whether the routine that reads it runs, and the counter of
the wait group. -/
structure World (A : Type) where
  neighbors : A → List A
  searchReqs : A → Bool
  requests : List (Request A)
  processed : List A
  repliesSent : Nat
  replies : Nat
  future : Nat
  registered : Bool
  reading : Bool
  finishes : Int

def World.init (neighbors : A → List A) : World A where
  neighbors
  searchReqs := fun _ => false
  requests := []
  processed := []
  repliesSent := 0
  replies := 0
  future := 0
  registered := false
  reading := false
  finishes := 0

def getNeisExcept (neis excepts : List A) : List A := neis.filter fun nei => nei ∉ excepts

def addressed (relayedBy : A) (budgets : List (A × UInt64)) : List (Request A) :=
  budgets.map fun b => ⟨relayedBy, b.1, b.2⟩

/-- `searchAllFromNei`. The first `sent` requests go out; when that is not all of them, it returns
before anything reads the future. -/
def searchAllFromNei (w : World A) (origin : A) (budget : UInt64) (dice : Dice A) (sent : Nat) : Option (World A) :=
  if w.neighbors origin = [] then some w
  else
    (budgetAllocation (w.neighbors origin) budget dice).map fun budgets =>
      { w with
        finishes := w.finishes + budget.toInt64.toInt
        searchReqs := Function.update w.searchReqs origin true
        registered := true
        requests := w.requests ++ (addressed origin budgets).take sent
        reading := budgets.length ≤ sent }

/-- The request is new to the node. -/
def markRequest (w : World A) (node : A) : World A :=
  { w with searchReqs := Function.update w.searchReqs node true, processed := node :: w.processed }

/-- What the callback divides, when the budget permits to pass the request on. -/
def forwarded (w : World A) (origin : A) (req : Request A) : List A × UInt64 :=
  if req.budget - 1 > 0 then (getNeisExcept (w.neighbors req.dest) [req.relayedBy, origin], req.budget - 1) else ([], 0)

/-- `SearchRequestMessageCallback`. An error of the send after the first `sent` requests ends it
without a reply, and `replied` says whether the reply could be sent. -/
def searchRequestMessageCallback (w : World A) (origin : A) (req : Request A) (dice : Dice A) (sent : Nat)
    (replied : Bool) : Option (World A) :=
  if w.searchReqs req.dest then some w
  else
    (budgetAllocation (forwarded w origin req).1 (forwarded w origin req).2 dice).map fun budgets =>
      let answers := budgets.length ≤ sent ∧ replied
      { markRequest w req.dest with
        requests := w.requests ++ (addressed req.dest budgets).take sent
        repliesSent := if answers then w.repliesSent + 1 else w.repliesSent
        replies := if answers then w.replies + 1 else w.replies }

/-! ## Steps -/

inductive Event (A : Type) where
  | addNeighbor (node nei : A)
  | search (dice : Dice A) (sent : Nat)
  | request (i : Nat) (dice : Dice A) (sent : Nat) (replied : Bool)
  | requestPanics (i : Nat)
  | lose (i : Nat)
  | reply
  | loseReply
  | done
  | timeout

def step (origin : A) (budget : UInt64) (w : World A) : Event A → Option (World A)
  | .addNeighbor node nei =>
    if nei ∈ w.neighbors node ∨ nei = node then some w
    else some { w with neighbors := Function.update w.neighbors node (w.neighbors node ++ [nei]) }
  | .search dice sent => if w.searchReqs origin then none else searchAllFromNei w origin budget dice sent
  | .request i dice sent replied => (w.requests[i]?).bind fun req =>
      searchRequestMessageCallback { w with requests := w.requests.eraseIdx i } origin req dice sent replied
  -- The node is marked before `budgetAllocation` panics.
  | .requestPanics i => (w.requests[i]?).bind fun req =>
      if ¬ w.searchReqs req.dest ∧ allocationPanics (forwarded w origin req).1 (forwarded w origin req).2 then
        some (markRequest { w with requests := w.requests.eraseIdx i } req.dest)
      else none
  | .lose i => if i < w.requests.length then some { w with requests := w.requests.eraseIdx i } else none
  -- `SearchReplyMessageCallback`: the future has room for one reply.
  | .reply =>
    if w.replies = 0 then none
    else if ¬ w.registered then some { w with replies := w.replies - 1 }
    else if w.future = 0 then some { w with replies := w.replies - 1, future := 1 }
    else none
  | .loseReply => if w.replies = 0 then none else some { w with replies := w.replies - 1 }
  | .done =>
    if w.reading ∧ w.future = 1 then some { w with future := 0, finishes := w.finishes - 1 } else none
  | .timeout => if w.reading then some { w with reading := false, registered := false } else none

end MarketPeer.Search

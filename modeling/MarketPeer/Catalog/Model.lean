import MarketPeer.Search.Model
import MarketPeer.Sharing.Model

/-!
# What peers tell each other about files

`SearchAll` and `SearchFirst` of peers that tag names, hold some of the chunks, and pass
requests on. Every request has its answers here, with the files they describe, and the
peer that gets one updates its names and its catalog. A callback, a loop over the
neighbors and a turn of the routine that reads the answers are one step each, but a look
for files reads each key of the blob store at a moment of its own. A packet that was sent
can come at any later time, more than once, or never. The registry catches the panic of a
callback; a peer that panics elsewhere takes no more steps.
-/

namespace MarketPeer.Catalog

open Search (Dice budgetAllocation allocationPanics getNeisExcept)
open Sharing (Key Blob metafileSep)

/-! ## Messages -/

/-- `types.FileInfo`. The chunks are keys, and nil where the peer lacks the chunk. Names and keys are taken to
be UTF-8, as the hex texts are, so that JSON leaves them as they are. -/
structure FileInfo where
  name : String
  metahash : Key
  chunks : List (Option Key)
deriving DecidableEq

/-- A `SearchRequestMessage`, with the peer that sent the packet and the one that gets it. -/
structure Request (P : Type) where
  requestID : Nat
  origin : P
  pattern : String
  budget : UInt64
  relayedBy : P
  dest : P
deriving DecidableEq

/-- A `SearchReplyMessage`, with the source and the destination of its packet. -/
structure Reply (P : Type) where
  requestID : Nat
  source : P
  dest : P
  responses : List FileInfo
deriving DecidableEq

namespace FileInfo

def fullKnown (f : FileInfo) : Bool := f.chunks.all (·.isSome)

/-- What the catalog gets of a file. -/
def keys (f : FileInfo) : List Key := f.metahash :: f.chunks.reduceOption

end FileInfo

/-! ## The stores of a peer -/

abbrev Names := List (String × Key)

/-- `naming.Set`. -/
def Names.set (names : Names) (name : String) (metahash : Key) : Names :=
  (name, metahash) :: names.filter fun b => b.1 ≠ name

/-- `UpdateCatalog`. -/
def updateCatalog {P : Type} [DecidableEq P] (catalog : Key → List P) (key : Key) (peer : P) : Key → List P :=
  Function.update catalog key ((catalog key).insert peer)

/-- What a peer says of a name that matches, if it has the metafile. `reads` is the blob store at each `Get`,
the one of the metafile first: other routines write to it between two of them. -/
def describe (reads : Nat → Blob) (name : String) (metahash : Key) : Option FileInfo :=
  (reads 0 metahash).map fun metafile =>
    ⟨name, metahash, (metafile.splitOn metafileSep).zipIdx.map fun (key, i) =>
      if (reads (i + 1) key).isSome then some key else none⟩

/-- The file of the name can be put together from what these reads find. -/
def isFull (reads : Nat → Blob) (metahash : Key) : Bool :=
  match reads 0 metahash with
  | some metafile => (metafile.splitOn metafileSep).zipIdx.all fun (key, i) => (reads (i + 1) key).isSome
  | none => false

/-- For each name and each `Get` of a look for files, how many writes to the blob store came after it. -/
abbrev Moments := String → Nat → Nat

/-! ## Searches -/

/-- A call of `searchAllFromNei`, or of `searchFirstFromNei` where `first` holds. Its request id is the
place in the list of them all. `registered` says whether the future is in `searchReplyFutures`, `future`
is what it holds, and `reading` is the routine that reads it. -/
structure Inquiry (P : Type) where
  caller : P
  pattern : String
  first : Bool
  finishes : Int
  registered : Bool
  future : Option (Reply P)
  reading : Bool
  nameSet : List String
  fullKnownName : Option String

/-- `SearchAll` with what it has found in its own naming store, or where the expanding ring of `SearchFirst`
is. -/
inductive Task where
  | all (budget : UInt64) (matchNames : List String)
  | first (budget factor : UInt64) (left : Nat)

def Task.isFirst : Task → Bool
  | .all _ _ => false
  | .first _ _ _ => true

/-- A call of `SearchAll` or `SearchFirst`. `asked` is the request it waits for. -/
structure Call (P : Type) where
  caller : P
  pattern : String
  task : Task
  asked : Option Nat

/-- The names that such a call has returned. -/
structure Answer (P : Type) where
  caller : P
  pattern : String
  first : Bool
  names : List String

/-- `peer.ExpandingRing`. -/
structure ExpandingRing where
  initial : UInt64
  factor : UInt64
  retry : UInt64

/-- `requests` and `replies` are those that were ever sent, and `sending` is a handler that waits for room
in a future. `past` is what the blob stores were before, the last one first. -/
structure World (P : Type) where
  neighbors : P → List P
  naming : P → Names
  blob : P → Blob
  past : P → List Blob
  catalog : P → Key → List P
  searchReqs : P → List Nat
  sending : P → Option (Reply P)
  inquiries : List (Inquiry P)
  calls : List (Call P)
  answers : List (Answer P)
  requests : List (Request P)
  replies : List (Reply P)

def World.start (P : Type) : World P where
  neighbors := fun _ => []
  naming := fun _ => []
  blob := fun _ _ => none
  past := fun _ => []
  catalog := fun _ _ => []
  searchReqs := fun _ => []
  sending := fun _ => none
  inquiries := []
  calls := []
  answers := []
  requests := []
  replies := []

variable {P : Type} [DecidableEq P] (matchString : String → String → Bool)

namespace World

def setName (w : World P) (p : P) (name : String) (metahash : Key) : World P :=
  { w with naming := Function.update w.naming p ((w.naming p).set name metahash) }

def setInquiry (w : World P) (id : Nat) (q : Inquiry P) : World P :=
  { w with inquiries := w.inquiries.set id q }

/-- The body of the loop over the responses. -/
def learn (w : World P) (p source : P) (f : FileInfo) : World P :=
  let catalog := f.keys.foldl (fun catalog key => updateCatalog catalog key source) (w.catalog p)
  { w.setName p f.name f.metahash with catalog := Function.update w.catalog p catalog }

/-- `future <- reply`, where the request is one of the peer's own and has a future. A full channel stops
the handler, and with it the listen daemon. -/
def notify (w : World P) (r : Reply P) : World P :=
  match w.inquiries[r.requestID]? with
  | none => w
  | some q =>
    if q.caller = r.dest ∧ q.registered then
      if q.future = none then w.setInquiry r.requestID { q with future := some r }
      else { w with sending := Function.update w.sending r.dest (some r) }
    else w

def searchReplyMessageCallback (w : World P) (r : Reply P) : World P :=
  (r.responses.foldl (fun w f => w.learn r.dest r.source f) w).notify r

/-- The requests of a loop over the neighbors, which ends at the first that cannot be sent. -/
def pass (w : World P) (requestID : Nat) (origin : P) (pattern : String) (relayedBy : P)
    (budgets : List (P × UInt64)) (sent : Nat) : World P :=
  let packets := budgets.map fun b => ⟨requestID, origin, pattern, b.2, relayedBy, b.1⟩
  { w with requests := w.requests ++ packets.take sent }

/-- What the callback divides, when the budget permits to pass the request on. -/
def forwarded (w : World P) (r : Request P) : List P × UInt64 :=
  if r.budget - 1 > 0 then (getNeisExcept (w.neighbors r.dest) [r.relayedBy, r.origin], r.budget - 1) else ([], 0)

/-- The blob store of a peer as it was before the last `ago` writes. -/
def seen (w : World P) (p : P) (ago : Nat) : Blob := (w.blob p :: w.past p).getD ago (w.blob p)

/-- What a peer answers; `order` is that of its naming store, which is locked meanwhile. -/
def responses (w : World P) (p : P) (pattern : String) (order : Names) (moments : Moments) : List FileInfo :=
  (order.filter fun b => matchString pattern b.1).filterMap fun b =>
    describe (fun i => w.seen p (moments b.1 i)) b.1 b.2

/-- The request is not new to the peer any more. -/
def markRequest (w : World P) (p : P) (requestID : Nat) : World P :=
  { w with searchReqs := Function.update w.searchReqs p (requestID :: w.searchReqs p) }

def searchRequestMessageCallback (w : World P) (r : Request P) (order : Names) (moments : Moments)
    (dice : Dice P) (sent : Nat) (replied : Bool) : Option (World P) :=
  if r.requestID ∈ w.searchReqs r.dest then some w
  else
    (budgetAllocation (w.forwarded r).1 (w.forwarded r).2 dice).map fun budgets =>
      let passed := (w.markRequest r.dest r.requestID).pass r.requestID r.origin r.pattern r.dest budgets sent
      if budgets.length ≤ sent ∧ replied then
        let responses := w.responses matchString r.dest r.pattern order moments
        { passed with replies := passed.replies ++ [⟨r.requestID, r.dest, r.origin, responses⟩] }
      else passed

/-- `searchAllFromNei` and `searchFirstFromNei` up to the routine that reads the future. They return early
when a request cannot be sent, before that routine starts. A negative count is a panic of `Add`. -/
def inquire (w : World P) (caller : P) (pattern : String) (first : Bool) (budget : UInt64) (dice : Dice P)
    (sent : Nat) : Option (World P × Bool) :=
  (budgetAllocation (w.neighbors caller) budget dice).bind fun budgets =>
    if 0 ≤ budget.toInt64.toInt then
      let requestID := w.inquiries.length
      let allSent : Bool := budgets.length ≤ sent
      let q : Inquiry P := ⟨caller, pattern, first, budget.toInt64.toInt, true, none, allSent, [], none⟩
      let searchReqs := Function.update w.searchReqs caller (requestID :: w.searchReqs caller)
      let known := { w with searchReqs, inquiries := w.inquiries ++ [q] }
      some (known.pass requestID caller pattern caller budgets sent, allSent)
    else none

end World

namespace Inquiry

/-- `searchAllFromNei` keeps the names of a reply. -/
def gather (q : Inquiry P) (r : Reply P) : Inquiry P :=
  { q with nameSet := r.responses.foldl (fun names f => names.insert f.name) q.nameSet }

/-- `searchFirstFromNei` looks for a file that the source has in full. Then its routine returns, and the
future stays in the map. -/
def check (q : Inquiry P) (r : Reply P) : Inquiry P :=
  match r.responses.find? FileInfo.fullKnown with
  | some f => { q with fullKnownName := some f.name, reading := false }
  | none => q

/-- One reply is read; `finishes.Done` panics when the counter gets negative. -/
def read (q : Inquiry P) (r : Reply P) : Option (Inquiry P) :=
  if q.finishes = 0 then none
  else
    let q := { q with finishes := q.finishes - 1 }
    some (if q.first then q.check r else q.gather r)

end Inquiry

/-! ## Steps -/

inductive Event (P : Type) where
  | tag (p : P) (name : String) (metahash : Key)
  | store (p : P) (key : Key) (value : Option Bytes)
  | addNeighbor (p nei : P)
  -- The listen daemon handles a packet of another kind.
  | packet (p : P)
  | searchAll (p : P) (pattern : String) (budget : UInt64) (order : Names)
  | searchFirst (p : P) (pattern : String) (conf : ExpandingRing) (order : Names) (moments : Moments)
  | ask (i : Nat) (dice : Dice P) (sent : Nat)
  | finish (i : Nat) (order : List String)
  | found (i : Nat)
  | request (r : Request P) (order : Names) (moments : Moments) (dice : Dice P) (sent : Nat) (replied : Bool)
  | requestPanics (r : Request P)
  | reply (r : Reply P)
  | receive (requestID : Nat)
  | timeout (requestID : Nat)

/-- The call has returned these names. -/
def World.answer (w : World P) (i : Nat) (c : Call P) (names : List String) : World P :=
  { w with
    calls := w.calls.eraseIdx i
    answers := w.answers ++ [⟨c.caller, c.pattern, c.task.isFirst, names⟩] }

/-- The part of a call that asks the neighbors. When there are none or a request cannot be sent, `SearchAll`
returns what its own store has, and `SearchFirst` goes to the next round or returns an error. -/
def stepAsk (w : World P) (i : Nat) (c : Call P) (dice : Dice P) (sent : Nat) : Option (World P) :=
  match c.task with
  | .all budget matchNames =>
    if w.neighbors c.caller = [] then some (w.answer i c matchNames)
    else
      (w.inquire c.caller c.pattern false budget dice sent).map fun (w', allSent) =>
        if allSent then { w' with calls := w'.calls.set i { c with asked := some w.inquiries.length } }
        else w'.answer i c matchNames
  | .first budget factor left =>
    if left = 0 then some (w.answer i c [])
    else if w.neighbors c.caller = [] then
      some { w with calls := w.calls.set i { c with task := .first (budget * factor) factor (left - 1) } }
    else
      (w.inquire c.caller c.pattern true budget dice sent).map fun (w', allSent) =>
        if allSent then { w' with calls := w'.calls.set i { c with asked := some w.inquiries.length } }
        else w'.answer i c []

/-- The select at the end of `searchAllFromNei` and `searchFirstFromNei`. Time can be up at any moment, which
ends a round of the ring without a match. -/
def stepFinish (w : World P) (i : Nat) (c : Call P) (q : Inquiry P) (order : List String) : Option (World P) :=
  match c.task with
  | .all _ matchNames => if order.Perm q.nameSet then some (w.answer i c (matchNames ++ order)) else none
  | .first budget factor left =>
    let c := { c with task := .first (budget * factor) factor (left - 1), asked := none }
    some { w with calls := w.calls.set i c }

/-- A reply comes out of the future, and the handler that waits for room in it can go on. -/
def stepReceive (w : World P) (requestID : Nat) (q : Inquiry P) (r : Reply P) : Option (World P) :=
  (q.read r).map fun q =>
    match w.sending q.caller with
    | some waiting =>
      if waiting.requestID = requestID then
        { w.setInquiry requestID { q with future := some waiting } with
          sending := Function.update w.sending q.caller none }
      else w.setInquiry requestID { q with future := none }
    | none => w.setInquiry requestID { q with future := none }

/-- `none`: the event cannot happen now. -/
def step (w : World P) : Event P → Option (World P)
  | .tag p name metahash => some (w.setName p name metahash)
  | .store p key value =>
    let blob := Function.update (w.blob p) key value
    some { w with blob := Function.update w.blob p blob, past := Function.update w.past p (w.blob p :: w.past p) }
  | .addNeighbor p nei => some { w with neighbors := Function.update w.neighbors p ((w.neighbors p).insert nei) }
  | .packet p => if w.sending p = none then some w else none
  | .searchAll p pattern budget order =>
    if order.Perm (w.naming p) then
      let matchNames := (order.map Prod.fst).filter (matchString pattern)
      some { w with calls := w.calls ++ [⟨p, pattern, .all budget matchNames, none⟩] }
    else none
  | .searchFirst p pattern conf order moments =>
    if order.Perm (w.naming p) then
      match order.find? fun b => matchString pattern b.1 && isFull (fun i => w.seen p (moments b.1 i)) b.2 with
      | some b => some { w with answers := w.answers ++ [⟨p, pattern, true, [b.1]⟩] }
      | none =>
        let task := .first conf.initial conf.factor conf.retry.toInt64.toInt.toNat
        some { w with calls := w.calls ++ [⟨p, pattern, task, none⟩] }
    else none
  | .ask i dice sent => w.calls[i]?.bind fun c => if c.asked = none then stepAsk w i c dice sent else none
  | .finish i order =>
    w.calls[i]?.bind fun c => c.asked.bind fun id => w.inquiries[id]?.bind fun q => stepFinish w i c q order
  | .found i =>
    w.calls[i]?.bind fun c => c.asked.bind fun id => w.inquiries[id]?.bind fun q =>
      q.fullKnownName.map fun name => w.answer i c [name]
  | .request r order moments dice sent replied =>
    if r ∈ w.requests ∧ w.sending r.dest = none ∧ order.Perm (w.naming r.dest) then
      w.searchRequestMessageCallback matchString r order moments dice sent replied
    else none
  -- The request is marked before `budgetAllocation` panics.
  | .requestPanics r =>
    if r ∈ w.requests ∧ w.sending r.dest = none ∧ r.requestID ∉ w.searchReqs r.dest ∧
        allocationPanics (w.forwarded r).1 (w.forwarded r).2 then
      some (w.markRequest r.dest r.requestID)
    else none
  | .reply r => if r ∈ w.replies ∧ w.sending r.dest = none then some (w.searchReplyMessageCallback r) else none
  | .receive requestID =>
    w.inquiries[requestID]?.bind fun q =>
      if q.reading then q.future.bind fun r => stepReceive w requestID q r else none
  | .timeout requestID =>
    w.inquiries[requestID]?.bind fun q =>
      if q.reading then some (w.setInquiry requestID { q with reading := false, registered := false }) else none

end MarketPeer.Catalog

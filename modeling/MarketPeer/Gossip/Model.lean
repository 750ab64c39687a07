import MarketPeer.Lib.Runs
import Mathlib.Algebra.Group.Nat.Defs
import Std.Data.ExtTreeMap

/-!
# Gossip

The messager of `peer/impl`: the rumors it has from every origin, `Broadcast`, and the
callbacks of `RumorsMessage` and `StatusMessage`. The listen daemon handles one packet
at a time, but a rumor can embed a `RumorsMessage` again, and other routines call
`Broadcast` between two rumors. So one rumor is one step, and a messager has a stack of
calls of `RumorsMsgCallback`.
-/

namespace MarketPeer.Gossip

/-! ## Messages -/

mutual

/-- A message as the gossip layer sees it; `payload` is everything that it does not look into. A
pointer to a message can be nil. -/
inductive Message where
  | rumors (rumors : List Rumor)
  | privateMessage (recipients : List String) (msg : Option Message)
  | payload (content : String)

inductive Rumor where
  | mk (origin : String) (sequence : UInt64) (msg : Option Message)

end

namespace Rumor

def origin : Rumor → String
  | mk origin _ _ => origin

def sequence : Rumor → UInt64
  | mk _ sequence _ => sequence

def msg : Rumor → Option Message
  | mk _ _ msg => msg

/-- The zero value of the struct. -/
def zero : Rumor := mk "" 0 none

end Rumor

abbrev StatusMessage := Std.ExtTreeMap String UInt64

/-! ## The store -/

/-- The two maps under `seqMu`. -/
structure Store where
  seqs : StatusMessage
  rumors : Std.ExtTreeMap String (List Rumor)

namespace Store

def empty : Store := ⟨∅, ∅⟩

/-- `seqs[origin]`: an entry that is missing reads as zero. -/
def seq (s : Store) (origin : String) : UInt64 := s.seqs.getD origin 0

/-- `rumors[origin]`. -/
def rumorsOf (s : Store) (origin : String) : List Rumor := s.rumors.getD origin []

/-- Both updates of an origin. The memory of the process ends before a slice has 2^63 elements. -/
def append (s : Store) (origin : String) (sequence : UInt64) (held : List Rumor) (rumor : Rumor) : Option Store :=
  if held.length + 1 < 2 ^ 63 then some ⟨s.seqs.insert origin sequence, s.rumors.insert origin (held ++ [rumor])⟩
  else none

/-- `RumorsMsgCallback` looks at the sequence number of a rumor. -/
def expects (s : Store) (rumor : Rumor) : Bool :=
  match s.seqs[rumor.origin]? with
  | some lastSeq => lastSeq + 1 = rumor.sequence
  | none => rumor.sequence = 1

/-- An expected rumor is stored, behind the others or as the first one. -/
def accept (s : Store) (rumor : Rumor) : Option Store :=
  if s.seqs.contains rumor.origin then s.append rumor.origin rumor.sequence (s.rumorsOf rumor.origin) rumor
  else s.append rumor.origin 1 [] rumor

/-- What `Broadcast` does to the store. -/
def broadcast (s : Store) (addr : String) (msg : Message) : Option Store :=
  let s := if s.seqs.contains addr then s else ⟨s.seqs.insert addr 0, s.rumors.insert addr []⟩
  let seq := s.seq addr + 1
  s.append addr seq (s.rumorsOf addr) (.mk addr seq (some msg))

end Store

/-! ## The messager -/

inductive Sent where
  | ack (ackedPacketID : String) (status : StatusMessage)
  | rumors (rumors : List Rumor)
  | status (status : StatusMessage)

/-- A call of `RumorsMsgCallback`: the header of its packet, the message, and the rumors that are
still to come. -/
structure Call where
  relayedBy : String
  packetID : String
  message : List Rumor
  rest : List Rumor
  isNew : Bool

/-- `calls` has the innermost call first. `processed` are the rumors whose message
`RumorsMsgCallback` has handed to `ProcessPacket`, and `sent` is what `Unicast` was given. -/
structure Messager where
  addr : String
  neighbors : List String
  route : Std.ExtTreeMap String String
  store : Store
  calls : List Call
  processed : List Rumor
  sent : List (String × Sent)

def newMessager (addr : String) : Messager where
  addr
  neighbors := []
  route := Std.ExtTreeMap.empty.insert addr addr
  store := .empty
  calls := []
  processed := []
  sent := []

def NONEIGHBOR : String := "NONEIGHBOR"

namespace Messager

def addNeighbor (m : Messager) (addr : String) : Messager :=
  if addr ∈ m.neighbors ∨ addr = m.addr then m else { m with neighbors := m.neighbors ++ [addr] }

def setRoutingEntry (m : Messager) (origin relayAddr : String) : Messager :=
  if relayAddr = "" then { m with route := m.route.erase origin }
  else { m with route := m.route.insert origin relayAddr }

def nextHop (m : Messager) (dest : String) : Option String :=
  if dest ∈ m.neighbors then some dest else m.route[dest]?

/-- `Unicast`; `none` when the destination is unknown. -/
def unicast (m : Messager) (dest : String) (msg : Sent) : Option Messager :=
  (m.nextHop dest).map fun _ => { m with sent := m.sent ++ [(dest, msg)] }

/-- What `randNeighExcept` can return. -/
def neighborsExcept (m : Messager) (except : String) : List String :=
  match m.neighbors with
  | [] => [NONEIGHBOR]
  | [nei] => [nei]
  | neis => neis.filter (· ≠ except)

end Messager

/-- The rumors that a message carries for this node: a `PrivateMessage` is opened by its recipients. -/
def opened (addr : String) : Message → Option (List Rumor)
  | .rumors rumors => some rumors
  | .privateMessage recipients (some msg) => if addr ∈ recipients then opened addr msg else none
  | _ => none

/-! ## Rumors -/

/-- `ProcessPacket` starts another call when there are rumors in the message. -/
def process (m : Messager) (relayedBy packetID : String) (msg : Message) : Messager :=
  match opened m.addr msg with
  | some rumors => { m with calls := ⟨relayedBy, packetID, rumors, rumors, false⟩ :: m.calls }
  | none => m

/-- One round of the loop of `RumorsMsgCallback`. A nil message makes `ProcessPacket` panic, and that
ends the call: the recover of the outer `ProcessPacket` returns it as an error. -/
def nextRumor (m : Messager) (call : Call) (rumor : Rumor) (rest : List Rumor) (outer : List Call) : Option Messager :=
  if m.store.expects rumor then
    (m.store.accept rumor).map fun store =>
      let m := { m with store, processed := m.processed ++ [rumor] }
      let m := m.setRoutingEntry rumor.origin call.relayedBy
      match rumor.msg with
      | none => { m with calls := outer }
      | some msg => process { m with calls := { call with rest, isNew := true } :: outer } call.relayedBy call.packetID msg
  else some { m with calls := { call with rest } :: outer }

/-- The end of `RumorsMsgCallback`: the ack, and the message goes on to a neighbor when it had
something new. An error ends the call. -/
def finish (m : Messager) (call : Call) (randNei : String) : Messager :=
  match m.unicast call.relayedBy (.ack call.packetID m.store.seqs) with
  | none => m
  | some m =>
    if call.isNew ∧ randNei ≠ call.relayedBy then (m.unicast randNei (.rumors call.message)).getD m else m

/-! ## Status -/

/-- What the other node lacks. The slice is in range when `rumors` holds as much as `seqs` says. -/
def meExceptOther (s : Store) (otherView : StatusMessage) : Std.ExtTreeMap String (List Rumor) :=
  s.seqs.filterMap fun p lastSeq =>
    match otherView[p]? with
    | some otherLastSeq =>
      if otherLastSeq < lastSeq then some (((s.rumorsOf p).take lastSeq.toNat).drop otherLastSeq.toNat) else none
    | none => some ((s.rumorsOf p).take lastSeq.toNat)

def otherExceptMe (s : Store) (otherView : StatusMessage) : Bool :=
  s.seqs.toList.any (fun e => otherView[e.1]?.any fun otherLastSeq => e.2 < otherLastSeq) ||
    otherView.toList.any fun e => !s.seqs.contains e.1

/-- `otherMissingRumors[:10]` of a slice that was made with room for ten: what is not filled is zero. -/
def firstTen (rumors : List Rumor) : List Rumor := (rumors ++ List.replicate 10 Rumor.zero).take 10

/-- What `StatusMsgCallback` sends to the other node. `order` is the one in which `range` gives the
keys of `meExceptOther`. -/
def statusReply (s : Store) (otherView : StatusMessage) (order : List String) : Option Sent :=
  let missing := meExceptOther s otherView
  if ¬ missing.isEmpty then some (.rumors (firstTen (order.flatMap fun p => missing.getD p [])))
  else if otherExceptMe s otherView then some (.status s.seqs)
  else none

/-- `StatusMsgCallback`. When the views are the same, `mongers` is the random neighbor that gets the
status too, if there is to be one. -/
def statusMsgCallback (m : Messager) (other : String) (otherView : StatusMessage) (order : List String)
    (mongers : Option String) : Messager :=
  match statusReply m.store otherView order, mongers with
  | some sent, _ => (m.unicast other sent).getD m
  | none, some nei => if nei = other then m else (m.unicast nei (.status m.store.seqs)).getD m
  | none, none => m

/-! ## Steps -/

inductive Event where
  | broadcast (msg : Message)
  | receive (relayedBy packetID : String) (msg : Message)
  | nextRumor
  | done (randNei : String)
  | receiveStatus (relayedBy other : String) (otherView : StatusMessage) (order : List String) (mongers : Option String)

/-- `none`: the event cannot happen now, or it ends the process. -/
def step (m : Messager) : Event → Option Messager
  | .broadcast msg => (m.store.broadcast m.addr msg).map fun store => { m with store }
  | .receive relayedBy packetID msg =>
    if m.calls = [] then some (process (m.addNeighbor relayedBy) relayedBy packetID msg) else none
  | .nextRumor =>
    match m.calls with
    | [] => none
    | call :: outer =>
      match call.rest with
      | [] => none
      | rumor :: rest => nextRumor m call rumor rest outer
  | .done randNei =>
    match m.calls with
    | [] => none
    | call :: outer =>
      if call.rest = [] ∧ randNei ∈ m.neighborsExcept call.relayedBy then
        some (finish { m with calls := outer } call randNei)
      else none
  | .receiveStatus relayedBy other otherView order mongers =>
    if m.calls = [] ∧ order.Perm (meExceptOther m.store otherView).keys ∧
        ∀ nei ∈ mongers, nei ∈ (m.addNeighbor relayedBy).neighborsExcept other then
      some (statusMsgCallback (m.addNeighbor relayedBy) other otherView order mongers)
    else none

end MarketPeer.Gossip

import MarketPeer.Gossip.Store
import Mathlib.Logic.Function.Basic

/-!
# A network of messagers

Every node runs the messager of `peer/impl`: its listen daemon, which relays what is
for others, its status report and the routines of its broadcasts. A packet that was
sent can come at any later time, more than once, or never.
-/

namespace MarketPeer.Gossip

/-! ## Packets -/

/-- A rumor only embeds messages of higher layers, never rumors again. -/
def Message.higher : Message → Bool
  | .rumors _ => false
  | .privateMessage _ (some msg) => msg.higher
  | .privateMessage _ none => true
  | .payload _ => true

inductive Body where
  | gossip (sent : Sent)
  | app (content : String)

structure Packet where
  packetID : String
  source : String
  relayedBy : String
  destination : String
  body : Body

/-- A packet in the socket of `hop`. `via` are the nodes that sent it to another node than its
destination, each with the last rumor of the destination that it had; nothing reads it. -/
structure Flight where
  hop : String
  packet : Packet
  via : List (String × Nat)

/-! ## Nodes -/

/-- The routine of a `Broadcast`; `waiting` is the packet whose ack it waits for. -/
structure Attempt where
  rumor : Rumor
  preNei : String
  tried : Nat
  processed : Bool
  waiting : Option String

/-- `ackFutures` says for each future whether an ack is in it, `waitsFor` is the future in which the
listen daemon waits to put another one, and `handled` are the own messages that `Broadcast` has handed
to `ProcessPacket`. -/
structure Node where
  messager : Messager
  ackFutures : String → Option Bool
  waitsFor : Option String
  broadcasts : List Attempt
  handled : List Rumor

def newNode (addr : String) : Node := ⟨newMessager addr, fun _ => none, none, [], []⟩

/-- `AddPeer`, with one address. -/
def Messager.addPeer (m : Messager) (addr : String) : Messager :=
  { m with route := m.route.insert addr addr }.addNeighbor addr

namespace Node

/-- `Broadcast` up to its routine. -/
def broadcast (n : Node) (msg : Message) : Option Node :=
  (step n.messager (.broadcast msg)).map fun m =>
    let rumor := .mk m.addr (m.store.seq m.addr) (some msg)
    { n with messager := m, broadcasts := n.broadcasts ++ [⟨rumor, "", 0, false, none⟩] }

/-- One round of the loop of `Broadcast` up to its wait, with the packet it sends. An error ends the
routine and leaves the future. -/
def attempt (n : Node) (i : Nat) (packetID randNei : String) (ok : Bool) : Option (Node × List Packet) :=
  n.broadcasts[i]?.bind fun b =>
    if b.tried = 0 ∧ n.messager.neighbors = [] then
      some ({ n with handled := n.handled ++ [b.rumor], broadcasts := n.broadcasts.eraseIdx i }, [])
    else if b.waiting = none ∧ b.tried < 2 ∧ randNei ∈ n.messager.neighborsExcept b.preNei then
      let b' : Attempt := ⟨b.rumor, randNei, b.tried + 1, true, some packetID⟩
      some
        ({ n with
            ackFutures := Function.update n.ackFutures packetID (some false)
            handled := if b.processed then n.handled else n.handled ++ [b.rumor]
            broadcasts := if ok then n.broadcasts.set i b' else n.broadcasts.eraseIdx i },
          [⟨packetID, n.messager.addr, n.messager.addr, randNei, .gossip (.rumors [b.rumor])⟩])
    else none

/-- The ack comes before the timer, and there is room for the next one. -/
def acked (n : Node) (i : Nat) : Option Node :=
  n.broadcasts[i]?.bind fun b => b.waiting.bind fun packetID =>
    if n.ackFutures packetID = some true then
      some { n with
        ackFutures := Function.update n.ackFutures packetID none
        waitsFor := if n.waitsFor = some packetID then none else n.waitsFor
        broadcasts := n.broadcasts.eraseIdx i }
    else none

def ackTimeout (n : Node) (i : Nat) : Option Node :=
  n.broadcasts[i]?.bind fun b => b.waiting.map fun packetID =>
    { n with
      ackFutures := Function.update n.ackFutures packetID none
      broadcasts := if b.tried < 2 then n.broadcasts.set i { b with waiting := none } else n.broadcasts.eraseIdx i }

/-- `AckMsgCallback` up to its `ProcessPacket`. It waits while there is an ack in the future, for ever
when the routine has left the future behind. -/
def ack (n : Node) (ackedPacketID : String) : Node :=
  match n.ackFutures ackedPacketID with
  | none => n
  | some false => { n with ackFutures := Function.update n.ackFutures ackedPacketID (some true) }
  | some true => { n with waitsFor := some ackedPacketID }

/-- The callback of a packet for this node. When a wait is over, the rest of the callback is what it
does with the same packet once more. -/
def processPacket (n : Node) (pkt : Packet) (order : List String) (mongers : Option String) : Option Node :=
  match pkt.body with
  | .app _ =>
    if n.messager.calls = [] then some { n with messager := n.messager.addNeighbor pkt.relayedBy } else none
  | .gossip (.rumors rumors) =>
    (step n.messager (.receive pkt.relayedBy pkt.packetID (.rumors rumors))).map fun m => { n with messager := m }
  | .gossip (.status status) =>
    (step n.messager (.receiveStatus pkt.relayedBy pkt.source status order mongers)).map fun m =>
      { n with messager := m }
  | .gossip (.ack ackedPacketID status) =>
    let n := n.ack ackedPacketID
    if n.waitsFor = none then
      (step n.messager (.receiveStatus pkt.relayedBy pkt.source status order mongers)).map fun m =>
        { n with messager := m }
    else if n.messager.calls = [] then some { n with messager := n.messager.addNeighbor pkt.relayedBy }
    else none

end Node

/-! ## The network -/

/-- `flights` are all packets sent so far, and `taken` says which node took which rumor of which other
origin, in the order in which they did; nothing reads it. -/
structure Network where
  nodes : String → Node
  flights : List Flight
  taken : List (String × String × Nat)

def Network.init : Network := ⟨newNode, [], []⟩

/-- The packets of `Unicast`, numbered from `next` on. -/
def launch (m : Messager) (next : Nat) : List (String × Sent) → List Flight
  | [] => []
  | (dest, sent) :: rest =>
    match m.nextHop dest with
    | some hop => ⟨hop, ⟨toString next, m.addr, m.addr, dest, .gossip sent⟩, []⟩ :: launch m (next + 1) rest
    | none => launch m next rest

/-- `send`, of a packet that has come through `via`. -/
def send (m : Messager) (pkt : Packet) (via : List (String × Nat)) : List Flight :=
  match m.nextHop pkt.destination with
  | some hop =>
    [⟨hop, pkt,
      if hop = pkt.destination then via else via ++ [(m.addr, (m.store.seq pkt.destination).toNat)]⟩]
  | none => []

namespace Network

/-- What a step of node `a` leaves. `flights` are the packets that did not go through `Unicast`. -/
def commit (w : Network) (a : String) (n : Node) (flights : List Flight) : Network where
  nodes := Function.update w.nodes a n
  flights := w.flights ++ flights ++
    launch n.messager w.flights.length (n.messager.sent.drop (w.nodes a).messager.sent.length)
  taken := w.taken ++ (n.messager.processed.drop (w.nodes a).messager.processed.length).map fun r =>
    (a, r.origin, r.sequence.toNat)

/-- The listen daemon takes a packet out of its socket. -/
def receive (w : Network) (a : String) (f : Flight) (order : List String) (mongers : Option String) :
    Option Network :=
  let n := w.nodes a
  if f.hop ≠ a ∨ n.waitsFor ≠ none then none
  else if f.packet.destination = a then
    (n.processPacket f.packet order mongers).map fun n => w.commit a n []
  else if n.messager.calls = [] then
    let m := n.messager.addNeighbor f.packet.relayedBy
    some (w.commit a { n with messager := m } (send m { f.packet with relayedBy := a } f.via))
  else none

end Network

inductive NodeEvent where
  | addPeer (addr : String)
  | setRoutingEntry (origin relayAddr : String)
  | broadcast (msg : Message)
  | attempt (i : Nat) (randNei : String) (ok : Bool)
  | acked (i : Nat)
  | ackTimeout (i : Nat)
  | report (nei : String)
  | unicast (dest content : String)
  | receive (k : Nat) (order : List String) (mongers : Option String)
  | nextRumor
  | done (randNei : String)

structure NetEvent where
  node : String
  event : NodeEvent

def nodeStep (w : Network) (a : String) : NodeEvent → Option Network
  | .addPeer addr =>
    let n := w.nodes a
    some (w.commit a { n with messager := n.messager.addPeer addr } [])
  | .setRoutingEntry origin relayAddr =>
    let n := w.nodes a
    some (w.commit a { n with messager := n.messager.setRoutingEntry origin relayAddr } [])
  | .broadcast msg =>
    if msg.higher then ((w.nodes a).broadcast msg).map fun n => w.commit a n [] else none
  | .attempt i randNei ok =>
    ((w.nodes a).attempt i (toString w.flights.length) randNei ok).map fun (n, pkts) =>
      w.commit a n (pkts.flatMap fun pkt => send n.messager pkt [])
  | .acked i => ((w.nodes a).acked i).map fun n => w.commit a n []
  | .ackTimeout i => ((w.nodes a).ackTimeout i).map fun n => w.commit a n []
  -- `statusReportDaemon`
  | .report nei =>
    let n := w.nodes a
    if nei ∈ n.messager.neighbors then
      (n.messager.unicast nei (.status n.messager.store.seqs)).map fun m => w.commit a { n with messager := m } []
    else none
  | .unicast dest content =>
    let n := w.nodes a
    some (w.commit a n (send n.messager ⟨toString w.flights.length, a, a, dest, .app content⟩ []))
  | .receive k order mongers => w.flights[k]?.bind fun f => w.receive a f order mongers
  | .nextRumor =>
    (step (w.nodes a).messager .nextRumor).map fun m => w.commit a { w.nodes a with messager := m } []
  | .done randNei =>
    (step (w.nodes a).messager (.done randNei)).map fun m => w.commit a { w.nodes a with messager := m } []

/-- No socket has the empty address. -/
def netStep (w : Network) (e : NetEvent) : Option Network := if e.node = "" then none else nodeStep w e.node e.event

/-- A message that the event gives to the `Broadcast` of node `o`. -/
def NetEvent.broadcastAt (o : String) (ev : NetEvent) : Option Message :=
  match ev.event with
  | .broadcast msg => if ev.node = o then some msg else none
  | _ => none

/-- What node `o` was told to broadcast, in this order. -/
def broadcastsOf (o : String) (es : List NetEvent) : List Message := es.filterMap (·.broadcastAt o)

end MarketPeer.Gossip

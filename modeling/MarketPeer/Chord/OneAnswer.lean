import MarketPeer.Lib.Counting
import MarketPeer.Chord.Fingers

/-!
# One request, one answer

`ChordFindSuccessorCallback` against `findSuccessor` on the same node, and the lookups
of a network whose pointers change at any time. A request keeps its number on all its
hops, and a call that has timed out leaves its reply to the channel.
-/

namespace MarketPeer.Chord

variable {N : Nat} {V : Type} {cfg : Config N}

/-! ## One node -/

/-- The callback sends one message, with the decision of `findSuccessor`. -/
def AnswersOnce (cfg : Config N) (self : Fin N) (node : Node N V) (source : Fin N) (id : Nat) : Prop :=
  match findSuccessor cfg self node id with
  | .found addr => chordFindSuccessorCallback cfg self node source id = [(source, .findSuccessorReply addr id)]
  | .remote nStar => chordFindSuccessorCallback cfg self node source id = [(nStar, .findSuccessor source id)]
  | .error => False

/-- The node does not own the identifier, and the callback does not refuse its successor. -/
def PassesOn (cfg : Config N) (self : Fin N) (node : Node N V) (id : Nat) : Prop :=
  ownsKey cfg self node id = false ∧ node.successor ≠ some self

instance (cfg : Config N) (self : Fin N) (node : Node N V) (id : Nat) : Decidable (PassesOn cfg self node id) :=
  inferInstanceAs (Decidable (_ ∧ _))

section Node

variable {self source : Fin N} {node : Node N V} {id : Nat}

theorem PassesOn.answersOnce (h : PassesOn cfg self node id)
    (htable : node.fingerTable.length = cfg.chordBits) : AnswersOnce cfg self node source id := by
  obtain ⟨howns, hloop⟩ := h
  unfold AnswersOnce
  rw [callback_eq howns hloop]
  cases hfind : findSuccessor cfg self node id with
  | found addr => rfl
  | remote nStar => rfl
  | error =>
    obtain ⟨a, hclosest, -⟩ := closestPrecedingNode_cases cfg self node.fingerTable id cfg.chordBits htable.ge
    unfold findSuccessor at hfind
    rw [hclosest] at hfind
    grind

/-- An owner that does not refuse the request sends its reply and goes on. -/
theorem callback_owner_length (howns : ownsKey cfg self node id = true) (hloop : node.successor ≠ some self)
    (htable : node.fingerTable.length = cfg.chordBits) :
    (chordFindSuccessorCallback cfg self node source id).length = 2 := by
  obtain ⟨a, hclosest, -⟩ := closestPrecedingNode_cases cfg self node.fingerTable id cfg.chordBits htable.ge
  unfold chordFindSuccessorCallback
  rw [if_neg hloop, if_pos howns, List.length_append]
  cases node.successor with
  | none => rfl
  | some s => simp only [hclosest]; split_ifs <;> rfl

theorem AnswersOnce.message (h : AnswersOnce cfg self node source id) :
    (∃ addr, chordFindSuccessorCallback cfg self node source id = [(source, .findSuccessorReply addr id)]) ∨
      ∃ nStar, chordFindSuccessorCallback cfg self node source id = [(nStar, .findSuccessor source id)] := by
  unfold AnswersOnce at h
  split at h
  · exact .inl ⟨_, h⟩
  · exact .inr ⟨_, h⟩
  · exact h.elim

theorem AnswersOnce.length (h : AnswersOnce cfg self node source id) :
    (chordFindSuccessorCallback cfg self node source id).length = 1 := by
  rcases h.message with ⟨addr, heq⟩ | ⟨nStar, heq⟩
  · rw [heq]; rfl
  · rw [heq]; rfl

theorem answersOnce_iff (htable : node.fingerTable.length = cfg.chordBits) :
    AnswersOnce cfg self node source id ↔ PassesOn cfg self node id := by
  constructor
  · intro h
    have hone := h.length
    have hloop : node.successor ≠ some self := by
      intro hself
      simp [chordFindSuccessorCallback, hself] at hone
    refine ⟨?_, hloop⟩
    by_contra howns
    rw [callback_owner_length (by simpa using howns) hloop htable] at hone
    omega
  · exact fun h => h.answersOnce htable

end Node

/-! ## The network -/

/-- A lookup message on its way. Nothing reads the number of its request. -/
structure LookupPacket (N : Nat) (V : Type) where
  request : Nat
  destination : Fin N
  msg : Msg N V

/-- `waiting` and `timedOut` are the calls of `FindSuccessorRemote`, by node and identifier; `replies`
are the requests that each reply sent so far belongs to. -/
structure Routed (N : Nat) (V : Type) where
  nodes : Fin N → Node N V
  net : List (LookupPacket N V)
  requests : Nat
  replies : List Nat
  waiting : List (Fin N × Nat)
  timedOut : List (Fin N × Nat)

inductive RouteEvent (N : Nat) where
  | request (n dest : Fin N) (id : Nat)
  | receive (n : Fin N) (id : Nat)
  | timeout (n : Fin N) (id : Nat)
  | deliver (k : Nat)
  | repoint (n : Fin N) (successor predecessor : Option (Fin N)) (fingerTable : List (Option (Fin N)))

def Msg.isReply : Msg N V → Bool
  | .findSuccessorReply _ _ => true
  | _ => false

def stamp (request : Nat) (sends : List (Fin N × Msg N V)) : List (LookupPacket N V) :=
  sends.map fun s => ⟨request, s.1, s.2⟩

def Routed.request (w : Routed N V) (n dest : Fin N) (id : Nat) : Option (Routed N V) :=
  (findSuccessorRemote n (w.nodes n) dest id).map fun e =>
    { w with
      nodes := Function.update w.nodes n e.node
      net := w.net ++ stamp w.requests e.sends
      requests := w.requests + 1
      waiting := (n, id) :: w.waiting }

/-- A waiting call takes the first reply out of the channel. -/
def Routed.receive (w : Routed N V) (n : Fin N) (id : Nat) : Option (Routed N V) :=
  if (n, id) ∈ w.waiting then
    match (w.nodes n).findSuccessorCh id with
    | some (_ :: rest) =>
      some { w with
        nodes := Function.update w.nodes n { w.nodes n with
          findSuccessorCh := Function.update (w.nodes n).findSuccessorCh id (some rest) }
        waiting := w.waiting.erase (n, id) }
    | _ => none
  else none

def Routed.timeout (w : Routed N V) (n : Fin N) (id : Nat) : Option (Routed N V) :=
  if (n, id) ∈ w.waiting then
    some { w with waiting := w.waiting.erase (n, id), timedOut := (n, id) :: w.timedOut }
  else none

def Routed.deliver (cfg : Config N) (w : Routed N V) (k : Nat) : Option (Routed N V) :=
  (w.net[k]?).bind fun pkt =>
    match pkt.msg with
    | .findSuccessor source id =>
      let sends := chordFindSuccessorCallback cfg pkt.destination (w.nodes pkt.destination) source id
      some { w with
        net := w.net.eraseIdx k ++ stamp pkt.request sends
        replies := w.replies ++ (sends.filter (·.2.isReply)).map fun _ => pkt.request }
    | .findSuccessorReply dest id =>
      (chordFindSuccessorReplyCallback (w.nodes pkt.destination) dest id).map fun node =>
        { w with nodes := Function.update w.nodes pkt.destination node, net := w.net.eraseIdx k }
    | _ => none

/-- `Join`, `Stabilize`, `ChordNotifyCallback` and `FixFinger` may do anything to the pointers. -/
def Routed.repoint (cfg : Config N) (w : Routed N V) (n : Fin N) (successor predecessor : Option (Fin N))
    (fingerTable : List (Option (Fin N))) : Option (Routed N V) :=
  if fingerTable.length = cfg.chordBits then
    some { w with nodes := Function.update w.nodes n { w.nodes n with successor, predecessor, fingerTable } }
  else none

def routeStep (cfg : Config N) (w : Routed N V) : RouteEvent N → Option (Routed N V)
  | .request n dest id => w.request n dest id
  | .receive n id => w.receive n id
  | .timeout n id => w.timeout n id
  | .deliver k => w.deliver cfg k
  | .repoint n successor predecessor fingerTable => w.repoint cfg n successor predecessor fingerTable

/-- How many replies lie in a channel. -/
def Node.unread (node : Node N V) (id : Nat) : Nat := ((node.findSuccessorCh id).getD []).length

/-- No lookup has been made yet; the pointers are as they like. -/
structure Routed.Fresh (cfg : Config N) (w : Routed N V) : Prop where
  tables : ∀ n, (w.nodes n).fingerTable.length = cfg.chordBits
  net : w.net = []
  requests : w.requests = 0
  replies : w.replies = []
  timedOut : w.timedOut = []
  unread : ∀ n id, (w.nodes n).unread id = 0

/-- The identifier that a packet asks for. -/
def LookupPacket.asked (pkt : LookupPacket N V) : Option Nat :=
  match pkt.msg with
  | .findSuccessor _ id => some id
  | _ => none

/-- The node that a request comes to passes it on, and no call gives up. -/
def Routed.PassesOn (cfg : Config N) (w : Routed N V) : RouteEvent N → Prop
  | .deliver k => ∀ pkt ∈ (w.net[k]?).toList, ∀ id ∈ pkt.asked.toList,
      Chord.PassesOn cfg pkt.destination (w.nodes pkt.destination) id
  | .timeout _ _ => False
  | _ => True

instance (w : Routed N V) : ∀ e : RouteEvent N, Decidable (w.PassesOn cfg e)
  | .deliver _ => List.decidableBAll _ _
  | .timeout .. => isFalse id
  | .request .. | .receive .. | .repoint .. => isTrue trivial

/-- The request is on its way in this packet. -/
def LookupPacket.asks (t : Nat) (pkt : LookupPacket N V) : Bool := pkt.request == t && !pkt.msg.isReply

/-- The packet will bring node `n` a reply for `id`. -/
def LookupPacket.owes (n : Fin N) (id : Nat) (pkt : LookupPacket N V) : Bool :=
  match pkt.msg with
  | .findSuccessor source id' => source == n && id' == id
  | .findSuccessorReply _ id' => pkt.destination == n && id' == id
  | _ => false

section Packets

variable {t request id id' : Nat} {n source destination dest : Fin N}

@[simp] theorem isReply_findSuccessor : (Msg.findSuccessor source id : Msg N V).isReply = false := rfl

@[simp] theorem isReply_findSuccessorReply : (Msg.findSuccessorReply dest id : Msg N V).isReply = true := rfl

@[simp] theorem asks_mk (msg : Msg N V) :
    LookupPacket.asks t ⟨request, destination, msg⟩ = (request == t && !msg.isReply) := rfl

@[simp] theorem owes_request :
    LookupPacket.owes n id' (⟨request, destination, .findSuccessor source id⟩ : LookupPacket N V) =
      (source == n && id == id') := rfl

@[simp] theorem owes_reply :
    LookupPacket.owes n id' (⟨request, destination, .findSuccessorReply dest id⟩ : LookupPacket N V) =
      (destination == n && id == id') := rfl

end Packets

/-- Every request is on its way or has had its one reply, and a channel that nobody waits on holds
nothing for the next call. -/
structure Routed.OneReply (w : Routed N V) : Prop where
  once : ∀ t < w.requests, w.replies.count t + w.net.countP (·.asks t) = 1
  noStale : ∀ n id, (n, id) ∉ w.waiting → (w.nodes n).unread id = 0

/-! ## Every step -/

/-- What holds in every state: `OneReply` with the packets and the calls behind it. -/
structure Routed.Ok (cfg : Config N) (w : Routed N V) : Prop where
  tables : ∀ n, (w.nodes n).fingerTable.length = cfg.chordBits
  numbered : ∀ pkt ∈ w.net, pkt.request < w.requests
  counted : ∀ t ∈ w.replies, t < w.requests
  once : ∀ t < w.requests, w.replies.count t + w.net.countP (·.asks t) = 1
  owed : ∀ n id, (w.nodes n).unread id + w.net.countP (·.owes n id) ≤ w.waiting.count (n, id)

theorem Routed.Fresh.ok {w : Routed N V} (h : w.Fresh cfg) : w.Ok cfg where
  tables := h.tables
  numbered := by simp [h.net]
  counted := by simp [h.replies]
  once := by simp [h.requests]
  owed n id := by simp [h.net, h.unread]

theorem Routed.Ok.oneReply {w : Routed N V} (h : w.Ok cfg) : w.OneReply where
  once := h.once
  noStale n id hwait := by
    have howed := h.owed n id
    rw [List.count_eq_zero_of_not_mem hwait] at howed
    omega

section Steps

variable {w w' : Routed N V} {n dest : Fin N} {id k : Nat} {pkt : LookupPacket N V} {node : Node N V}

theorem Node.unread_of_channel {ch : List (Fin N)} (h : node.findSuccessorCh id = some ch) :
    node.unread id = ch.length := by
  rw [Node.unread, h]
  rfl

/-- A new channel holds nothing yet. -/
theorem Node.unread_make (node : Node N V) (id id' : Nat) :
    { node with findSuccessorCh :=
        Function.update node.findSuccessorCh id (some ((node.findSuccessorCh id).getD [])) }.unread id' =
      node.unread id' := by
  by_cases h : id' = id
  · subst h
    simp [Node.unread]
  · simp [Node.unread, h]

theorem Node.unread_write_other (node : Node N V) (ch : List (Fin N)) {id' : Nat} (h : id' ≠ id) :
    { node with findSuccessorCh := Function.update node.findSuccessorCh id (some ch) }.unread id' =
      node.unread id' := by
  simp [Node.unread, h]

/-- The callback adds a reply to the channel of its identifier, or leaves all channels as they are. -/
theorem chordFindSuccessorReplyCallback_spec {node' : Node N V}
    (h : chordFindSuccessorReplyCallback node dest id = some node') :
    node'.fingerTable = node.fingerTable ∧
      ∀ id', node'.unread id' ≤ node.unread id' + if id = id' then 1 else 0 := by
  unfold chordFindSuccessorReplyCallback at h
  split_ifs at h
  split at h
  · rename_i ch hch
    split_ifs at h
    obtain rfl := Option.some.inj h
    refine ⟨rfl, fun id' => ?_⟩
    by_cases hid : id' = id
    · subst hid
      rw [Node.unread_of_channel hch, Node.unread_of_channel (Function.update_self ..)]
      simp
    · rw [Node.unread_write_other _ _ hid]
      exact Nat.le_add_right ..
  · obtain rfl := Option.some.inj h
    exact ⟨rfl, fun id' => Nat.le_add_right ..⟩

theorem tables_update {nodes : Fin N → Node N V} (h : ∀ m, (nodes m).fingerTable.length = cfg.chordBits)
    (hnode : node.fingerTable.length = cfg.chordBits) (m : Fin N) :
    (Function.update nodes n node m).fingerTable.length = cfg.chordBits := by
  by_cases hm : m = n
  · subst hm
    rwa [Function.update_self]
  · rw [Function.update_of_ne hm]
    exact h m

theorem Routed.Ok.request (h : w.Ok cfg) (hstep : w.request n dest id = some w') : w'.Ok cfg := by
  unfold Routed.request findSuccessorRemote at hstep
  split_ifs at hstep
  · cases hstep
  simp only [Option.map_some, Option.some.injEq] at hstep
  subst hstep
  refine ⟨tables_update h.tables (h.tables n), fun pkt hpkt => ?_, fun t ht => ?_, fun t ht => ?_,
    fun m id' => ?_⟩ <;> dsimp only at *
  · rcases List.mem_append.mp hpkt with hpkt | hpkt
    · exact (h.numbered pkt hpkt).trans (Nat.lt_succ_self _)
    · simp only [stamp, List.map_cons, List.map_nil, List.mem_singleton] at hpkt
      subst hpkt
      exact Nat.lt_succ_self _
  · exact (h.counted t ht).trans (Nat.lt_succ_self _)
  · rw [List.countP_append]
    by_cases hnew : t = w.requests
    · have hreplies : w.replies.count t = 0 :=
        List.count_eq_zero_of_not_mem fun hmem => by have := h.counted t hmem; omega
      have hnet : w.net.countP (·.asks t) = 0 :=
        List.countP_eq_zero.mpr fun pkt hpkt => by
          have hne : pkt.request ≠ t := by have := h.numbered pkt hpkt; omega
          simp [LookupPacket.asks, hne]
      rw [hreplies, hnet]
      simp [stamp, hnew]
    · have hold := h.once t (by omega)
      simpa [stamp, Ne.symm hnew] using hold
  · have howed := h.owed m id'
    rw [update_proj (·.unread id') (Node.unread_make (w.nodes n) id id') m, List.countP_append, List.count_cons]
    by_cases hsame : (n, id) = (m, id')
    · obtain ⟨rfl, rfl⟩ := Prod.mk.inj hsame
      simp [stamp]
      omega
    · have hnot : ¬ (n = m ∧ id = id') := by simpa using hsame
      simp [stamp, hnot]
      omega

/-- A reply moves from the channel to a call. -/
theorem Routed.Ok.receive (h : w.Ok cfg) (hstep : w.receive n id = some w') : w'.Ok cfg := by
  unfold Routed.receive at hstep
  split_ifs at hstep with hwait
  split at hstep
  · rename_i first rest hch
    simp only [Option.some.injEq] at hstep
    subst hstep
    refine ⟨tables_update h.tables (h.tables n), h.numbered, h.counted, h.once, fun m id' => ?_⟩
    have howed := h.owed m id'
    dsimp only
    by_cases hsame : (m, id') = (n, id)
    · obtain ⟨rfl, rfl⟩ := Prod.mk.inj hsame
      have hpos : 0 < w.waiting.count (m, id') := List.count_pos_iff.mpr hwait
      rw [Node.unread_of_channel hch, List.length_cons] at howed
      rw [Function.update_self, Node.unread_of_channel (Function.update_self ..), List.count_erase_self]
      omega
    · rw [List.count_erase_of_ne hsame]
      by_cases hm : m = n
      · subst hm
        have hid : id' ≠ id := fun heq => hsame (by rw [heq])
        rw [Function.update_self, Node.unread_write_other _ _ hid]
        exact howed
      · rw [Function.update_of_ne hm]
        exact howed
  · cases hstep

/-- The message that passes a request on is owed to the same call. -/
theorem AnswersOnce.packet {self source} (h : AnswersOnce cfg self node source id) :
    ∃ d m, chordFindSuccessorCallback cfg self node source id = [(d, m)] ∧
      ∀ request n id',
        LookupPacket.owes n id' (⟨request, d, m⟩ : LookupPacket N V) = (source == n && id == id') := by
  rcases h.message with ⟨addr, heq⟩ | ⟨nStar, heq⟩
  · exact ⟨_, _, heq, fun _ _ _ => rfl⟩
  · exact ⟨_, _, heq, fun _ _ _ => rfl⟩

/-- A request leaves the node as one message of the same request, for the same call. -/
theorem Routed.Ok.handle {request source destination} (h : w.Ok cfg)
    (hpkt : w.net[k]? = some ⟨request, destination, .findSuccessor source id⟩)
    (hpasses : Chord.PassesOn cfg destination (w.nodes destination) id)
    (hstep : w.deliver cfg k = some w') : w'.Ok cfg := by
  simp only [Routed.deliver, hpkt, Option.bind_some, Option.some.injEq] at hstep
  subst hstep
  have hnumber := h.numbered _ (List.mem_of_getElem? hpkt)
  obtain ⟨d, m, heq, howed'⟩ := (hpasses.answersOnce (h.tables destination)).packet
  rw [heq]
  refine ⟨h.tables, fun pkt hp => ?_, fun t ht => ?_, fun t ht => ?_, fun m id' => ?_⟩ <;> dsimp only at *
  · rcases List.mem_append.mp hp with hp | hp
    · exact h.numbered pkt (List.mem_of_mem_eraseIdx hp)
    · obtain rfl : pkt = _ := by simpa [stamp] using hp
      exact hnumber
  · rcases List.mem_append.mp ht with ht | ht
    · exact h.counted t ht
    · obtain ⟨_, -, rfl⟩ := List.mem_map.mp ht
      exact hnumber
  · have honce := h.once t ht
    have hgone := countP_eraseIdx hpkt (·.asks t)
    cases hreply : m.isReply with
    | true =>
      simp [stamp, hreply, List.count_singleton] at hgone ⊢
      omega
    | false =>
      simp [stamp, hreply] at hgone ⊢
      omega
  · have howed := h.owed m id'
    have hgone := countP_eraseIdx hpkt (·.owes m id')
    simp [stamp, howed'] at hgone ⊢
    omega

/-- A reply moves from the net to the channel. -/
theorem Routed.Ok.take {request destination} (h : w.Ok cfg)
    (hpkt : w.net[k]? = some ⟨request, destination, .findSuccessorReply dest id⟩)
    (hstep : w.deliver cfg k = some w') : w'.Ok cfg := by
  simp only [Routed.deliver, hpkt, Option.bind_some, Option.map_eq_some_iff] at hstep
  obtain ⟨node, hnode, rfl⟩ := hstep
  have hkept := chordFindSuccessorReplyCallback_spec hnode
  refine ⟨tables_update h.tables ?_, fun pkt hp => h.numbered pkt (List.mem_of_mem_eraseIdx hp), h.counted,
    fun t ht => ?_, fun m id' => ?_⟩
  · rw [hkept.1]
    exact h.tables destination
  · have honce := h.once t ht
    have hgone := countP_eraseIdx hpkt (·.asks t)
    simp at hgone
    dsimp only at ht ⊢
    omega
  · have howed := h.owed m id'
    have hgone := countP_eraseIdx hpkt (·.owes m id')
    dsimp only
    by_cases hm : m = destination
    · subst hm
      have hunread := hkept.2 id'
      rw [Function.update_self]
      simp at hgone
      omega
    · rw [Function.update_of_ne hm]
      omega

theorem Routed.Ok.repoint {successor predecessor fingerTable} (h : w.Ok cfg)
    (hstep : w.repoint cfg n successor predecessor fingerTable = some w') : w'.Ok cfg := by
  unfold Routed.repoint at hstep
  split_ifs at hstep with hlen
  simp only [Option.some.injEq] at hstep
  subst hstep
  refine ⟨tables_update h.tables hlen, h.numbered, h.counted, h.once, fun m id' => ?_⟩
  dsimp only
  have hkept : (Function.update w.nodes n { w.nodes n with successor, predecessor, fingerTable } m).unread id' =
      (w.nodes m).unread id' := update_proj (·.unread id') (by rfl) m
  rw [hkept]
  exact h.owed m id'

theorem Routed.Ok.deliver (h : w.Ok cfg) (hpasses : w.PassesOn cfg (.deliver k))
    (hstep : w.deliver cfg k = some w') : w'.Ok cfg := by
  obtain ⟨⟨request, destination, msg⟩, hpkt, -⟩ := Option.bind_eq_some_iff.mp hstep
  cases msg with
  | findSuccessor source id =>
    refine h.handle hpkt (hpasses ⟨request, destination, .findSuccessor source id⟩ ?_ id ?_) hstep
    · simp [hpkt]
    · simp [LookupPacket.asked]
  | findSuccessorReply dest id => exact h.take hpkt hstep
  | _ => simp [Routed.deliver, hpkt] at hstep

theorem Routed.Ok.step {e : RouteEvent N} (h : w.Ok cfg) (hpasses : w.PassesOn cfg e)
    (hstep : routeStep cfg w e = some w') : w'.Ok cfg := by
  cases e with
  | request n dest id => exact h.request hstep
  | receive n id => exact h.receive hstep
  | timeout n id => exact hpasses.elim
  | deliver k => exact h.deliver hpasses hstep
  | repoint n successor predecessor fingerTable => exact h.repoint hstep

end Steps

/-- On every node the callback answers as `findSuccessor` does, and once, exactly when it passes the
request on; in a run in which all nodes do and no call gives up, whatever happens to the pointers, every
request has one reply or is on its way, and no reply is left over. -/
theorem one_answer_iff (cfg : Config N) :
    (∀ (self source : Fin N) (node : Node N V) (id : Nat), node.fingerTable.length = cfg.chordBits →
      (AnswersOnce cfg self node source id ↔ PassesOn cfg self node id)) ∧
    ∀ (w₀ w : Routed N V) (es : List (RouteEvent N)), w₀.Fresh cfg → run (routeStep cfg) w₀ es = some w →
      Meets (routeStep cfg) (Routed.PassesOn cfg) w₀ es → w.OneReply := by
  refine ⟨fun self source node id htable => answersOnce_iff htable, ?_⟩
  intro w₀ w es hfresh hrun hmeets
  have hok : w.Ok cfg :=
    run_invariant (C := Routed.PassesOn cfg) (Routed.Ok cfg)
      (fun _ _ _ h hpasses hstep => h.step hpasses hstep) es hfresh.ok hmeets hrun
  exact hok.oneReply

/-! ## A join through the owner -/

/-- Nodes 0 and 1 are a ring with the identifiers 0 and 4; node 2 has the identifier 2. -/
def joining : Config 3 where
  chordBits := 3
  sha1 := ![0, 4, 2]

def joinRing : Routed 3 Nat where
  nodes := ![init (NewChord joining Nat) 1, init (NewChord joining Nat) 0, NewChord joining Nat]
  net := []
  requests := 0
  replies := []
  waiting := []
  timedOut := []

theorem joinRing_fresh : joinRing.Fresh joining where
  tables := by decide
  net := rfl
  requests := rfl
  replies := rfl
  timedOut := rfl
  unread n id := by
    match n with
    | 0 => rfl
    | 1 => rfl
    | 2 => rfl

/-- Node 2 joins through node 0, which passes it the owner. -/
theorem joinRing_one_reply :
    AnswersOnce joining 0 (joinRing.nodes 0) 2 2 ∧
      ∃ w, run (routeStep joining) joinRing [.request 2 0 2, .deliver 0, .deliver 0, .receive 2 2] = some w ∧
        w.OneReply :=
  ⟨((one_answer_iff joining).1 0 2 (joinRing.nodes 0) 2 rfl).mpr (by decide), _, rfl,
    (one_answer_iff joining).2 joinRing _ [.request 2 0 2, .deliver 0, .deliver 0, .receive 2 2] joinRing_fresh rfl
      (by decide)⟩

/-- The owner of 2 replies twice, first with itself and then with its successor. -/
theorem owner_replies_twice :
    chordFindSuccessorCallback joining 1 (joinRing.nodes 1) 2 2 =
        [(2, .findSuccessorReply 1 2), (2, .findSuccessorReply 0 2)] ∧
      findSuccessor joining 1 (joinRing.nodes 1) 2 = .found 1 ∧
      ¬ AnswersOnce joining 1 (joinRing.nodes 1) 2 2 ∧
      ∃ w, run (routeStep joining) joinRing
          [.request 2 1 2, .deliver 0, .deliver 0, .deliver 0, .receive 2 2] = some w ∧ ¬ w.OneReply := by
  refine ⟨rfl, by decide, fun h => ?_, _, rfl, fun h => ?_⟩
  · have hone := h.length
    revert hone
    decide
  · have hstale := h.noStale 2 2 (by decide)
    revert hstale
    decide

end MarketPeer.Chord

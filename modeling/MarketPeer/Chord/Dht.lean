import MarketPeer.Chord.Fingers
import MarketPeer.Chord.Get
import MarketPeer.Chord.Moves

/-!
# Puts and gets on a ring that stays as it is

Every node runs its daemons and any number of calls of `Put`, `Get` and `Lookup`, whose
lookups go through the packets. No answer of a lookup is assumed: it is found on the
node or taken out of its channel.
-/

namespace MarketPeer.Chord

open MarketPeer.Ring

variable {N : Nat} {V : Type} {cfg : Config N}

/-! ## Steps -/

/-- `findSuccessor` returns, if it has to ask with the first reply in the channel. The replies for an
identifier are for all calls of the node that wait for it. -/
def lookupReturns (cfg : Config N) (w : World N V) (n : Fin N) (id : Nat) : Option (World N V × Fin N) :=
  match findSuccessor cfg n (w.nodes n) id with
  | .found addr => some (w, addr)
  | .remote _ =>
    match (w.nodes n).findSuccessorCh id with
    | some (addr :: rest) =>
      let node := { w.nodes n with
        findSuccessorCh := Function.update (w.nodes n).findSuccessorCh id (some rest) }
      some (w.commit n { node }, addr)
    | _ => none
  | .error => none

/-- `ask` is a call of `findSuccessor` that sends its request, `locate` the return of one that `Get` has
called, and `giveUp` the timeout of `Stabilize`. The other steps are those of `getAct`. -/
inductive DhtEvent (N : Nat) (V : Type) where
  | ask (n : Fin N) (id : Nat)
  | lookup (n : Fin N) (id : Nat)
  | fixFinger (n : Fin N) (i : Nat)
  | put (n : Fin N) (key : Nat) (value : V)
  | locate (i : Nat)
  | giveUp (n : Fin N)
  | other (e : GetEvent N V)

/-- Steps that do not take the answer of a lookup as it is given to them, and do not join. -/
def GetEvent.plain : GetEvent N V → Bool
  | .chord (.request ..) | .chord (.join ..) | .chord (.put ..) | .move _ (.found _) => false
  | _ => true

def dhtAct (cfg : Config N) (w : GetWorld N V) : DhtEvent N V → Option (GetWorld N V)
  | .ask n id =>
    match findSuccessor cfg n (w.world.nodes n) id with
    | .remote nStar => getAct cfg w (.chord (.request n nStar id))
    | _ => none
  | .lookup n id => (lookupReturns cfg w.world n id).map fun r => { w with world := r.1 }
  | .fixFinger n i =>
    (lookupReturns cfg w.world n (cfg.fingerId n i)).bind fun (world, addr) =>
      (insert (world.nodes n).fingerTable i addr).map fun fingerTable =>
        { w with world := world.commit n { node := { world.nodes n with fingerTable } } }
  | .put n key value =>
    (lookupReturns cfg w.world n key).bind fun (world, addr) =>
      getAct cfg { w with world } (.chord (.put n key value addr))
  | .locate i =>
    w.calls[i]?.bind fun c =>
      (lookupReturns cfg w.world c.node c.key).bind fun (world, addr) =>
        getAct cfg { w with world } (.move i (.found addr))
  | .giveUp n =>
    some { w with world := w.world.commit n { node := { w.world.nodes n with stabilizing := none } } }
  | .other e => if e.plain then getAct cfg w e else none

def dhtStep (cfg : Config N) (w : GetWorld N V) (e : DhtEvent N V) : Option (GetWorld N V) :=
  (dhtAct cfg w e).map fun w' => { w' with history := w.history ++ [w.stores] }

/-- The keys of the calls are identifiers; `HashKey` gives no others. -/
def DhtEvent.Hashed (cfg : Config N) : DhtEvent N V → Prop
  | .ask _ id | .lookup _ id | .put _ id _ | .other (.call _ id) => id < 2 ^ cfg.chordBits
  | _ => True

/-! ## What stays -/

/-- Node `n` owns the key, which is an identifier. -/
def Owner (cfg : Config N) (ring : List (Fin N)) (n : Fin N) (key : Nat) : Prop :=
  key < 2 ^ cfg.chordBits ∧ Owns cfg ring n key

/-- A node of the ring: its pointers are those of the ring, every reply that waits is true, and it
stores only what it owns. -/
structure Settled (cfg : Config N) (ring : List (Fin N)) (n : Fin N) (node : Node N V) : Prop where
  successor : ∀ b, Circle.Follows ring n b → node.successor = some b
  predecessor : ∀ a, Circle.Follows ring a n → node.predecessor = some a
  length : node.fingerTable.length = cfg.chordBits
  first : node.fingerTable[0]? = some node.successor
  replies : ∀ id ch, node.findSuccessorCh id = some ch → ∀ a ∈ ch, Owner cfg ring a id
  round : ∀ s, node.stabilizing = some s → Circle.Follows ring n s
  asked : ∀ p ∈ node.askPredecessorCh, p = some n
  keeps : node.deleting = none
  putting : ∀ p ∈ node.putting, Owner cfg ring p.dest p.key
  stored : ∀ key, node.blockStore key ≠ none → Owner cfg ring n key

/-- What a packet says is true of the ring; no key is handed over. -/
def Msg.Settled (cfg : Config N) (ring : List (Fin N)) (source dest : Fin N) : Msg N V → Prop
  | .findSuccessor _ id => id < 2 ^ cfg.chordBits ∧ ¬ Owns cfg ring dest id
  | .findSuccessorReply a id => Owner cfg ring a id
  | .askPredecessor | .notify => Circle.Follows ring source dest
  | .replyPredecessor p => p = some dest
  | .transferKey _ => False
  | .insertKV key _ => Owner cfg ring dest key

structure World.Settled (cfg : Config N) (ring : List (Fin N)) (w : World N V) : Prop where
  nodes : ∀ n, Chord.Settled cfg ring n (w.nodes n)
  net : ∀ pkt ∈ w.net, pkt.msg.Settled cfg ring pkt.source pkt.destination

/-- What is given of the ring and does not change. -/
structure RingOrder (cfg : Config N) (ring : List (Fin N)) : Prop where
  injective : Function.Injective cfg.hashKey
  sorted : ring.Pairwise fun a b => cfg.hashKey a < cfg.hashKey b
  long : 2 ≤ ring.length
  all : ∀ n, n ∈ ring

/-- All nodes are in the ring, no call and no round is under way, and each node stores only what it owns. -/
structure Resting (cfg : Config N) (ring : List (Fin N)) (w : World N V) : Prop where
  ideal : IdealRing cfg w ring
  fingers : ∀ n, FingersOk cfg (w.nodes n) ring
  idle : Idle w
  round : ∀ n, (w.nodes n).stabilizing = none
  asked : ∀ n, (w.nodes n).askPredecessorCh = []
  putting : ∀ n, (w.nodes n).putting = []
  stored : ∀ n key, (w.nodes n).blockStore key ≠ none → Owner cfg ring n key

theorem Resting.settled {ring : List (Fin N)} {w : World N V} (h : Resting cfg ring w) : w.Settled cfg ring where
  nodes n :=
    { successor := fun b => h.ideal.successor n b
      predecessor := fun a => h.ideal.predecessor a n
      length := (h.fingers n).length
      first := (h.fingers n).first
      replies := by
        intro id ch hch a ha
        have hunread := h.idle.unread n id
        rw [hch, Option.getD_some] at hunread
        rw [hunread] at ha
        cases ha
      round := by simp [h.round n]
      asked := by simp [h.asked n]
      keeps := h.idle.deleting n
      putting := by simp [h.putting n]
      stored := h.stored n }
  net := by simp [h.idle.net]

theorem World.Settled.ideal {ring : List (Fin N)} (hring : RingOrder cfg ring) {w : World N V}
    (h : w.Settled cfg ring) : IdealRing cfg w ring where
  sorted := hring.sorted
  successor a b hab := (h.nodes a).successor b hab
  predecessor a b hab := (h.nodes b).predecessor a hab

section Steps

variable {ring : List (Fin N)} {w w' : World N V} {n : Fin N} {node : Node N V} {e : Effect N V}

theorem World.Settled.findSuccessor_cases (hring : RingOrder cfg ring) (h : w.Settled cfg ring) (n : Fin N) {id : Nat}
    (hid : id < 2 ^ cfg.chordBits) :
    (∃ b, findSuccessor cfg n (w.nodes n) id = .found b ∧ Owner cfg ring b id) ∨
      ∃ a, findSuccessor cfg n (w.nodes n) id = .remote a ∧ ¬ Owns cfg ring a id := by
  obtain ⟨b, hfound, howns⟩ | hremote := (h.ideal hring).findSuccessor_cases hring.injective hring.long hring.all
    (h.nodes n).length hid
  · exact .inl ⟨b, hfound, hid, howns (h.nodes n).first⟩
  · exact .inr hremote

theorem World.Settled.owner_unique (hring : RingOrder cfg ring) (h : w.Settled cfg ring) {m : Fin N} {key : Nat}
    (hm : Owner cfg ring m key) (hn : Owner cfg ring n key) : m = n :=
  (h.ideal hring).owns_unique hring.injective hring.long hm.1 hm.2 hn.2

/-- One node acts, some packets are gone and those it sends are there. -/
theorem World.Settled.commit (h : w.Settled cfg ring) (net : List (Packet N V)) (hnet : ∀ pkt ∈ net, pkt ∈ w.net)
    (hnode : Chord.Settled cfg ring n e.node) (hsends : ∀ s ∈ e.sends, s.2.Settled cfg ring n s.1) :
    ({ w with net }.commit n e).Settled cfg ring where
  nodes := by
    intro m
    unfold World.commit
    by_cases hm : m = n
    · subst hm
      simpa using hnode
    · simpa [hm] using h.nodes m
  net := by
    intro pkt hpkt
    rcases List.mem_append.mp hpkt with hpkt | hpkt
    · exact h.net pkt (hnet pkt hpkt)
    · obtain ⟨s, hs, rfl⟩ := List.mem_map.mp hpkt
      exact hsends s hs

theorem World.Settled.act (h : w.Settled cfg ring) (hnode : Chord.Settled cfg ring n e.node)
    (hsends : ∀ s ∈ e.sends, s.2.Settled cfg ring n s.1) : (w.commit n e).Settled cfg ring :=
  h.commit w.net (fun _ hpkt => hpkt) hnode hsends

theorem between_self_left (id right : Nat) : between id id right = false := by
  unfold between
  split_ifs <;> simp
  omega

theorem Settled.setReplies (h : Settled cfg ring n node) {id : Nat} {ch : List (Fin N)}
    (hch : ∀ a ∈ ch, Owner cfg ring a id) :
    Settled cfg ring n { node with findSuccessorCh := Function.update node.findSuccessorCh id (some ch) } := by
  refine { h with replies := ?_ }
  intro id' ch' hch' a ha
  dsimp only at hch'
  by_cases hid : id' = id
  · subst hid
    rw [Function.update_self, Option.some.injEq] at hch'
    exact hch a (hch' ▸ ha)
  · rw [Function.update_of_ne hid] at hch'
    exact h.replies id' ch' hch' a ha

theorem Settled.insert (h : Settled cfg ring n node) {key : Nat} (howner : Owner cfg ring n key) (value : V) :
    Settled cfg ring n (chordInsertKVCallback node key value) := by
  refine { h with stored := ?_ }
  intro key' hkey'
  by_cases heq : key' = key
  · rw [heq]
    exact howner
  · simp only [chordInsertKVCallback, Function.update_of_ne heq] at hkey'
    exact h.stored key' hkey'

/-- What has changed is a channel at most. -/
theorem World.Settled.lookupReturns (hring : RingOrder cfg ring) (h : w.Settled cfg ring) {id : Nat} {a : Fin N}
    (hid : id < 2 ^ cfg.chordBits) (hreturns : lookupReturns cfg w n id = some (w', a)) :
    w'.Settled cfg ring ∧ Owner cfg ring a id ∧
      ∃ findSuccessorCh, w' = w.commit n { node := { w.nodes n with findSuccessorCh } } := by
  unfold Chord.lookupReturns at hreturns
  obtain ⟨b, hfound, howner⟩ | ⟨b, hremote, -⟩ := h.findSuccessor_cases hring n hid
  · simp only [hfound, Option.some.injEq, Prod.mk.injEq] at hreturns
    obtain ⟨rfl, rfl⟩ := hreturns
    refine ⟨h, howner, (w.nodes n).findSuccessorCh, ?_⟩
    unfold World.commit
    rw [Function.update_eq_self, List.map_nil, List.append_nil]
  · simp only [hremote] at hreturns
    split at hreturns
    · next addr rest hch =>
      simp only [Option.some.injEq, Prod.mk.injEq] at hreturns
      obtain ⟨rfl, rfl⟩ := hreturns
      have hnode := h.nodes n
      have hreplies := hnode.replies id _ hch
      refine ⟨h.act (hnode.setReplies ?_) (by simp), hreplies addr List.mem_cons_self, _, rfl⟩
      intro b hb
      exact hreplies b (List.mem_cons_of_mem addr hb)
    · cases hreturns

/-- The node that is asked does not own the key, as the callback needs it. -/
theorem World.Settled.ask (hring : RingOrder cfg ring) (h : w.Settled cfg ring) {id : Nat} {nStar : Fin N}
    (hid : id < 2 ^ cfg.chordBits) (hremote : findSuccessor cfg n (w.nodes n) id = .remote nStar)
    (he : findSuccessorRemote n (w.nodes n) nStar id = some e) : (w.commit n e).Settled cfg ring := by
  have hnode := h.nodes n
  have hnot : ¬ Owns cfg ring nStar id := by
    obtain ⟨b, hfound, -⟩ | ⟨b, hb, hnot⟩ := h.findSuccessor_cases hring n hid
    · rw [hfound] at hremote
      cases hremote
    · rw [hb] at hremote
      cases hremote
      exact hnot
  unfold findSuccessorRemote at he
  split_ifs at he
  cases he
  refine h.act (hnode.setReplies ?_) (by simpa [Msg.Settled] using ⟨hid, hnot⟩)
  intro a ha
  cases hch : (w.nodes n).findSuccessorCh id with
  | none => simp [hch] at ha
  | some ch => exact hnode.replies id ch hch a (by simpa [hch] using ha)

/-- The callbacks of true packets. -/
theorem World.Settled.processPacket (hring : RingOrder cfg ring) (h : w.Settled cfg ring) {source : Fin N}
    {msg : Msg N V} (hmsg : msg.Settled cfg ring source n) (he : processPacket cfg n (w.nodes n) source msg = some e) :
    Chord.Settled cfg ring n e.node ∧ ∀ s ∈ e.sends, s.2.Settled cfg ring n s.1 := by
  have hnode := h.nodes n
  cases msg with
  | findSuccessor origin id =>
    cases he
    obtain ⟨hid, hnot⟩ := hmsg
    refine ⟨hnode, ?_⟩
    obtain ⟨b, heq, howner⟩ | ⟨a, heq, hnext, -⟩ :=
      (h.ideal hring).callback_cases hring.injective hring.long hring.all hnode.length hid hnot origin
    · simpa [heq, Msg.Settled, Owner] using ⟨hid, howner hnode.first⟩
    · simpa [heq, Msg.Settled] using ⟨hid, hnext⟩
  | findSuccessorReply dest id =>
    obtain ⟨node, hreply, rfl⟩ := Option.map_eq_some_iff.mp he
    refine ⟨?_, by simp⟩
    unfold chordFindSuccessorReplyCallback at hreply
    split_ifs at hreply
    split at hreply
    · next ch hch =>
      split_ifs at hreply
      cases hreply
      refine hnode.setReplies ?_
      intro b hb
      rw [List.mem_append, List.mem_singleton] at hb
      rcases hb with hb | rfl
      · exact hnode.replies id ch hch b hb
      · exact hmsg
    · cases hreply
      exact { hnode with }
  | askPredecessor =>
    cases he
    refine ⟨hnode, ?_⟩
    simpa [chordAskPredecessorCallback, Msg.Settled] using hnode.predecessor source hmsg
  | replyPredecessor p =>
    obtain ⟨node, hreply, rfl⟩ := Option.map_eq_some_iff.mp he
    refine ⟨?_, by simp⟩
    unfold chordReplyPredecessorCallback at hreply
    split_ifs at hreply
    cases hreply
    refine { hnode with asked := ?_ }
    intro q hq
    rcases List.mem_append.mp hq with hq | hq
    · exact hnode.asked q hq
    · rw [List.mem_singleton.mp hq]
      exact hmsg
  | notify =>
    -- The node that notifies is the predecessor already.
    cases he
    have heq : chordNotifyCallback cfg n (w.nodes n) source = { node := w.nodes n } := by
      simp [chordNotifyCallback, hnode.predecessor source hmsg, between_self_left]
    rw [heq]
    exact ⟨hnode, by simp⟩
  | transferKey data => exact hmsg.elim
  | insertKV key value =>
    cases he
    exact ⟨hnode.insert hmsg value, by simp⟩

theorem World.Settled.stabilize (hring : RingOrder cfg ring) (h : w.Settled cfg ring)
    (he : stabilize (w.nodes n) = some e) : (w.commit n e).Settled cfg ring := by
  have hnode := h.nodes n
  obtain ⟨s, hs⟩ := Circle.exists_follows (hring.all n)
  unfold Chord.stabilize at he
  split at he
  · cases he
  · cases he
    exact h.act hnode (by simp)
  · next s' _ hs' =>
    rw [hnode.successor s hs] at hs'
    cases hs'
    cases he
    refine h.act { hnode with round := ?_ } (by simpa [Msg.Settled] using hs)
    rintro s' ⟨⟩
    exact hs

/-- A round that got the node itself as an answer changes nothing. -/
theorem World.Settled.resume (hring : RingOrder cfg ring) (h : w.Settled cfg ring)
    (he : stabilizeResume cfg n (w.nodes n) = some e) : (w.commit n e).Settled cfg ring := by
  have hnode := h.nodes n
  obtain ⟨s', hs'⟩ := Circle.exists_follows (hring.all n)
  unfold stabilizeResume at he
  split at he
  · next s reply rest hround hreply =>
    have hself : reply = some n := hnode.asked reply (by rw [hreply]; exact List.mem_cons_self)
    rw [hself, refresh_eq, Option.some.injEq] at he
    have hsame : refreshed cfg n (w.nodes n).successor s (some n) = (w.nodes n).successor := by
      simp [refreshed, between_self_left]
    rw [← he, hsame]
    refine h.act { hnode with round := by simp, asked := ?_ } ?_
    · intro p hp
      exact hnode.asked p (by rw [hreply]; exact List.mem_cons_of_mem reply hp)
    · simpa [hnode.successor s' hs', Msg.Settled] using hs'
  · cases he

/-- The first entry is written with the node that owns the next identifier. -/
theorem World.Settled.fixFinger (hring : RingOrder cfg ring) (h : w.Settled cfg ring) {i : Nat} {a : Fin N}
    (howner : Owner cfg ring a (cfg.fingerId n i)) {fingerTable : List (Option (Fin N))}
    (hinsert : insert (w.nodes n).fingerTable i a = some fingerTable) :
    (w.commit n { node := { w.nodes n with fingerTable } }).Settled cfg ring := by
  have hnode := h.nodes n
  unfold insert at hinsert
  split_ifs at hinsert with hi
  cases hinsert
  refine h.act { hnode with length := ?_, first := ?_ } (by simp)
  · rw [List.length_set, hnode.length]
  · dsimp only
    by_cases hzero : i = 0
    · subst hzero
      obtain ⟨s, hs⟩ := Circle.exists_follows (hring.all n)
      have harc := (h.ideal hring).inArc_first hring.injective hring.long hs
      have hsucc : a = s := h.owner_unique hring howner ⟨howner.1, n, hs, harc⟩
      rw [List.getElem?_set_self hi, hnode.successor s hs, hsucc]
    · rw [List.getElem?_set_ne hzero]
      exact hnode.first

end Steps

end MarketPeer.Chord

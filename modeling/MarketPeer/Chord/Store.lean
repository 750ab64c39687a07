import MarketPeer.Chord.Moves
import MarketPeer.Chord.Lookup

/-!
# Values in the store while nodes join

A key has one holder: the node that stores its value, or the node that its value is on
the way to. The owner of the key, by its predecessor, is the holder or nobody, as long
as no two messages about the key cross.
-/

namespace MarketPeer.Chord

variable {N : Nat} {V : Type} {cfg : Config N}

/-! ## One key -/

/-- The value of key `k` that a packet brings. -/
def Packet.carries (k : Nat) (pkt : Packet N V) : Option V :=
  match pkt.msg with
  | .transferKey data => data k
  | .insertKV key value => if key = k then some value else none
  | _ => none

/-- What a node has to do with a key; `deleting` says that its `transferKey` will delete it. -/
structure Slot (N : Nat) (V : Type) where
  predecessor : Option (Fin N)
  value : Option V
  deleting : Bool

def Node.slot (k : Nat) (node : Node N V) : Slot N V where
  predecessor := node.predecessor
  value := node.blockStore k
  deleting := node.deleting.any fun (begin_, end_) => betweenRightInclude k begin_ end_

def World.slot (w : World N V) (k : Nat) (n : Fin N) : Slot N V := (w.nodes n).slot k

/-- The node owns the key by its predecessor pointer. -/
def Slot.owns (cfg : Config N) (n : Fin N) (k : Nat) (s : Slot N V) : Bool :=
  s.predecessor.any fun p => betweenRightInclude k (cfg.hashKey p) (cfg.hashKey n)

/-- The node stores the key and is not about to delete it. -/
def Slot.keeps (s : Slot N V) : Bool := s.value.isSome && !s.deleting

/-- A packet with a value of the key is on its way to the node. -/
def World.sentTo (w : World N V) (k : Nat) (n : Fin N) : Bool :=
  w.net.any fun pkt => pkt.destination == n && (pkt.carries k).isSome

/-- No packet brings a value of the key. -/
def World.Calm (w : World N V) (k : Nat) : Prop := ∀ pkt ∈ w.net, pkt.carries k = none

instance (w : World N V) (k : Nat) : Decidable (w.Calm k) :=
  decidable_of_iff (∀ pkt ∈ w.net, (pkt.carries k).isNone = true) (by simp [World.Calm])

/-- The node at which a `Put` on node `n` puts its value. -/
def Insertion.target (cfg : Config N) (n : Fin N) (p : Insertion N V) : Fin N :=
  if cfg.hashKey n = cfg.hashKey p.dest then n else p.dest

/-- A `Put` needs that no other message about the key is on its way, that no transfer of it is
under way, and that nobody but the node it goes to has the key. -/
def SafePut (cfg : Config N) (k : Nat) (w : World N V) (target : Fin N) : Prop :=
  w.Calm k ∧ ∀ m, (w.slot k m).deleting = false ∧
    ((w.slot k m).owns cfg m k = true ∨ (w.slot k m).value.isSome = true → m = target)

/-- Node `x` may hand the key on to a new predecessor `n` only while the key is not on its way to
`x`, and may come to own it with a first predecessor only if nobody else has it or is sent it. -/
def SafeNotify (cfg : Config N) (k : Nat) (w : World N V) (n x : Fin N) : Prop :=
  match (w.slot k x).predecessor with
  | none => betweenRightInclude k (cfg.hashKey n) (cfg.hashKey x) = true →
      ∀ m, (w.slot k m).keeps = true ∨ w.sentTo k m = true → m = x
  | some p => between (cfg.hashKey n) (cfg.hashKey p) (cfg.hashKey x) = true →
      betweenRightInclude k (cfg.hashKey p) (cfg.hashKey n) = true → w.sentTo k x = false

/-- What key `k` asks of a step. -/
def Safe (cfg : Config N) (k : Nat) (w : World N V) : Event N V → Prop
  | .finishPut n i =>
    match (w.nodes n).putting[i]? with
    | some p => p.key = k → SafePut cfg k w (p.target cfg n)
    | none => True
  | .deliver j =>
    match w.net[j]? with
    | some ⟨n, x, .notify⟩ => SafeNotify cfg k w n x
    | _ => True
  | _ => True

/-! ## What a step does to one key -/

/-- Packets that bring no value of the key. -/
def NoValue (k : Nat) (net : List (Packet N V)) : Prop := ∀ pkt ∈ net, pkt.carries k = none

inductive KeyMove (cfg : Config N) (k : Nat) (w w' : World N V) : Prop
  | other (gone rest new : List (Packet N V)) (hgone : NoValue k gone) (hnew : NoValue k new)
      (hnet : w.net.Perm (gone ++ rest)) (hnet' : w'.net = rest ++ new) (hslot : w'.slot k = w.slot k)
      (hwritten : w'.written k = w.written k)
  | put (t : Fin N) (v : V) (hsafe : SafePut cfg k w t) (hnet' : w'.net = w.net)
      (hslot : w'.slot k = Function.update (w.slot k) t { w.slot k t with value := some v })
      (hwritten : w'.written k = some v)
  | send (n t : Fin N) (v : V) (hsafe : SafePut cfg k w t) (hnet' : w'.net = w.net ++ [⟨n, t, .insertKV k v⟩])
      (hslot : w'.slot k = w.slot k) (hwritten : w'.written k = some v)
  | endTransfer (n : Fin N) (hdel : (w.slot k n).deleting = true) (hnet' : w'.net = w.net)
      (hslot : w'.slot k = Function.update (w.slot k) n
        { w.slot k n with value := none, deleting := false })
      (hwritten : w'.written k = w.written k)
  | first (n x : Fin N) (rest : List (Packet N V)) (hnet : w.net.Perm (⟨n, x, .notify⟩ :: rest))
      (hsafe : SafeNotify cfg k w n x) (hpred : (w.slot k x).predecessor = none) (hnet' : w'.net = rest)
      (hslot : w'.slot k = Function.update (w.slot k) x { w.slot k x with predecessor := some n })
      (hwritten : w'.written k = w.written k)
  | adopt (n x p : Fin N) (data : Nat → Option V) (rest : List (Packet N V))
      (hnet : w.net.Perm (⟨n, x, .notify⟩ :: rest)) (hsafe : SafeNotify cfg k w n x)
      (hpred : (w.slot k x).predecessor = some p) (hidle : (w.slot k x).deleting = false)
      (hbetween : between (cfg.hashKey n) (cfg.hashKey p) (cfg.hashKey x) = true)
      (hdata : data k =
        if betweenRightInclude k (cfg.hashKey p) (cfg.hashKey n) then (w.slot k x).value else none)
      (hnet' : w'.net = rest ++ [⟨x, n, .transferKey data⟩])
      (hslot : w'.slot k = Function.update (w.slot k) x
        { w.slot k x with
          predecessor := some n
          deleting := betweenRightInclude k (cfg.hashKey p) (cfg.hashKey n) })
      (hwritten : w'.written k = w.written k)
  | arrive (pkt : Packet N V) (v : V) (rest : List (Packet N V)) (hnet : w.net.Perm (pkt :: rest))
      (hv : pkt.carries k = some v) (hidle : (w.slot k pkt.destination).deleting = false)
      (hnet' : w'.net = rest)
      (hslot : w'.slot k = Function.update (w.slot k) pkt.destination
        { w.slot k pkt.destination with value := some v })
      (hwritten : w'.written k = w.written k)

section Steps

variable {k : Nat} {w w' : World N V} {n : Fin N} {e : Effect N V}

theorem World.commit_slot (w : World N V) (n : Fin N) (e : Effect N V) :
    (w.commit n e).slot k = Function.update (w.slot k) n (e.node.slot k) := by
  funext m
  unfold World.slot World.commit
  by_cases h : m = n
  · subst h; simp
  · simp [h]

theorem noValue_of_sends (h : ∀ s ∈ e.sends, (⟨n, s.1, s.2⟩ : Packet N V).carries k = none) :
    NoValue k (e.sends.map fun s => (⟨n, s.1, s.2⟩ : Packet N V)) := by
  intro pkt hpkt
  obtain ⟨s, hs, rfl⟩ := List.mem_map.mp hpkt
  exact h s hs

theorem KeyMove.local (hslot : e.node.slot k = w.slot k n)
    (hsends : ∀ s ∈ e.sends, (⟨n, s.1, s.2⟩ : Packet N V).carries k = none) :
    KeyMove cfg k w (w.commit n e) := by
  refine .other [] w.net _ (by simp [NoValue]) (noValue_of_sends hsends) (List.Perm.refl _) rfl ?_ rfl
  rw [World.commit_slot, hslot, Function.update_eq_self]

theorem KeyMove.silent {j : Nat} {pkt : Packet N V} (hpkt : w.net[j]? = some pkt)
    (hmsg : pkt.carries k = none) (hslot : e.node.slot k = w.slot k n)
    (hsends : ∀ s ∈ e.sends, (⟨n, s.1, s.2⟩ : Packet N V).carries k = none) :
    KeyMove cfg k w ({ w with net := w.net.eraseIdx j }.commit n e) := by
  refine .other [pkt] (w.net.eraseIdx j) _ (by simpa [NoValue] using hmsg) (noValue_of_sends hsends)
    (perm_eraseIdx hpkt) rfl ?_ rfl
  rw [World.commit_slot]
  exact (congrArg (Function.update (w.slot k) n) hslot).trans (Function.update_eq_self ..)

theorem refreshed_slot (self : Fin N) (node : Node N V) (s : Fin N) (reply : Option (Fin N)) :
    (refresh cfg self node s reply).node.slot k = node.slot k := by
  rw [refresh_eq]
  rfl

theorem put_slot (self : Fin N) (node : Node N V) (key : Nat) (value : V) (answer : Fin N) :
    (put cfg self node key value answer).slot k = node.slot k := by
  unfold put
  split <;> rfl

/-- The value that arrives replaces the one that is there. -/
theorem KeyMove.bring {j : Nat} {pkt : Packet N V} {node : Node N V} (hpkt : w.net[j]? = some pkt)
    (hdel : (w.nodes pkt.destination).deleting = none)
    (hpred : node.predecessor = (w.nodes pkt.destination).predecessor) (hdel' : node.deleting = none)
    (hvalue : node.blockStore k = (pkt.carries k <|> (w.nodes pkt.destination).blockStore k)) :
    KeyMove cfg k w ({ w with net := w.net.eraseIdx j }.commit pkt.destination { node }) := by
  cases hv : pkt.carries k with
  | none =>
    refine .silent hpkt hv ?_ (by simp)
    simp [World.slot, Node.slot, hpred, hdel, hdel', hvalue, hv]
  | some v =>
    refine .arrive pkt v _ (perm_eraseIdx hpkt) hv (by simp [World.slot, Node.slot, hdel])
      (by simp [World.commit]) ?_ rfl
    rw [World.commit_slot]
    congr 1
    simp [World.slot, Node.slot, hpred, hdel, hdel', hvalue, hv]

theorem KeyMove.notify {j : Nat} {x : Fin N} (hpkt : w.net[j]? = some ⟨n, x, .notify⟩)
    (hdel : (w.nodes x).deleting = none) (hsafe : SafeNotify cfg k w n x) :
    KeyMove cfg k w
      ({ w with net := w.net.eraseIdx j }.commit x (chordNotifyCallback cfg x (w.nodes x) n)) := by
  have hperm := perm_eraseIdx hpkt
  cases hpred : (w.nodes x).predecessor with
  | none =>
    unfold chordNotifyCallback
    rw [hpred]
    refine .first n x _ hperm hsafe hpred (by simp [World.commit]) ?_ rfl
    rw [World.commit_slot]
    rfl
  | some p =>
    unfold chordNotifyCallback
    simp only [hpred]
    split_ifs with hbetween
    · refine .adopt n x p _ _ hperm hsafe hpred (by simp [World.slot, Node.slot, hdel]) hbetween ?_ rfl ?_ rfl
      · rfl
      · rw [World.commit_slot]
        rfl
    · exact .silent hpkt rfl rfl (by simp)

theorem deliver_keyMove {j : Nat} (h : deliver cfg w j = some w') (hsafe : Safe cfg k w (.deliver j)) :
    KeyMove cfg k w w' := by
  unfold deliver at h
  obtain ⟨⟨source, x, msg⟩, hpkt, h⟩ := Option.bind_eq_some_iff.mp h
  simp only at h
  split_ifs at h with hdel
  rw [Bool.not_eq_true, Option.isSome_eq_false_iff, Option.isNone_iff_eq_none] at hdel
  obtain ⟨e, he, rfl⟩ := Option.map_eq_some_iff.mp h
  cases msg with
  | findSuccessor origin id =>
    cases he
    refine .silent hpkt rfl rfl ?_
    intro s hs
    rcases mem_chordFindSuccessorCallback hs with ⟨d, rfl⟩ | ⟨d, rfl⟩ <;> rfl
  | findSuccessorReply dest id =>
    obtain ⟨node, hnode, rfl⟩ := Option.map_eq_some_iff.mp he
    obtain ⟨ch, held, rfl⟩ := chordFindSuccessorReplyCallback_frame hnode
    exact .silent hpkt rfl rfl (by simp)
  | askPredecessor =>
    cases he
    exact .silent hpkt rfl rfl (by simp [chordAskPredecessorCallback, Packet.carries])
  | replyPredecessor p =>
    obtain ⟨node, hnode, rfl⟩ := Option.map_eq_some_iff.mp he
    unfold chordReplyPredecessorCallback at hnode
    split_ifs at hnode
    cases hnode
    exact .silent hpkt rfl rfl (by simp)
  | notify =>
    cases he
    simp only [Safe, hpkt] at hsafe
    exact .notify hpkt hdel hsafe
  | transferKey data =>
    cases he
    exact .bring hpkt hdel rfl hdel rfl
  | insertKV key value =>
    cases he
    refine .bring hpkt hdel rfl hdel ?_
    by_cases hkey : key = k
    · subst hkey
      simp [chordInsertKVCallback, Packet.carries]
    · simp [chordInsertKVCallback, Packet.carries, hkey, Ne.symm hkey]

theorem finishPut_keyMove {i : Nat} (h : finishPut cfg n (w.nodes n) i = some e)
    (hsafe : Safe cfg k w (.finishPut n i)) : KeyMove cfg k w ((w.record n i).commit n e) := by
  unfold finishPut at h
  obtain ⟨p, hp, rfl⟩ := Option.map_eq_some_iff.mp h
  have hrecord : (w.record n i).slot k = w.slot k := by
    funext m
    simp [World.slot]
  have hwritten : (w.record n i).written = Function.update w.written p.key (some p.value) := by
    simp [World.record, hp]
  simp only [Safe, hp] at hsafe
  by_cases hkey : p.key = k
  · have hsafe := hsafe hkey
    unfold Insertion.target at hsafe
    split_ifs with hself
    · rw [if_pos hself] at hsafe
      refine .put n p.value hsafe (by simp [World.commit]) ?_ ?_
      · rw [World.commit_slot, hrecord]
        simp [World.slot, Node.slot, chordInsertKVCallback, hkey]
      · simp [World.commit, hwritten, hkey]
    · rw [if_neg hself] at hsafe
      refine .send n p.dest p.value hsafe (by simp [World.commit, hkey]) ?_ ?_
      · rw [World.commit_slot, hrecord]
        exact Function.update_eq_self n (w.slot k)
      · simp [World.commit, hwritten, hkey]
  · have hwritten' : (w.record n i).written k = w.written k := by
      rw [hwritten, Function.update_of_ne (Ne.symm hkey)]
    split_ifs with hself
    · refine .other [] w.net [] (by simp [NoValue]) (by simp [NoValue]) (List.Perm.refl _)
        (by simp [World.commit]) ?_ hwritten'
      rw [World.commit_slot, hrecord]
      convert Function.update_eq_self n (w.slot k) using 2
      simp [World.slot, Node.slot, chordInsertKVCallback, Ne.symm hkey]
    · refine .other [] w.net [⟨n, p.dest, .insertKV p.key p.value⟩] (by simp [NoValue])
        (by simp [NoValue, Packet.carries, hkey]) (List.Perm.refl _) (by simp [World.commit]) ?_ hwritten'
      rw [World.commit_slot, hrecord]
      exact Function.update_eq_self n (w.slot k)

theorem endTransfer_keyMove {begin_ end_ : Nat} (hdel : (w.nodes n).deleting = some (begin_, end_)) :
    KeyMove cfg k w (w.commit n { node := { w.nodes n with
      deleting := none
      blockStore := deleteBetweenRightInclude (w.nodes n).blockStore begin_ end_ } }) := by
  cases hk : betweenRightInclude k begin_ end_ with
  | true =>
    refine .endTransfer n (by simp [World.slot, Node.slot, hdel, hk]) (by simp [World.commit]) ?_ rfl
    rw [World.commit_slot]
    congr 1
    simp [World.slot, Node.slot, deleteBetweenRightInclude, findBetweenRightInclude, hk]
  | false =>
    refine .local ?_ (by simp)
    simp [World.slot, Node.slot, hdel, hk, deleteBetweenRightInclude, findBetweenRightInclude]

theorem step_keyMove {ev : Event N V} (h : step cfg w ev = some w') (hsafe : Safe cfg k w ev) :
    KeyMove cfg k w w' := by
  cases ev with
  | request n dest id =>
    obtain ⟨e, he, rfl⟩ := Option.map_eq_some_iff.mp h
    unfold findSuccessorRemote at he
    split_ifs at he
    cases he
    exact .local rfl (by simp [Packet.carries])
  | join n member s =>
    simp only [step] at h
    split_ifs at h
    cases h
    refine .local ?_ (by simp)
    unfold join
    split_ifs <;> rfl
  | stabilize n =>
    obtain ⟨e, he, rfl⟩ := Option.map_eq_some_iff.mp h
    unfold stabilize at he
    split at he <;> cases he
    · exact .local rfl (by simp)
    · exact .local rfl (by simp [Packet.carries])
  | resume n =>
    obtain ⟨e, he, rfl⟩ := Option.map_eq_some_iff.mp h
    unfold stabilizeResume at he
    split at he <;> cases he
    refine .local (refreshed_slot ..) ?_
    simp [refresh_eq, Packet.carries]
  | put n key value answer =>
    cases h
    exact .local (put_slot ..) (by simp)
  | finishPut n i =>
    obtain ⟨e, he, rfl⟩ := Option.map_eq_some_iff.mp h
    exact finishPut_keyMove he hsafe
  | endTransfer n =>
    obtain ⟨node, hnode, rfl⟩ := Option.map_eq_some_iff.mp h
    obtain ⟨⟨begin_, end_⟩, hdel, rfl⟩ := Option.map_eq_some_iff.mp hnode
    exact endTransfer_keyMove hdel
  | deliver j => exact deliver_keyMove h hsafe

end Steps

/-! ## The holder of a key -/

/-- The packets that bring a value of the key. -/
def traffic (k : Nat) (net : List (Packet N V)) : List (Packet N V) := net.filter fun pkt => (pkt.carries k).isSome

section Traffic

variable {k : Nat} {net net' : List (Packet N V)} {pkt : Packet N V}

theorem mem_traffic : pkt ∈ traffic k net ↔ pkt ∈ net ∧ (pkt.carries k).isSome = true := List.mem_filter

theorem traffic_append : traffic k (net ++ net') = traffic k net ++ traffic k net' := List.filter_append ..

theorem NoValue.traffic (h : NoValue k net) : traffic k net = [] := by
  rw [Chord.traffic, List.filter_eq_nil_iff]
  intro pkt hpkt
  simp [h pkt hpkt]

theorem traffic_eq_nil_iff (w : World N V) : traffic k w.net = [] ↔ w.Calm k := by
  rw [traffic, List.filter_eq_nil_iff]
  simp [World.Calm]

theorem traffic_cons_none (h : pkt.carries k = none) : traffic k (pkt :: net) = traffic k net := by
  simp [traffic, h]

theorem traffic_cons_some {v : V} (h : pkt.carries k = some v) : traffic k (pkt :: net) = pkt :: traffic k net := by
  simp [traffic, h]

theorem traffic_perm (h : net.Perm net') : (traffic k net).Perm (traffic k net') := h.filter _

theorem sentTo_of_mem {w : World N V} (h : pkt ∈ traffic k w.net) : w.sentTo k pkt.destination = true := by
  obtain ⟨hmem, hv⟩ := mem_traffic.mp h
  unfold World.sentTo
  rw [List.any_eq_true]
  exact ⟨pkt, hmem, by simp [hv]⟩

end Traffic

/-- Node `d` holds the value `v` of the key: it stores it, or the value is on its way to it. -/
structure Held (cfg : Config N) (k : Nat) (slot : Fin N → Slot N V) (sent : List (Packet N V)) (v : V)
    (d : Fin N) : Prop where
  owner : ∀ m, (slot m).owns cfg m k = true → m = d
  keeper : ∀ m, (slot m).keeps = true → m = d
  place : (sent = [] ∧ (slot d).value = some v ∧ (slot d).deleting = false) ∨
    ∃ pkt, sent = [pkt] ∧ pkt.carries k = some v ∧ pkt.destination = d

def HasHolder (cfg : Config N) (k : Nat) (w : World N V) : Prop :=
  ∀ v, w.written k = some v → ∃ d, Held cfg k (w.slot k) (traffic k w.net) v d

section Holder

variable {k : Nat} {slot : Fin N → Slot N V} {sent sent' : List (Packet N V)} {v : V} {d n x p : Fin N}

theorem Held.perm (h : Held cfg k slot sent v d) (hperm : sent.Perm sent') : Held cfg k slot sent' v d where
  owner := h.owner
  keeper := h.keeper
  place := by
    rcases h.place with ⟨rfl, hrest⟩ | ⟨pkt, rfl, hrest⟩
    · exact .inl ⟨List.nil_perm.mp hperm, hrest⟩
    · exact .inr ⟨pkt, (List.singleton_perm.mp hperm).symm, hrest⟩

/-- The packet on its way, if there is one, goes to the holder; otherwise the holder keeps the key. -/
theorem Held.cases (h : Held cfg k slot sent v d) :
    (sent = [] ∧ (slot d).keeps = true) ∨ ∃ pkt ∈ sent, pkt.destination = d := by
  rcases h.place with ⟨hsent, hvalue, hdel⟩ | ⟨pkt, rfl, -, hdest⟩
  · exact .inl ⟨hsent, by simp [Slot.keeps, hvalue, hdel]⟩
  · exact .inr ⟨pkt, List.mem_singleton_self pkt, hdest⟩

/-- A node that is not the holder changes its slot without taking the key. -/
theorem Held.update_other (h : Held cfg k slot sent v d) {s : Slot N V} (hne : x ≠ d)
    (howns : s.owns cfg x k = false) (hkeeps : s.keeps = false) :
    Held cfg k (Function.update slot x s) sent v d := by
  refine ⟨fun m hm => ?_, fun m hm => ?_, ?_⟩
  · by_cases hmx : m = x
    · subst hmx
      rw [Function.update_self, howns] at hm
      cases hm
    · rw [Function.update_of_ne hmx] at hm
      exact h.owner m hm
  · by_cases hmx : m = x
    · subst hmx
      rw [Function.update_self, hkeeps] at hm
      cases hm
    · rw [Function.update_of_ne hmx] at hm
      exact h.keeper m hm
  · rw [Function.update_of_ne hne.symm]
    exact h.place

/-- A new predecessor of `x` that leaves the value alone: if `x` owns the key now, it is the holder. -/
theorem Held.update_predecessor (h : Held cfg k slot sent v d)
    (howns : betweenRightInclude k (cfg.hashKey n) (cfg.hashKey x) = true → x = d) :
    Held cfg k (Function.update slot x { slot x with predecessor := some n }) sent v d := by
  refine ⟨fun m hm => ?_, fun m hm => ?_, ?_⟩
  · by_cases hmx : m = x
    · subst hmx
      rw [Function.update_self] at hm
      exact howns (by simpa [Slot.owns] using hm)
    · rw [Function.update_of_ne hmx] at hm
      exact h.owner m hm
  · by_cases hmx : m = x
    · subst hmx
      rw [Function.update_self] at hm
      exact h.keeper m hm
    · rw [Function.update_of_ne hmx] at hm
      exact h.keeper m hm
  · by_cases hdx : d = x
    · subst hdx
      rw [Function.update_self]
      exact h.place
    · rw [Function.update_of_ne hdx]
      exact h.place

/-- The holder does not delete the key, unless its value is still on the way. -/
theorem Held.forget (h : Held cfg k slot sent v d) (hdel : (slot x).deleting = true) :
    Held cfg k (Function.update slot x { slot x with value := none, deleting := false }) sent v d := by
  refine ⟨fun m hm => h.owner m ?_, fun m hm => ?_, ?_⟩
  · by_cases hmx : m = x
    · subst hmx
      rwa [Function.update_self] at hm
    · rwa [Function.update_of_ne hmx] at hm
  · by_cases hmx : m = x
    · subst hmx
      simp [Slot.keeps] at hm
    · rw [Function.update_of_ne hmx] at hm
      exact h.keeper m hm
  · rcases h.place with ⟨hsent, hvalue, hidle⟩ | hpkt
    · have hdx : d ≠ x := by
        rintro rfl
        rw [hidle] at hdel
        cases hdel
      rw [Function.update_of_ne hdx]
      exact .inl ⟨hsent, hvalue, hidle⟩
    · exact .inr hpkt

theorem Held.arrive {pkt : Packet N V} {u : V} (h : Held cfg k slot (pkt :: sent) v d)
    (hu : pkt.carries k = some u) (hidle : (slot pkt.destination).deleting = false) :
    Held cfg k (Function.update slot pkt.destination { slot pkt.destination with value := some u }) sent v d := by
  rcases h.place with ⟨hsent, -⟩ | ⟨q, hsent, hv, hdest⟩
  · cases hsent
  · -- it is the one packet with the value
    obtain ⟨rfl, rfl⟩ := List.cons_eq_cons.mp hsent
    rw [hu, Option.some.injEq] at hv
    subst hv hdest
    refine ⟨fun m hm => h.owner m ?_, fun m hm => ?_, .inl ⟨rfl, by simp, by simp [hidle]⟩⟩
    · by_cases hm' : m = pkt.destination
      · rw [hm', Function.update_self] at hm
        rw [hm']
        exact hm
      · rwa [Function.update_of_ne hm'] at hm
    · by_contra hm'
      rw [Function.update_of_ne hm'] at hm
      exact hm' (h.keeper m hm)

end Holder

/-! ## Every step keeps a holder -/

section Keep

variable {k : Nat} {w w' : World N V} {v : V} {n x p t : Fin N} {rest : List (Packet N V)}

theorem SafePut.held (h : SafePut cfg k w t) :
    Held cfg k (Function.update (w.slot k) t { w.slot k t with value := some v }) (traffic k w.net) v t := by
  refine ⟨fun m hm => ?_, fun m hm => ?_, .inl ⟨(traffic_eq_nil_iff w).mpr h.1, ?_, ?_⟩⟩
  · by_contra hmt
    rw [Function.update_of_ne hmt] at hm
    exact hmt ((h.2 m).2 (.inl hm))
  · by_contra hmt
    rw [Function.update_of_ne hmt, Slot.keeps, Bool.and_eq_true] at hm
    exact hmt ((h.2 m).2 (.inr hm.1))
  · simp
  · simp [(h.2 t).1]

theorem SafePut.held_send (h : SafePut cfg k w t) :
    Held cfg k (w.slot k) (traffic k (w.net ++ [⟨n, t, .insertKV k v⟩])) v t := by
  refine ⟨fun m hm => (h.2 m).2 (.inl hm), fun m hm => ?_, .inr ⟨⟨n, t, .insertKV k v⟩, ?_, ?_, rfl⟩⟩
  · rw [Slot.keeps, Bool.and_eq_true] at hm
    exact (h.2 m).2 (.inr hm.1)
  · rw [traffic_append, (traffic_eq_nil_iff w).mpr h.1]
    simp [traffic, Packet.carries]
  · simp [Packet.carries]

/-- The keys up to the new predecessor go to it, and with them the holder. -/
theorem Held.adopt {d : Fin N} (h : Held cfg k (w.slot k) (traffic k rest) v d)
    (hsafe : betweenRightInclude k (cfg.hashKey p) (cfg.hashKey n) = true →
      ∀ pkt ∈ traffic k rest, pkt.destination ≠ x)
    (hpred : (w.slot k x).predecessor = some p) (hidle : (w.slot k x).deleting = false)
    (hbetween : between (cfg.hashKey n) (cfg.hashKey p) (cfg.hashKey x) = true) {data : Nat → Option V}
    (hdata : data k =
      if betweenRightInclude k (cfg.hashKey p) (cfg.hashKey n) then (w.slot k x).value else none) :
    ∃ d, Held cfg k (Function.update (w.slot k) x
        { w.slot k x with
          predecessor := some n
          deleting := betweenRightInclude k (cfg.hashKey p) (cfg.hashKey n) })
      (traffic k (rest ++ [⟨x, n, .transferKey data⟩])) v d := by
  obtain ⟨hshrink, hsplit⟩ := between_split (k := k) hbetween
  rw [traffic_append]
  by_cases hk : betweenRightInclude k (cfg.hashKey p) (cfg.hashKey n) = true
  · rw [if_pos hk] at hdata
    rw [hk]
    by_cases hxd : x = d
    · subst hxd
      -- the holder sends the value on
      rcases h.place with ⟨hsent, hvalue, -⟩ | ⟨pkt, hsent, -, hdest⟩
      · have hv : (⟨x, n, .transferKey data⟩ : Packet N V).carries k = some v := hdata.trans hvalue
        refine ⟨n, fun m hm => ?_, fun m hm => ?_, .inr ⟨⟨x, n, .transferKey data⟩, ?_, hv, rfl⟩⟩
        · by_cases hmx : m = x
          · subst hmx
            simp [Slot.owns, hsplit hk] at hm
          · rw [Function.update_of_ne hmx] at hm
            exact absurd (h.owner m hm) hmx
        · by_cases hmx : m = x
          · subst hmx
            simp [Slot.keeps] at hm
          · rw [Function.update_of_ne hmx] at hm
            exact absurd (h.keeper m hm) hmx
        · rw [hsent, traffic_cons_some hv]
          rfl
      · exact absurd hdest (hsafe hk pkt (by simp [hsent]))
    · -- a node without the key sends it to nobody
      have hvalue : (w.slot k x).value = none := by
        by_contra hsome
        have hkeeps : (w.slot k x).keeps = true := by
          simp [Slot.keeps, hidle, Option.isSome_iff_ne_none, hsome]
        exact hxd (h.keeper x hkeeps)
      have hnone : (⟨x, n, .transferKey data⟩ : Packet N V).carries k = none := hdata.trans hvalue
      rw [traffic_cons_none hnone]
      refine ⟨d, (h.update_other hxd ?_ ?_).perm (by simp [traffic])⟩
      · simp [Slot.owns, hsplit hk]
      · simp [Slot.keeps]
  · rw [if_neg hk] at hdata
    rw [Bool.not_eq_true] at hk
    have hnone : (⟨x, n, .transferKey data⟩ : Packet N V).carries k = none := hdata
    rw [traffic_cons_none hnone, hk, ← hidle]
    refine ⟨d, (h.update_predecessor ?_).perm (by simp [traffic])⟩
    intro howns
    exact h.owner x (by simpa [Slot.owns, hpred] using hshrink howns)

theorem HasHolder.move (h : HasHolder cfg k w) (hmove : KeyMove cfg k w w') : HasHolder cfg k w' := by
  intro v hv
  cases hmove with
  | other gone rest new hgone hnew hnet hnet' hslot hwritten =>
    obtain ⟨d, hd⟩ := h v (hwritten ▸ hv)
    refine ⟨d, hslot ▸ hd.perm ?_⟩
    rw [hnet', traffic_append, hnew.traffic, List.append_nil]
    have hperm := traffic_perm (k := k) hnet
    rwa [traffic_append, hgone.traffic, List.nil_append] at hperm
  | put t u hsafe hnet' hslot hwritten =>
    rw [hwritten, Option.some.injEq] at hv
    subst hv
    rw [hnet', hslot]
    exact ⟨t, hsafe.held⟩
  | send n t u hsafe hnet' hslot hwritten =>
    rw [hwritten, Option.some.injEq] at hv
    subst hv
    rw [hnet', hslot]
    exact ⟨t, hsafe.held_send⟩
  | endTransfer n hdel hnet' hslot hwritten =>
    obtain ⟨d, hd⟩ := h v (hwritten ▸ hv)
    rw [hslot, hnet']
    exact ⟨d, hd.forget hdel⟩
  | first n x rest hnet hsafe hpred hnet' hslot hwritten =>
    obtain ⟨d, hd⟩ := h v (hwritten ▸ hv)
    have hperm := traffic_perm (k := k) hnet
    rw [traffic_cons_none rfl] at hperm
    rw [hslot, hnet']
    refine ⟨d, (hd.update_predecessor ?_).perm hperm⟩
    intro howns
    unfold SafeNotify at hsafe
    rw [hpred] at hsafe
    rcases hd.cases with ⟨-, hkeeps⟩ | ⟨pkt, hmem, rfl⟩
    · exact (hsafe howns d (.inl hkeeps)).symm
    · exact (hsafe howns _ (.inr (sentTo_of_mem hmem))).symm
  | adopt n x p data rest hnet hsafe hpred hidle hbetween hdata hnet' hslot hwritten =>
    obtain ⟨d, hd⟩ := h v (hwritten ▸ hv)
    have hperm := traffic_perm (k := k) hnet
    rw [traffic_cons_none rfl] at hperm
    rw [hslot, hnet']
    refine (hd.perm hperm).adopt ?_ hpred hidle hbetween hdata
    intro hk pkt hmem hdest
    unfold SafeNotify at hsafe
    rw [hpred] at hsafe
    have hsent := sentTo_of_mem (hperm.mem_iff.mpr hmem)
    rw [hdest, hsafe hbetween hk] at hsent
    cases hsent
  | arrive pkt u rest hnet hu hidle hnet' hslot hwritten =>
    obtain ⟨d, hd⟩ := h v (hwritten ▸ hv)
    have hperm := traffic_perm (k := k) hnet
    rw [traffic_cons_some hu] at hperm
    rw [hslot, hnet']
    exact ⟨d, (hd.perm hperm).arrive hu hidle⟩

end Keep

/-! ## Whole runs -/

/-- In a run that is safe for a key, the owner of the key stores its last value whenever no
message about the key is on its way. -/
theorem owner_stores_last_put {k : Nat} {w₀ w : World N V} (es : List (Event N V))
    (hnew : w₀.written k = none) (hrun : run (step cfg) w₀ es = some w)
    (hmeets : Meets (step cfg) (Safe cfg k) w₀ es) {v : V} (hv : w.written k = some v) (hcalm : w.Calm k)
    {n : Fin N} (howns : (w.slot k n).owns cfg n k = true) : (w.nodes n).blockStore k = some v := by
  have hinit : HasHolder cfg k w₀ := by
    intro u hu
    rw [hnew] at hu
    cases hu
  have hholder := run_invariant (HasHolder cfg k)
    (fun _ _ _ h hsafe hstep => h.move (step_keyMove hstep hsafe)) es hinit hmeets hrun
  obtain ⟨d, hd⟩ := hholder v hv
  rw [hd.owner n howns]
  rcases hd.place with ⟨-, hvalue, -⟩ | ⟨pkt, hsent, -⟩
  · exact hvalue
  · rw [(traffic_eq_nil_iff w).mpr hcalm] at hsent
    cases hsent

/-! ## A transfer that comes late -/

/-- Packets between two nodes are delivered in order, and a `Put` waits for the earlier ones. -/
def orderly (w : World N V) : Event N V → Bool
  | .deliver j => (w.net[j]?).all fun pkt =>
      (w.net.take j).all fun q => !(q.source == pkt.source && q.destination == pkt.destination)
  | .finishPut n i => ((w.nodes n).putting[i]?).all fun p =>
      w.net.all fun q => match q.msg with | .insertKV key _ => key != p.key | _ => true
  | _ => true

/-- Node 2 has the key 2 with the value 10 and hands it over to node 1, which joins; before the
transfer arrives, node 1 gets the value 20 of a second `Put`. -/
def lateTransfer : List (Event 3 Nat) :=
  [.put 0 2 10 0, .finishPut 0 0, .deliver 0,
   .join 1 0 2, .stabilize 1, .deliver 0, .deliver 0, .resume 1, .deliver 0, .endTransfer 2,
   .stabilize 0, .deliver 1, .deliver 1, .resume 0, .deliver 1,
   .put 0 2 20 0, .finishPut 0 0, .deliver 1, .deliver 0]

theorem lateTransfer_loses_put :
    Meets (step sampleConfig) (fun w e => orderly w e = true) (World.initial sampleConfig Nat 0 2) lateTransfer ∧
    ∃ w, run (step sampleConfig) (World.initial sampleConfig Nat 0 2) lateTransfer = some w ∧
      w.written 2 = some 20 ∧ w.Calm 2 ∧ (w.slot 2 1).owns sampleConfig 1 2 = true ∧
      (w.nodes 1).blockStore 2 = some 10 := by
  refine ⟨by decide, ?_⟩
  have hrun : (run (step sampleConfig) (World.initial sampleConfig Nat 0 2) lateTransfer).any (fun w =>
      decide (w.written 2 = some 20 ∧ w.Calm 2 ∧ (w.slot 2 1).owns sampleConfig 1 2 = true ∧
        (w.nodes 1).blockStore 2 = some 10)) = true := by decide
  obtain ⟨w, hw, hp⟩ := (Option.any_eq_true ..).mp hrun
  exact ⟨w, hw, of_decide_eq_true hp⟩

instance (k : Nat) (w : World N V) (t : Fin N) : Decidable (SafePut cfg k w t) := inferInstanceAs (Decidable (_ ∧ _))

instance (k : Nat) (w : World N V) (n x : Fin N) : Decidable (SafeNotify cfg k w n x) := by
  unfold SafeNotify
  split <;> infer_instance

instance (k : Nat) (w : World N V) (e : Event N V) : Decidable (Safe cfg k w e) := by
  unfold Safe
  split
  · split <;> infer_instance
  · split <;> infer_instance
  · infer_instance

/-- The same, with the transfer in time. -/
def quietTransfer : List (Event 3 Nat) :=
  [.put 0 2 10 0, .finishPut 0 0, .deliver 0,
   .join 1 0 2, .stabilize 1, .deliver 0, .deliver 0, .resume 1, .deliver 0, .endTransfer 2, .deliver 0,
   .stabilize 0, .deliver 0, .deliver 0, .resume 0, .deliver 0,
   .put 0 2 20 0, .finishPut 0 0, .deliver 0]

theorem quietTransfer_keeps_put :
    ∃ w, run (step sampleConfig) (World.initial sampleConfig Nat 0 2) quietTransfer = some w ∧
      (w.slot 2 1).owns sampleConfig 1 2 = true ∧ (w.nodes 1).blockStore 2 = some 20 := by
  have hmeets : Meets (step sampleConfig) (Safe sampleConfig 2) (World.initial sampleConfig Nat 0 2) quietTransfer := by
    decide
  have hrun : (run (step sampleConfig) (World.initial sampleConfig Nat 0 2) quietTransfer).any (fun w =>
      decide (w.written 2 = some 20 ∧ w.Calm 2 ∧ (w.slot 2 1).owns sampleConfig 1 2 = true)) = true := by
    decide
  obtain ⟨w, hw, hp⟩ := (Option.any_eq_true ..).mp hrun
  obtain ⟨hv, hcalm, howns⟩ := of_decide_eq_true hp
  exact ⟨w, hw, howns, owner_stores_last_put quietTransfer rfl hw hmeets hv hcalm howns⟩

end MarketPeer.Chord

import MarketPeer.Chord.Model

/-!
# What a step does to the pointers

Stabilisation is about the successors, the predecessors and the rounds that are under
way. Each step either is one of the moves of stabilisation or touches none of this.
-/

namespace MarketPeer.Chord

variable {N : Nat} {V : Type} {cfg : Config N}

/-- The part of a node that stabilisation reads and writes. -/
structure Pointers (N : Nat) where
  successor : Option (Fin N)
  predecessor : Option (Fin N)
  stabilizing : Option (Fin N)
  askPredecessorCh : List (Option (Fin N))

def Node.pointers (node : Node N V) : Pointers N :=
  ⟨node.successor, node.predecessor, node.stabilizing, node.askPredecessorCh⟩

def World.pointers (w : World N V) (n : Fin N) : Pointers N := (w.nodes n).pointers

/-- The messages of `Stabilize` and of its callbacks. -/
def Msg.stabilizes : Msg N V → Bool
  | .askPredecessor | .replyPredecessor _ | .notify => true
  | _ => false

/-- The successor after a round that got `reply`. -/
def refreshed (cfg : Config N) (self : Fin N) (old : Option (Fin N)) (successor : Fin N) :
    Option (Fin N) → Option (Fin N)
  | none => old
  | some p => if between (cfg.hashKey p) (cfg.hashKey self) (cfg.hashKey successor) then some p else old

/-- The predecessor after a notification by `nStar`. -/
def notified (cfg : Config N) (self : Fin N) (nStar : Fin N) : Option (Fin N) → Option (Fin N)
  | none => some nStar
  | some p =>
    if between (cfg.hashKey nStar) (cfg.hashKey p) (cfg.hashKey self) then some nStar else some p

/-- Packets that stabilisation does not see. -/
def Silent (net : List (Packet N V)) : Prop := ∀ pkt ∈ net, pkt.msg.stabilizes = false

/-- The moves of stabilisation. `rest` is what stays on its way. -/
inductive Move (cfg : Config N) (w w' : World N V) : Prop
  | other (gone rest new : List (Packet N V)) (hgone : Silent gone) (hnew : Silent new)
      (hnet : w.net.Perm (gone ++ rest)) (hnet' : w'.net = rest ++ new) (hptr : w'.pointers = w.pointers)
  | join (n s : Fin N) (hn : (w.pointers n).successor = none) (hs : (w.pointers s).successor ≠ none)
      (hnet' : w'.net = w.net)
      (hptr : w'.pointers = Function.update w.pointers n { w.pointers n with successor := some s })
  | stabilize (n s : Fin N) (hround : (w.pointers n).stabilizing = none)
      (hs : (w.pointers n).successor = some s) (hnet' : w'.net = w.net ++ [⟨n, s, .askPredecessor⟩])
      (hptr : w'.pointers = Function.update w.pointers n { w.pointers n with stabilizing := some s })
  | ask (n s : Fin N) (rest : List (Packet N V)) (hnet : w.net.Perm (⟨n, s, .askPredecessor⟩ :: rest))
      (hnet' : w'.net = rest ++ [⟨s, n, .replyPredecessor (w.pointers s).predecessor⟩])
      (hptr : w'.pointers = w.pointers)
  | reply (n s : Fin N) (p : Option (Fin N)) (rest : List (Packet N V))
      (hnet : w.net.Perm (⟨s, n, .replyPredecessor p⟩ :: rest)) (hnet' : w'.net = rest)
      (hptr : w'.pointers = Function.update w.pointers n
        { w.pointers n with askPredecessorCh := (w.pointers n).askPredecessorCh ++ [p] })
  | resume (n s : Fin N) (reply : Option (Fin N)) (later : List (Option (Fin N)))
      (hround : (w.pointers n).stabilizing = some s)
      (hreply : (w.pointers n).askPredecessorCh = reply :: later)
      (hnet' : w'.net = w.net ++
        (refreshed cfg n (w.pointers n).successor s reply).toList.map (⟨n, ·, .notify⟩))
      (hptr : w'.pointers = Function.update w.pointers n
        { w.pointers n with
          successor := refreshed cfg n (w.pointers n).successor s reply
          stabilizing := none
          askPredecessorCh := later })
  | notify (n s : Fin N) (rest new : List (Packet N V)) (hnet : w.net.Perm (⟨n, s, .notify⟩ :: rest))
      (hnew : Silent new) (hnet' : w'.net = rest ++ new)
      (hptr : w'.pointers = Function.update w.pointers s
        { w.pointers s with predecessor := notified cfg s n (w.pointers s).predecessor })

/-! ## Every step is a move -/

section Steps

variable {w w' : World N V} {n : Fin N} {e : Effect N V}

theorem World.commit_pointers (w : World N V) (n : Fin N) (e : Effect N V) :
    (w.commit n e).pointers = Function.update w.pointers n e.node.pointers := by
  funext m
  unfold World.pointers World.commit
  by_cases h : m = n
  · subst h; simp
  · simp [h]

theorem World.commit_pointers_same (w : World N V) (h : e.node.pointers = w.pointers n) :
    (w.commit n e).pointers = w.pointers := by
  rw [World.commit_pointers, h, Function.update_eq_self]

@[simp] theorem World.record_nodes (w : World N V) (n : Fin N) (i : Nat) : (w.record n i).nodes = w.nodes := by
  unfold World.record; split <;> rfl

@[simp] theorem World.record_net (w : World N V) (n : Fin N) (i : Nat) : (w.record n i).net = w.net := by
  unfold World.record; split <;> rfl

theorem World.record_pointers (w : World N V) (n : Fin N) (i : Nat) :
    (w.record n i).pointers = w.pointers := by
  funext m
  simp [World.pointers]

theorem silent_of_sends (h : ∀ s ∈ e.sends, s.2.stabilizes = false) :
    Silent (e.sends.map fun s => (⟨n, s.1, s.2⟩ : Packet N V)) := by
  intro pkt hpkt
  obtain ⟨s, hs, rfl⟩ := List.mem_map.mp hpkt
  exact h s hs

theorem Move.local (hptr : e.node.pointers = w.pointers n) (hsends : ∀ s ∈ e.sends, s.2.stabilizes = false) :
    Move cfg w (w.commit n e) :=
  .other [] w.net _ (by simp [Silent]) (silent_of_sends hsends) (List.Perm.refl _) rfl
    (w.commit_pointers_same hptr)

theorem put_pointers (self : Fin N) (node : Node N V) (key : Nat) (value : V) (answer : Fin N) :
    (put cfg self node key value answer).pointers = node.pointers := by
  unfold put
  split <;> rfl

/-- A request for a successor is answered to its origin or handed on. -/
theorem mem_chordFindSuccessorCallback {self source : Fin N} {node : Node N V} {id : Nat}
    {s : Fin N × Msg N V} (h : s ∈ chordFindSuccessorCallback cfg self node source id) :
    (∃ dest, s = (source, .findSuccessorReply dest id)) ∨ ∃ nStar, s = (nStar, .findSuccessor source id) := by
  unfold chordFindSuccessorCallback at h
  grind

theorem finishPut_silent {i : Nat} (h : finishPut cfg n (w.nodes n) i = some e) :
    e.node.pointers = w.pointers n ∧ ∀ s ∈ e.sends, s.2.stabilizes = false := by
  unfold finishPut at h
  obtain ⟨p, -, rfl⟩ := Option.map_eq_some_iff.mp h
  by_cases hself : cfg.hashKey n = cfg.hashKey p.dest
  · simp only [if_pos hself]
    exact ⟨rfl, by simp⟩
  · simp only [if_neg hself]
    exact ⟨rfl, by simp [Msg.stabilizes]⟩

theorem stabilize_move (h : stabilize (w.nodes n) = some e) : Move cfg w (w.commit n e) := by
  unfold stabilize at h
  split at h
  · cases h
  · cases h
    exact .local rfl (by simp)
  · next s hround hs =>
    cases h
    refine .stabilize n s hround hs rfl ?_
    rw [World.commit_pointers]
    rfl

theorem refresh_eq (self : Fin N) (node : Node N V) (s : Fin N) (reply : Option (Fin N)) :
    refresh cfg self node s reply =
      { node := { node with successor := refreshed cfg self node.successor s reply }
        sends := (refreshed cfg self node.successor s reply).toList.map (·, .notify) } := by
  unfold refresh refreshed
  cases reply with
  | none => rfl
  | some p => simp only; split_ifs <;> rfl

theorem stabilizeResume_move (h : stabilizeResume cfg n (w.nodes n) = some e) : Move cfg w (w.commit n e) := by
  unfold stabilizeResume at h
  split at h
  · next s reply rest hround hreply =>
    rw [refresh_eq] at h
    cases h
    refine .resume n s reply rest hround hreply ?_ ?_
    · simp [World.commit, World.pointers, Node.pointers]
    · rw [World.commit_pointers]
      rfl
  · cases h

theorem chordNotifyCallback_spec (cfg : Config N) (self : Fin N) (node : Node N V) (nStar : Fin N) :
    (chordNotifyCallback cfg self node nStar).node.pointers =
        { node.pointers with predecessor := notified cfg self nStar node.predecessor } ∧
      ∀ s ∈ (chordNotifyCallback cfg self node nStar).sends, s.2.stabilizes = false := by
  unfold chordNotifyCallback notified
  cases hpred : node.predecessor with
  | none => exact ⟨rfl, by simp⟩
  | some p =>
    simp only
    split_ifs
    · exact ⟨rfl, by simp [transferKey, Msg.stabilizes]⟩
    · refine ⟨?_, by simp⟩
      rw [← hpred]
      rfl

/-- The callback writes to its channel, or leaves with the lock. -/
theorem chordFindSuccessorReplyCallback_frame {node node' : Node N V} {dest : Fin N} {id : Nat}
    (h : chordFindSuccessorReplyCallback node dest id = some node') :
    ∃ findSuccessorCh chMutexHeld, node' = { node with findSuccessorCh, chMutexHeld } := by
  unfold chordFindSuccessorReplyCallback at h
  split_ifs at h
  split at h
  · split_ifs at h
    cases h
    exact ⟨_, _, rfl⟩
  · cases h
    exact ⟨_, _, rfl⟩

theorem perm_eraseIdx {net : List (Packet N V)} {k : Nat} {pkt : Packet N V} (h : net[k]? = some pkt) :
    net.Perm (pkt :: net.eraseIdx k) := by
  obtain ⟨hk, rfl⟩ := List.getElem?_eq_some_iff.mp h
  exact (List.getElem_cons_eraseIdx_perm hk).symm

/-- A packet that stabilisation does not see, whose callback keeps the pointers. -/
theorem Move.silent {k : Nat} {pkt : Packet N V} (hpkt : w.net[k]? = some pkt)
    (hmsg : pkt.msg.stabilizes = false) (hptr : e.node.pointers = w.pointers n)
    (hsends : ∀ s ∈ e.sends, s.2.stabilizes = false) :
    Move cfg w ({ w with net := w.net.eraseIdx k }.commit n e) :=
  .other [pkt] (w.net.eraseIdx k) _ (by simpa [Silent] using hmsg) (silent_of_sends hsends)
    (perm_eraseIdx hpkt) rfl (World.commit_pointers_same _ hptr)

theorem deliver_move {k : Nat} (h : deliver cfg w k = some w') : Move cfg w w' := by
  unfold deliver at h
  obtain ⟨⟨source, n, msg⟩, hpkt, h⟩ := Option.bind_eq_some_iff.mp h
  have hperm := perm_eraseIdx hpkt
  simp only at h
  split_ifs at h
  obtain ⟨e, he, rfl⟩ := Option.map_eq_some_iff.mp h
  cases msg with
  | findSuccessor origin id =>
    cases he
    refine .silent hpkt rfl rfl ?_
    intro s hs
    rcases mem_chordFindSuccessorCallback hs with ⟨d, rfl⟩ | ⟨d, rfl⟩ <;> rfl
  | findSuccessorReply dest id =>
    obtain ⟨node, hnode, rfl⟩ := Option.map_eq_some_iff.mp he
    obtain ⟨ch, held, rfl⟩ := chordFindSuccessorReplyCallback_frame hnode
    exact .silent hpkt rfl rfl (by simp)
  | askPredecessor =>
    cases he
    refine .ask source n _ hperm rfl ?_
    exact World.commit_pointers_same _ rfl
  | replyPredecessor p =>
    obtain ⟨node, hnode, rfl⟩ := Option.map_eq_some_iff.mp he
    unfold chordReplyPredecessorCallback at hnode
    split_ifs at hnode
    cases hnode
    refine .reply n source p _ hperm (by simp [World.commit]) ?_
    rw [World.commit_pointers]
    rfl
  | notify =>
    cases he
    obtain ⟨hptr, hsilent⟩ := chordNotifyCallback_spec cfg n (w.nodes n) source
    refine .notify source n _ _ hperm (silent_of_sends hsilent) rfl ?_
    rw [World.commit_pointers, hptr]
    rfl
  | transferKey data => cases he; exact .silent hpkt rfl rfl (by simp)
  | insertKV key value => cases he; exact .silent hpkt rfl rfl (by simp)

theorem step_move {ev : Event N V} (h : step cfg w ev = some w') : Move cfg w w' := by
  cases ev with
  | request n dest id =>
    obtain ⟨e, he, rfl⟩ := Option.map_eq_some_iff.mp h
    unfold findSuccessorRemote at he
    split_ifs at he
    cases he
    exact .local rfl (by simp [Msg.stabilizes])
  | join n member s =>
    simp only [step] at h
    split_ifs at h with hguard
    obtain ⟨hn, -, hs⟩ := hguard
    cases h
    have hn' : (w.pointers n).successor = none := not_not.mp hn
    refine .join n s hn' hs (by simp [World.commit]) ?_
    have hne : s ≠ n := by
      rintro rfl
      exact hs hn'
    rw [World.commit_pointers]
    simp only [join, if_pos hne]
    rfl
  | stabilize n =>
    obtain ⟨e, he, rfl⟩ := Option.map_eq_some_iff.mp h
    exact stabilize_move he
  | resume n =>
    obtain ⟨e, he, rfl⟩ := Option.map_eq_some_iff.mp h
    exact stabilizeResume_move he
  | put n key value answer =>
    cases h
    exact .local (put_pointers ..) (by simp)
  | finishPut n i =>
    obtain ⟨e, he, rfl⟩ := Option.map_eq_some_iff.mp h
    obtain ⟨hptr, hsilent⟩ := finishPut_silent he
    refine .other [] w.net _ (by simp [Silent]) (silent_of_sends (n := n) hsilent) (List.Perm.refl _) ?_ ?_
    · simp only [World.commit, World.record_net]
    · rw [World.commit_pointers, World.record_pointers, hptr, Function.update_eq_self]
  | endTransfer n =>
    obtain ⟨node, hnode, rfl⟩ := Option.map_eq_some_iff.mp h
    obtain ⟨⟨begin_, end_⟩, -, rfl⟩ := Option.map_eq_some_iff.mp hnode
    exact .local rfl (by simp)
  | deliver k => exact deliver_move h

end Steps

end MarketPeer.Chord

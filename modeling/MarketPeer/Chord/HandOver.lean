import Mathlib.Data.Fin.Basic
import MarketPeer.Chord.Store

/-!
# Handing over keys

`ChordNotifyCallback` as a whole, with a `transferKey` that can fail: the message may not
marshal and the network may refuse it. The predecessor is written before either is tried.
-/

namespace MarketPeer.Chord

variable {N : Nat} {V : Type}

/-! ## The callback with its errors -/

/-- What the message registry and the network answer to a message; `none` is no error. -/
structure Messaging (N : Nat) (V : Type) where
  marshalMessage : Msg N V → Option String
  unicast : Fin N → Msg N V → Option String

/-- How a callback returns: the node it leaves, what went out and its error. -/
structure Handled (N : Nat) (V : Type) where
  node : Node N V
  sends : List (Fin N × Msg N V) := []
  err : Option String := none

/-- `transferKey` with no other routine of the node between its send and its deletion. -/
def transferKeyWhole (net : Messaging N V) (node : Node N V) (dest : Fin N) (begin_ end_ : Nat) : Handled N V :=
  let transferMsg := .transferKey (findBetweenRightInclude node.blockStore begin_ end_)
  match net.marshalMessage transferMsg with
  | some err => { node, err := some err }
  | none =>
    match net.unicast dest transferMsg with
    | some err1 => { node, err := some err1 }
    | none =>
      { node := { node with blockStore := deleteBetweenRightInclude node.blockStore begin_ end_ }
        sends := [(dest, transferMsg)] }

/-- The test of `ChordNotifyCallback`. -/
def adopts (cfg : Config N) (self : Fin N) (node : Node N V) (nStar : Fin N) : Bool :=
  match node.predecessor with
  | none => true
  | some predecessor => between (cfg.hashKey nStar) (cfg.hashKey predecessor) (cfg.hashKey self)

def notifyWhole (cfg : Config N) (net : Messaging N V) (self : Fin N) (node : Node N V) (nStar : Fin N) :
    Handled N V :=
  if adopts cfg self node nStar then
    let adopted := { node with predecessor := some nStar }
    match node.predecessor with
    | none => { node := adopted }
    | some predecessor => transferKeyWhole net adopted nStar (cfg.hashKey predecessor) (cfg.hashKey nStar)
  else { node }

/-- The transfer message passes the registry and the network. -/
def CanSend (net : Messaging N V) (node : Node N V) (dest : Fin N) (begin_ end_ : Nat) : Prop :=
  let transferMsg := .transferKey (findBetweenRightInclude node.blockStore begin_ end_)
  net.marshalMessage transferMsg = none ∧ net.unicast dest transferMsg = none

theorem transferKeyWhole_sent {net : Messaging N V} {node : Node N V} {dest : Fin N} {begin_ end_ : Nat}
    (h : CanSend net node dest begin_ end_) :
    transferKeyWhole net node dest begin_ end_ =
      { node := { node with blockStore := deleteBetweenRightInclude node.blockStore begin_ end_ }
        sends := [(dest, .transferKey (findBetweenRightInclude node.blockStore begin_ end_))] } := by
  simp only [transferKeyWhole, h.1, h.2]

theorem transferKeyWhole_failed {net : Messaging N V} {node : Node N V} {dest : Fin N} {begin_ end_ : Nat}
    (h : ¬ CanSend net node dest begin_ end_) :
    ∃ err, transferKeyWhole net node dest begin_ end_ = { node, err := some err } := by
  cases hmarshal : net.marshalMessage (.transferKey (findBetweenRightInclude node.blockStore begin_ end_)) with
  | some err => exact ⟨err, by simp only [transferKeyWhole, hmarshal]⟩
  | none =>
    cases hunicast : net.unicast dest (.transferKey (findBetweenRightInclude node.blockStore begin_ end_)) with
    | some err => exact ⟨err, by simp only [transferKeyWhole, hmarshal, hunicast]⟩
    | none => exact absurd ⟨hmarshal, hunicast⟩ h

/-- A network that takes every message makes the callback the step of the other modules, with its
deletion right behind it. -/
theorem notifyWhole_eq_step {cfg : Config N} {net : Messaging N V} {self nStar : Fin N} {node : Node N V}
    (hidle : node.deleting = none) (hmarshal : ∀ m, net.marshalMessage m = none)
    (hunicast : ∀ dest m, net.unicast dest m = none) :
    notifyWhole cfg net self node nStar =
      { node := (endTransfer (chordNotifyCallback cfg self node nStar).node).getD
          (chordNotifyCallback cfg self node nStar).node
        sends := (chordNotifyCallback cfg self node nStar).sends } := by
  have hsend : ∀ (node : Node N V) dest begin_ end_, CanSend net node dest begin_ end_ :=
    fun _ _ _ _ => ⟨hmarshal _, hunicast _ _⟩
  unfold notifyWhole adopts chordNotifyCallback
  cases hpred : node.predecessor with
  | none => simp [endTransfer, hidle]
  | some predecessor =>
    dsimp only
    split_ifs with h
    · rw [transferKeyWhole_sent (hsend _ _ _ _)]
      simp [transferKey, endTransfer, ← hidle]
    · simp [endTransfer, hidle]

/-! ## What a hand-over keeps -/

/-- Every key of the store is in its arc, if the node has a predecessor. -/
def KeysOwned (cfg : Config N) (self : Fin N) (node : Node N V) : Prop :=
  ∀ p, node.predecessor = some p → ∀ k, node.blockStore k ≠ none →
    betweenRightInclude k (cfg.hashKey p) (cfg.hashKey self) = true

/-- The two stores have no key in common and are `old` together. -/
def DisjointUnion (old kept data : Nat → Option V) : Prop :=
  ∀ k, (kept k = old k ∧ data k = none) ∨ (data k = old k ∧ kept k = none)

/-- What the `Notify` of `x` is to do: the keys before `x` leave with the message, an error changes
nothing, and neither does a `Notify` that is not taken. -/
structure HandsOver (cfg : Config N) (n x : Fin N) (node : Node N V) (out : Handled N V) : Prop where
  adopted : adopts cfg n node x = true → out.err = none → out.node.predecessor = some x
  sent : adopts cfg n node x = true → ∀ dest data, (dest, Msg.transferKey data) ∈ out.sends →
    dest = x ∧ DisjointUnion node.blockStore out.node.blockStore data ∧
      (∀ k, out.node.blockStore k ≠ none → betweenRightInclude k (cfg.hashKey x) (cfg.hashKey n) = true) ∧
      ∀ k, data k ≠ none → betweenRightInclude k (cfg.hashKey x) (cfg.hashKey n) = false
  failed : adopts cfg n node x = true → out.err ≠ none →
    out.node.predecessor = node.predecessor ∧ out.node.blockStore = node.blockStore
  refused : adopts cfg n node x = false → out = { node }

section Keys

variable {cfg : Config N} {self x p : Fin N} {node : Node N V} {net : Messaging N V}

theorem disjointUnion_delete (data : Nat → Option V) (begin_ end_ : Nat) :
    DisjointUnion data (deleteBetweenRightInclude data begin_ end_) (findBetweenRightInclude data begin_ end_) := by
  intro k
  rw [deleteBetweenRightInclude_eq]
  unfold findBetweenRightInclude
  split_ifs <;> simp

/-- The first predecessor of a node gets nothing, whatever the store holds. -/
theorem notifyWhole_first (h : node.predecessor = none) :
    notifyWhole cfg net self node x = { node := { node with predecessor := some x } } := by
  simp [notifyWhole, adopts, h]

theorem notifyWhole_refused (h : adopts cfg self node x = false) :
    notifyWhole cfg net self node x = { node } := by
  simp [notifyWhole, h]

theorem notifyWhole_adopted (hpred : node.predecessor = some p) (h : adopts cfg self node x = true) :
    notifyWhole cfg net self node x =
      transferKeyWhole net { node with predecessor := some x } x (cfg.hashKey p) (cfg.hashKey x) := by
  simp [notifyWhole, hpred, h]

theorem notifyWhole_handsOver (hkeys : KeysOwned cfg self node)
    (hsend : ∀ p, node.predecessor = some p → adopts cfg self node x = true →
      CanSend net node x (cfg.hashKey p) (cfg.hashKey x)) :
    HandsOver cfg self x node (notifyWhole cfg net self node x) := by
  cases hpred : node.predecessor with
  | none =>
    rw [notifyWhole_first hpred]
    exact ⟨fun _ _ => rfl, by simp, by simp, by simp [adopts, hpred]⟩
  | some p =>
    cases h : adopts cfg self node x with
    | false =>
      rw [notifyWhole_refused h]
      exact ⟨by simp [h], by simp [h], by simp [h], fun _ => rfl⟩
    | true =>
      have hbetween : between (cfg.hashKey x) (cfg.hashKey p) (cfg.hashKey self) = true := by
        simpa [adopts, hpred] using h
      have hsent : CanSend net { node with predecessor := some x } x (cfg.hashKey p) (cfg.hashKey x) :=
        hsend p hpred h
      rw [notifyWhole_adopted hpred h, transferKeyWhole_sent hsent]
      refine ⟨fun _ _ => rfl, fun _ dest data hmem => ?_, by simp, by simp [h]⟩
      obtain ⟨rfl, rfl⟩ :
          dest = x ∧ data = findBetweenRightInclude node.blockStore (cfg.hashKey p) (cfg.hashKey x) := by
        simpa using hmem
      refine ⟨rfl, disjointUnion_delete _ _ _, fun k hk => ?_, fun k hk => ?_⟩
      · -- the store was all in (p, self]
        rw [← find_eq_self (hkeys p hpred), delete_find _ hbetween] at hk
        exact between_of_find hk
      · exact (between_split hbetween).2 (between_of_find hk)

/-- The new predecessor stands although nothing was sent to it. -/
theorem notifyWhole_not_handsOver (hpred : node.predecessor = some p) (h : adopts cfg self node x = true)
    (hsend : ¬ CanSend net node x (cfg.hashKey p) (cfg.hashKey x)) :
    ¬ HandsOver cfg self x node (notifyWhole cfg net self node x) := by
  intro hover
  have hbetween : between (cfg.hashKey x) (cfg.hashKey p) (cfg.hashKey self) = true := by
    simpa [adopts, hpred] using h
  have hfails : ¬ CanSend net { node with predecessor := some x } x (cfg.hashKey p) (cfg.hashKey x) := hsend
  obtain ⟨err, heq⟩ := transferKeyWhole_failed hfails
  rw [notifyWhole_adopted hpred h, heq] at hover
  have hkept := (hover.failed h (by simp)).1
  rw [hpred] at hkept
  have hxp : x = p := by simpa using hkept
  exact between_ne_left hbetween (by rw [hxp])

/-- An adopted `Notify` hands the keys over, or changes nothing, exactly when the transfer message of a
node that has a predecessor goes out. -/
theorem notify_handsOver_iff (hkeys : KeysOwned cfg self node) :
    HandsOver cfg self x node (notifyWhole cfg net self node x) ↔
      ∀ p, node.predecessor = some p → adopts cfg self node x = true →
        CanSend net node x (cfg.hashKey p) (cfg.hashKey x) := by
  constructor
  · intro hover p hpred h
    by_contra hsend
    exact notifyWhole_not_handsOver hpred h hsend hover
  · exact notifyWhole_handsOver hkeys

end Keys

/-! ## A node that loses its predecessor -/

/-- Node 2 has the predecessor 0 and holds the keys 1 and 2. -/
def twoKeys : Node 3 Nat :=
  { NewChord ⟨2, fun n => n.val⟩ Nat with
    successor := some 0
    predecessor := some 0
    blockStore := fun k => if k = 1 then some 7 else if k = 2 then some 8 else none }

def noRoute : Messaging 3 Nat where
  marshalMessage := fun _ => none
  unicast := fun _ _ => some "dest is unknown to me"

def openRoute : Messaging 3 Nat where
  marshalMessage := fun _ => none
  unicast := fun _ _ => none

theorem twoKeys_owned : KeysOwned ⟨2, fun n => n.val⟩ 2 twoKeys := by
  intro p hp k hk
  obtain rfl : p = 0 := by simpa [twoKeys, eq_comm] using hp
  have hk' : k = 1 ∨ k = 2 := by
    simp only [twoKeys] at hk
    split_ifs at hk <;> simp_all
  rcases hk' with rfl | rfl <;> decide

theorem twoKeys_hands_over :
    HandsOver ⟨2, fun n => n.val⟩ 2 1 twoKeys (notifyWhole ⟨2, fun n => n.val⟩ openRoute 2 twoKeys 1) :=
  (notify_handsOver_iff twoKeys_owned).mpr fun _ _ _ => ⟨rfl, rfl⟩

theorem twoKeys_loses_predecessor :
    KeysOwned ⟨2, fun n => n.val⟩ 2 twoKeys ∧
      adopts ⟨2, fun n => n.val⟩ 2 twoKeys 1 = true ∧
      (notifyWhole ⟨2, fun n => n.val⟩ noRoute 2 twoKeys 1).err = some "dest is unknown to me" ∧
      (notifyWhole ⟨2, fun n => n.val⟩ noRoute 2 twoKeys 1).node.predecessor = some 1 ∧
      ¬ HandsOver ⟨2, fun n => n.val⟩ 2 1 twoKeys (notifyWhole ⟨2, fun n => n.val⟩ noRoute 2 twoKeys 1) := by
  refine ⟨twoKeys_owned, by decide, by decide, by decide, fun h => ?_⟩
  have hkept := (h.failed (by decide) (by decide)).1
  revert hkept
  decide

end MarketPeer.Chord

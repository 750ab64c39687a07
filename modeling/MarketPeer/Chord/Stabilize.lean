import MarketPeer.Chord.Lookup
import MarketPeer.Chord.Moves

/-!
# Stabilisation rests only in the ideal ring

Whenever a node takes another for its predecessor, or is told of one, the successors
lead from the one to the other without going around. This is enough to keep the two
nodes of the first ring on one cycle, and every node on the way to it.
-/

namespace MarketPeer.Chord

open MarketPeer.Ring

variable {N : Nat} {V : Type} {cfg : Config N}

/-! ## The invariant -/

def next (ptr : Fin N → Pointers N) (n : Fin N) : Option (Fin N) := (ptr n).successor

theorem next_update (ptr : Fin N → Pointers N) (n : Fin N) (q : Pointers N) :
    next (Function.update ptr n q) = Function.update (next ptr) n q.successor := by
  funext m
  unfold next
  by_cases h : m = n
  · subst h; simp
  · simp [h]

theorem next_update_same (ptr : Fin N → Pointers N) (n : Fin N) (q : Pointers N)
    (h : q.successor = (ptr n).successor) : next (Function.update ptr n q) = next ptr := by
  rw [next_update, h]
  exact Function.update_eq_self n (next ptr)

/-- `p` is a node before `s` that the successors lead on to `s`. -/
def Leads (C : Circle (Fin N)) (ptr : Fin N → Pointers N) (p s : Fin N) : Prop :=
  p ≠ s ∧ C.Path (next ptr) p s

/-- The successors hold the nodes `a` and `b` on one cycle and lead every other node to it. -/
structure Cyclic (C : Circle (Fin N)) (a b : Fin N) (ptr : Fin N → Pointers N) : Prop where
  closed : ∀ x y, next ptr x = some y → x ≠ y ∧ next ptr y ≠ none
  there : C.Path (next ptr) a b
  back : C.Path (next ptr) b a
  reaches : ∀ x, next ptr x ≠ none → Circle.Reaches (next ptr) x a

/-- The packets that belong to the round of node `n`. -/
def ofRound (n : Fin N) (pkt : Packet N V) : Bool :=
  match pkt.msg with
  | .askPredecessor => pkt.source == n
  | .replyPredecessor _ => pkt.destination == n
  | _ => false

/-- Every reply answers the round that waits for it. -/
structure Rounds (ptr : Fin N → Pointers N) (net : List (Packet N V)) : Prop where
  stabilizing : ∀ n s, (ptr n).stabilizing = some s → (ptr n).successor = some s
  ask : ∀ n s, ⟨n, s, .askPredecessor⟩ ∈ net → (ptr n).stabilizing = some s
  one : ∀ n, net.countP (ofRound n) + (ptr n).askPredecessorCh.length =
    if (ptr n).stabilizing = none then 0 else 1

/-- A node that is known as a predecessor, or on its way to be, leads to its successor. -/
structure Known (C : Circle (Fin N)) (ptr : Fin N → Pointers N) (net : List (Packet N V)) : Prop where
  predecessor : ∀ s p, (ptr s).predecessor = some p → Leads C ptr p s
  notify : ∀ n s, ⟨n, s, .notify⟩ ∈ net → Leads C ptr n s
  reply : ∀ n x p, ⟨x, n, .replyPredecessor (some p)⟩ ∈ net →
    ∃ s, (ptr n).stabilizing = some s ∧ Leads C ptr p s
  unread : ∀ n p, some p ∈ (ptr n).askPredecessorCh →
    ∃ s, (ptr n).stabilizing = some s ∧ Leads C ptr p s

structure RingInv (C : Circle (Fin N)) (a b : Fin N) (w : World N V) : Prop where
  cyclic : Cyclic C a b w.pointers
  rounds : Rounds w.pointers w.net
  known : Known C w.pointers w.net

/-! ## Moves that keep the successors -/

section Keep

variable {C : Circle (Fin N)} {a b : Fin N} {ptr ptr' : Fin N → Pointers N} {net net' : List (Packet N V)}

theorem Cyclic.congr (h : Cyclic C a b ptr) (hnext : next ptr' = next ptr) : Cyclic C a b ptr' := by
  obtain ⟨h1, h2, h3, h4⟩ := h
  constructor <;> rw [hnext] <;> assumption

theorem Leads.congr {p s : Fin N} (h : Leads C ptr p s) (hnext : next ptr' = next ptr) : Leads C ptr' p s := by
  unfold Leads
  rw [hnext]
  exact h

/-- The packets of stabilisation that are on their way. -/
theorem Rounds.mono (h : Rounds ptr net) (hsub : ∀ pkt ∈ net', pkt.msg.stabilizes = true → pkt ∈ net)
    (hcount : ∀ n, net'.countP (ofRound n) = net.countP (ofRound n)) : Rounds ptr net' where
  stabilizing := h.stabilizing
  ask n s hmem := h.ask n s (hsub _ hmem rfl)
  one n := by rw [hcount]; exact h.one n

theorem Known.mono (h : Known C ptr net)
    (hsub : ∀ pkt ∈ net', pkt.msg.stabilizes = true → pkt.msg = .askPredecessor ∨ pkt ∈ net) :
    Known C ptr net' where
  predecessor := h.predecessor
  notify n s hmem := by
    rcases hsub _ hmem rfl with hmsg | hmem
    · cases hmsg
    · exact h.notify n s hmem
  reply n x p hmem := by
    rcases hsub _ hmem rfl with hmsg | hmem
    · cases hmsg
    · exact h.reply n x p hmem
  unread := h.unread

theorem Silent.countP {net : List (Packet N V)} (h : Silent net) (n : Fin N) : net.countP (ofRound n) = 0 := by
  rw [List.countP_eq_zero]
  intro pkt hpkt
  have hmsg := h pkt hpkt
  unfold ofRound
  unfold Msg.stabilizes at hmsg
  split <;> simp_all

/-- A field that the update at `n` does not change. -/
theorem update_field {α : Type} (f : Pointers N → α) (ptr : Fin N → Pointers N) {n : Fin N} {q : Pointers N}
    (h : f q = f (ptr n)) (m : Fin N) : f (Function.update ptr n q m) = f (ptr m) := by
  by_cases hm : m = n
  · subst hm
    rw [Function.update_self, h]
  · rw [Function.update_of_ne hm]

variable {w w' : World N V} {n s : Fin N} {rest new : List (Packet N V)}

theorem RingInv.other (h : RingInv C a b w) {gone : List (Packet N V)} (hgone : Silent gone)
    (hnew : Silent new) (hnet : w.net.Perm (gone ++ rest)) (hnet' : w'.net = rest ++ new)
    (hptr : w'.pointers = w.pointers) : RingInv C a b w' := by
  have hsub : ∀ pkt ∈ rest ++ new, pkt.msg.stabilizes = true → pkt ∈ w.net := by
    intro pkt hpkt hmsg
    rcases List.mem_append.mp hpkt with hmem | hmem
    · exact hnet.mem_iff.mpr (List.mem_append_right gone hmem)
    · rw [hnew pkt hmem] at hmsg
      cases hmsg
  have hcount : ∀ n, (rest ++ new).countP (ofRound n) = w.net.countP (ofRound n) := by
    intro n
    rw [hnet.countP_eq, List.countP_append, List.countP_append, hgone.countP, hnew.countP]
    omega
  constructor <;> rw [hptr]
  · exact h.cyclic
  · rw [hnet']; exact h.rounds.mono hsub hcount
  · rw [hnet']; exact h.known.mono fun pkt hpkt hmsg => .inr (hsub pkt hpkt hmsg)

theorem RingInv.ask (h : RingInv C a b w) (hnet : w.net.Perm (⟨n, s, .askPredecessor⟩ :: rest))
    (hnet' : w'.net = rest ++ [⟨s, n, .replyPredecessor (w.pointers s).predecessor⟩])
    (hptr : w'.pointers = w.pointers) : RingInv C a b w' := by
  have hrest : ∀ pkt ∈ rest, pkt ∈ w.net := fun pkt hpkt => hnet.mem_iff.mpr (List.mem_cons_of_mem _ hpkt)
  have hround : (w.pointers n).stabilizing = some s := h.rounds.ask n s (hnet.mem_iff.mpr List.mem_cons_self)
  constructor <;> rw [hptr]
  · exact h.cyclic
  · rw [hnet']
    constructor
    · exact h.rounds.stabilizing
    · intro m t hmem
      rcases List.mem_append.mp hmem with hmem | hmem
      · exact h.rounds.ask m t (hrest _ hmem)
      · simp at hmem
    · intro m
      -- the ask of the round has become its reply
      rw [← h.rounds.one m, hnet.countP_eq, List.countP_append]
      simp [List.countP_cons, ofRound]
  · rw [hnet']
    constructor
    · exact h.known.predecessor
    · intro m t hmem
      rcases List.mem_append.mp hmem with hmem | hmem
      · exact h.known.notify m t (hrest _ hmem)
      · simp at hmem
    · intro m x p hmem
      rcases List.mem_append.mp hmem with hmem | hmem
      · exact h.known.reply m x p (hrest _ hmem)
      · simp only [List.mem_singleton, Packet.mk.injEq, Msg.replyPredecessor.injEq] at hmem
        obtain ⟨-, rfl, hp⟩ := hmem
        exact ⟨s, hround, h.known.predecessor s p hp.symm⟩
    · exact h.known.unread

theorem RingInv.notify (h : RingInv C a b w) (hnet : w.net.Perm (⟨n, s, .notify⟩ :: rest)) (hnew : Silent new)
    (hnet' : w'.net = rest ++ new)
    (hptr : w'.pointers = Function.update w.pointers s
      { w.pointers s with predecessor := notified cfg s n (w.pointers s).predecessor }) :
    RingInv C a b w' := by
  have hlead : Leads C w.pointers n s := h.known.notify n s (hnet.mem_iff.mpr List.mem_cons_self)
  have hnext : next w'.pointers = next w.pointers := by rw [hptr]; exact next_update_same _ _ _ rfl
  have hsub : ∀ pkt ∈ rest ++ new, pkt.msg.stabilizes = true → pkt ∈ w.net := by
    intro pkt hpkt hmsg
    rcases List.mem_append.mp hpkt with hmem | hmem
    · exact hnet.mem_iff.mpr (List.mem_cons_of_mem _ hmem)
    · rw [hnew pkt hmem] at hmsg
      cases hmsg
  have hcount : ∀ m, (rest ++ new).countP (ofRound m) = w.net.countP (ofRound m) := by
    intro m
    rw [hnet.countP_eq, List.countP_append, hnew.countP]
    simp [ofRound]
  have hrounds := h.rounds.mono hsub hcount
  have hknown := h.known.mono fun pkt hpkt hmsg => .inr (hsub pkt hpkt hmsg)
  have hround : ∀ m, (w'.pointers m).stabilizing = (w.pointers m).stabilizing := by
    rw [hptr]; exact update_field _ _ rfl
  have hch : ∀ m, (w'.pointers m).askPredecessorCh = (w.pointers m).askPredecessorCh := by
    rw [hptr]; exact update_field _ _ rfl
  refine ⟨h.cyclic.congr hnext, ?_, ?_⟩ <;> rw [hnet']
  · refine ⟨fun m t hm => ?_, fun m t hmem => ?_, fun m => ?_⟩
    · rw [hround] at hm
      exact (congrFun hnext m).trans (hrounds.stabilizing m t hm)
    · rw [hround]; exact hrounds.ask m t hmem
    · rw [hround, hch]; exact hrounds.one m
  · refine ⟨fun t p hp => ?_, fun m t hmem => ?_, fun m x p hmem => ?_, fun m p hmem => ?_⟩
    · refine Leads.congr ?_ hnext
      by_cases ht : t = s
      · subst ht
        rw [hptr, Function.update_self] at hp
        unfold notified at hp
        split at hp
        · cases hp; exact hlead
        · next q hq =>
          split_ifs at hp
          · cases hp; exact hlead
          · cases hp; exact h.known.predecessor t p hq
      · rw [hptr, Function.update_of_ne ht] at hp
        exact h.known.predecessor t p hp
    · exact (hknown.notify m t hmem).congr hnext
    · obtain ⟨t, ht, hlead⟩ := hknown.reply m x p hmem
      exact ⟨t, by rw [hround, ht], hlead.congr hnext⟩
    · rw [hch] at hmem
      obtain ⟨t, ht, hlead⟩ := hknown.unread m p hmem
      exact ⟨t, by rw [hround, ht], hlead.congr hnext⟩

theorem RingInv.reply (h : RingInv C a b w) {p : Option (Fin N)}
    (hnet : w.net.Perm (⟨s, n, .replyPredecessor p⟩ :: rest)) (hnet' : w'.net = rest)
    (hptr : w'.pointers = Function.update w.pointers n
      { w.pointers n with askPredecessorCh := (w.pointers n).askPredecessorCh ++ [p] }) :
    RingInv C a b w' := by
  have hrest : ∀ pkt ∈ rest, pkt ∈ w.net := fun pkt hpkt => hnet.mem_iff.mpr (List.mem_cons_of_mem _ hpkt)
  have hnext : next w'.pointers = next w.pointers := by rw [hptr]; exact next_update_same _ _ _ rfl
  have hround : ∀ m, (w'.pointers m).stabilizing = (w.pointers m).stabilizing := by
    rw [hptr]; exact update_field _ _ rfl
  have hpred : ∀ m, (w'.pointers m).predecessor = (w.pointers m).predecessor := by
    rw [hptr]; exact update_field _ _ rfl
  refine ⟨h.cyclic.congr hnext, ?_, ?_⟩ <;> rw [hnet']
  · refine ⟨fun m t hm => ?_, fun m t hmem => ?_, fun m => ?_⟩
    · rw [hround] at hm
      exact (congrFun hnext m).trans (h.rounds.stabilizing m t hm)
    · rw [hround]; exact h.rounds.ask m t (hrest _ hmem)
    · have hone := h.rounds.one m
      rw [hnet.countP_eq, List.countP_cons] at hone
      rw [hround, ← hone, hptr]
      by_cases hm : m = n
      · subst hm
        simp [ofRound]
        omega
      · simp [hm, Ne.symm hm, ofRound]
  · refine ⟨fun t q hq => ?_, fun m t hmem => ?_, fun m x q hmem => ?_, fun m q hmem => ?_⟩
    · rw [hpred] at hq
      exact (h.known.predecessor t q hq).congr hnext
    · exact (h.known.notify m t (hrest _ hmem)).congr hnext
    · obtain ⟨t, ht, hlead⟩ := h.known.reply m x q (hrest _ hmem)
      exact ⟨t, by rw [hround, ht], hlead.congr hnext⟩
    · have hold : ∃ t, (w.pointers m).stabilizing = some t ∧ Leads C w.pointers q t := by
        by_cases hm : m = n
        · subst hm
          rw [hptr, Function.update_self] at hmem
          rcases List.mem_append.mp hmem with hmem | hmem
          · exact h.known.unread m q hmem
          · rw [List.mem_singleton] at hmem
            subst hmem
            exact h.known.reply m s q (hnet.mem_iff.mpr List.mem_cons_self)
        · rw [hptr, Function.update_of_ne hm] at hmem
          exact h.known.unread m q hmem
      obtain ⟨t, ht, hlead⟩ := hold
      exact ⟨t, by rw [hround, ht], hlead.congr hnext⟩

/-- More rounds and more successors do not take away what is known. -/
theorem Known.transfer (h : Known C ptr net) (hleads : ∀ p s, Leads C ptr p s → Leads C ptr' p s)
    (hpred : ∀ m, (ptr' m).predecessor = (ptr m).predecessor)
    (hround : ∀ m t, (ptr m).stabilizing = some t → (ptr' m).stabilizing = some t)
    (hch : ∀ m, (ptr' m).askPredecessorCh = (ptr m).askPredecessorCh) : Known C ptr' net where
  predecessor t p hp := by
    rw [hpred] at hp
    exact hleads _ _ (h.predecessor t p hp)
  notify m t hmem := hleads _ _ (h.notify m t hmem)
  reply m x p hmem := by
    obtain ⟨t, ht, hlead⟩ := h.reply m x p hmem
    exact ⟨t, hround m t ht, hleads _ _ hlead⟩
  unread m p hmem := by
    rw [hch] at hmem
    obtain ⟨t, ht, hlead⟩ := h.unread m p hmem
    exact ⟨t, hround m t ht, hleads _ _ hlead⟩

theorem RingInv.stabilize (h : RingInv C a b w) (hround : (w.pointers n).stabilizing = none)
    (hs : (w.pointers n).successor = some s) (hnet' : w'.net = w.net ++ [⟨n, s, .askPredecessor⟩])
    (hptr : w'.pointers = Function.update w.pointers n { w.pointers n with stabilizing := some s }) :
    RingInv C a b w' := by
  have hnext : next w'.pointers = next w.pointers := by rw [hptr]; exact next_update_same _ _ _ rfl
  have hch : ∀ m, (w'.pointers m).askPredecessorCh = (w.pointers m).askPredecessorCh := by
    rw [hptr]; exact update_field _ _ rfl
  have hold : ∀ m t, (w.pointers m).stabilizing = some t → (w'.pointers m).stabilizing = some t := by
    intro m t ht
    have hm : m ≠ n := by
      rintro rfl
      rw [hround] at ht
      cases ht
    rw [hptr, Function.update_of_ne hm, ht]
  refine ⟨h.cyclic.congr hnext, ?_, ?_⟩
  · rw [hnet']
    refine ⟨fun m t hm => ?_, fun m t hmem => ?_, fun m => ?_⟩
    · have hsucc : (w'.pointers m).successor = (w.pointers m).successor := congrFun hnext m
      rw [hsucc]
      by_cases hmn : m = n
      · subst hmn
        rw [hptr, Function.update_self] at hm
        rw [hs, ← hm]
      · rw [hptr, Function.update_of_ne hmn] at hm
        exact h.rounds.stabilizing m t hm
    · rcases List.mem_append.mp hmem with hmem | hmem
      · exact hold m t (h.rounds.ask m t hmem)
      · simp only [List.mem_singleton, Packet.mk.injEq, and_true] at hmem
        obtain ⟨rfl, rfl⟩ := hmem
        rw [hptr, Function.update_self]
    · have hone := h.rounds.one m
      rw [List.countP_append, hch, hptr]
      by_cases hm : m = n
      · subst hm
        rw [if_pos hround] at hone
        simp [ofRound]
        omega
      · rw [Function.update_of_ne hm, ← hone]
        simp [Ne.symm hm, ofRound]
  · have hknown : Known C w'.pointers w.net :=
      h.known.transfer (fun p t hlead => hlead.congr hnext) (by rw [hptr]; exact update_field _ _ rfl) hold hch
    rw [hnet']
    apply hknown.mono
    intro pkt hmem _
    rcases List.mem_append.mp hmem with hmem | hmem
    · exact .inr hmem
    · rw [List.mem_singleton] at hmem
      exact .inl (by rw [hmem])

end Keep

/-! ## Moves that change a successor -/

section Change

variable {C : Circle (Fin N)} {a b : Fin N} {ptr ptr' : Fin N → Pointers N} {w w' : World N V} {n s : Fin N}

/-- A node that joins points to one that is there. -/
theorem Cyclic.join (h : Cyclic C a b ptr) (hn : next ptr n = none) (hs : next ptr s ≠ none)
    (hnext : next ptr' = Function.update (next ptr) n (some s)) : Cyclic C a b ptr' := by
  have hmono : ∀ x y, next ptr x = some y → next ptr' x = some y := by
    intro x y hxy
    have hx : x ≠ n := by
      rintro rfl
      rw [hn] at hxy
      cases hxy
    rw [hnext, Function.update_of_ne hx, hxy]
  have hjoined : ∀ x, next ptr x ≠ none → next ptr' x ≠ none := by
    intro x hx
    obtain ⟨y, hy⟩ := Option.ne_none_iff_exists'.mp hx
    rw [hmono x y hy]
    simp
  refine ⟨fun x y hxy => ?_, h.there.mono hmono, h.back.mono hmono, fun x hx => ?_⟩
  · by_cases hx : x = n
    · subst hx
      rw [hnext, Function.update_self, Option.some.injEq] at hxy
      subst hxy
      refine ⟨?_, hjoined s hs⟩
      rintro rfl
      exact hs hn
    · rw [hnext, Function.update_of_ne hx] at hxy
      exact ⟨(h.closed x y hxy).1, hjoined y (h.closed x y hxy).2⟩
  · by_cases hxn : x = n
    · subst hxn
      have hstep : next ptr' x = some s := by rw [hnext, Function.update_self]
      exact .head hstep ((h.reaches s hs).mono hmono)
    · rw [hnext, Function.update_of_ne hxn] at hx
      exact (h.reaches x hx).mono hmono

theorem RingInv.join (h : RingInv C a b w) (hn : (w.pointers n).successor = none)
    (hs : (w.pointers s).successor ≠ none) (hnet' : w'.net = w.net)
    (hptr : w'.pointers = Function.update w.pointers n { w.pointers n with successor := some s }) :
    RingInv C a b w' := by
  have hnext : next w'.pointers = Function.update (next w.pointers) n (some s) := by
    rw [hptr]; exact next_update _ _ _
  have hround : ∀ m, (w'.pointers m).stabilizing = (w.pointers m).stabilizing := by
    rw [hptr]; exact update_field _ _ rfl
  have hch : ∀ m, (w'.pointers m).askPredecessorCh = (w.pointers m).askPredecessorCh := by
    rw [hptr]; exact update_field _ _ rfl
  have hmono : ∀ x y, next w.pointers x = some y → next w'.pointers x = some y := by
    intro x y hxy
    have hx : x ≠ n := by
      rintro rfl
      rw [show next w.pointers x = none from hn] at hxy
      cases hxy
    rw [hnext, Function.update_of_ne hx, hxy]
  refine ⟨h.cyclic.join hn hs hnext, ?_, ?_⟩ <;> rw [hnet']
  · refine ⟨fun m t hm => ?_, fun m t hmem => ?_, fun m => ?_⟩
    · rw [hround] at hm
      exact hmono m t (h.rounds.stabilizing m t hm)
    · rw [hround]; exact h.rounds.ask m t hmem
    · rw [hround, hch]; exact h.rounds.one m
  · exact h.known.transfer (fun p t hlead => ⟨hlead.1, hlead.2.mono hmono⟩)
      (by rw [hptr]; exact update_field _ _ rfl) (fun m t ht => by rw [hround, ht]) hch

/-- A node that takes a closer successor stays on the way. -/
theorem Cyclic.redirect (h : Cyclic C a b ptr) {p : Fin N} (hr : Circle.Path.Redirects C (next ptr) n s p)
    (hps : p ≠ s) (hnext : next ptr' = Function.update (next ptr) n (some p)) : Cyclic C a b ptr' := by
  have hp : next ptr p ≠ none := by
    cases hr.leads with
    | refl => exact absurd rfl hps
    | step _ hp _ _ => rw [hp]; simp
  have hjoined : ∀ x, next ptr' x ≠ none ↔ next ptr x ≠ none := by
    intro x
    rw [hnext]
    by_cases hx : x = n
    · subst hx
      simp [hr.old]
    · rw [Function.update_of_ne hx]
  refine ⟨fun x y hxy => ?_, ?_, ?_, fun x hx => ?_⟩
  · rw [hjoined]
    by_cases hx : x = n
    · subst hx
      rw [hnext, Function.update_self, Option.some.injEq] at hxy
      subst hxy
      refine ⟨?_, hp⟩
      rintro rfl
      have hpos := hr.behind
      rw [C.dist_self] at hpos
      omega
    · rw [hnext, Function.update_of_ne hx] at hxy
      exact h.closed x y hxy
  · rw [hnext]; exact h.there.redirect hr
  · rw [hnext]; exact h.back.redirect hr
  · rw [hjoined] at hx
    rw [hnext]
    exact (h.reaches x hx).redirect hr

/-- The end of a round, whatever it did to the successor, as long as the paths are still there. -/
theorem RingInv.endRound (h : RingInv C a b w) {t : Fin N} {reply : Option (Fin N)}
    {later : List (Option (Fin N))} (hround : (w.pointers n).stabilizing = some s)
    (hreply : (w.pointers n).askPredecessorCh = reply :: later)
    (hnet' : w'.net = w.net ++ [⟨n, t, .notify⟩])
    (hptr : w'.pointers = Function.update w.pointers n
      { w.pointers n with successor := some t, stabilizing := none, askPredecessorCh := later })
    (hcyclic : Cyclic C a b w'.pointers) (hleads : ∀ p s, Leads C w.pointers p s → Leads C w'.pointers p s) :
    RingInv C a b w' := by
  have hone := h.rounds.one n
  rw [hround, hreply, if_neg (by simp), List.length_cons] at hone
  have hlater : later = [] := List.length_eq_zero_iff.mp (by omega)
  -- the round has got its one reply, so that no packet is left of it
  have hzero : w.net.countP (ofRound n) = 0 := by omega
  have hgone : ∀ pkt ∈ w.net, ofRound n pkt = false := by simpa [List.countP_eq_zero] using hzero
  have hother : ∀ m, m ≠ n → w'.pointers m = w.pointers m := by
    intro m hm
    rw [hptr, Function.update_of_ne hm]
  have hself : w'.pointers n =
      { w.pointers n with successor := some t, stabilizing := none, askPredecessorCh := [] } := by
    rw [hptr, Function.update_self, hlater]
  have hmem' : ∀ pkt ∈ w'.net, pkt.msg = .notify ∨ pkt ∈ w.net := by
    intro pkt hmem
    rw [hnet'] at hmem
    rcases List.mem_append.mp hmem with hmem | hmem
    · exact .inr hmem
    · rw [List.mem_singleton] at hmem
      exact .inl (by rw [hmem])
  refine ⟨hcyclic, ⟨fun m u hm => ?_, fun m u hmem => ?_, fun m => ?_⟩,
    fun u p hp => ?_, fun m u hmem => ?_, fun m x p hmem => ?_, fun m p hmem => ?_⟩
  · by_cases hmn : m = n
    · subst hmn
      rw [hself] at hm
      cases hm
    · rw [hother m hmn] at hm ⊢
      exact h.rounds.stabilizing m u hm
  · rcases hmem' _ hmem with hmsg | hmem
    · cases hmsg
    · have hmn : m ≠ n := by
        rintro rfl
        simpa [ofRound] using hgone _ hmem
      rw [hother m hmn]
      exact h.rounds.ask m u hmem
  · rw [hnet', List.countP_append]
    by_cases hmn : m = n
    · subst hmn
      rw [hself, hzero]
      simp [ofRound]
    · rw [hother m hmn, ← h.rounds.one m]
      simp [ofRound]
  · have hpred : ∀ u, (w'.pointers u).predecessor = (w.pointers u).predecessor := by
      rw [hptr]; exact update_field _ _ rfl
    rw [hpred] at hp
    exact hleads _ _ (h.known.predecessor u p hp)
  · rw [hnet'] at hmem
    rcases List.mem_append.mp hmem with hmem | hmem
    · exact hleads _ _ (h.known.notify m u hmem)
    · simp only [List.mem_singleton, Packet.mk.injEq, and_true] at hmem
      obtain ⟨rfl, rfl⟩ := hmem
      have hsucc : next w'.pointers m = some u := by rw [next, hself]
      have hne := (hcyclic.closed m u hsucc).1
      exact ⟨hne, .single hne hsucc⟩
  · rcases hmem' _ hmem with hmsg | hmem
    · cases hmsg
    · have hmn : m ≠ n := by
        rintro rfl
        simpa [ofRound] using hgone _ hmem
      obtain ⟨u, hu, hlead⟩ := h.known.reply m x p hmem
      exact ⟨u, by rw [hother m hmn, hu], hleads _ _ hlead⟩
  · by_cases hmn : m = n
    · subst hmn
      rw [hself] at hmem
      simp at hmem
    · rw [hother m hmn] at hmem ⊢
      obtain ⟨u, hu, hlead⟩ := h.known.unread m p hmem
      exact ⟨u, hu, hleads _ _ hlead⟩

theorem RingInv.resume {hinj : Function.Injective cfg.hashKey} (h : RingInv (cfg.circle hinj) a b w)
    {reply : Option (Fin N)} {later : List (Option (Fin N))}
    (hround : (w.pointers n).stabilizing = some s)
    (hreply : (w.pointers n).askPredecessorCh = reply :: later)
    (hnet' : w'.net = w.net ++
      (refreshed cfg n (w.pointers n).successor s reply).toList.map (⟨n, ·, .notify⟩))
    (hptr : w'.pointers = Function.update w.pointers n
      { w.pointers n with
        successor := refreshed cfg n (w.pointers n).successor s reply
        stabilizing := none
        askPredecessorCh := later }) : RingInv (cfg.circle hinj) a b w' := by
  have hs := h.rounds.stabilizing n s hround
  by_cases hcloser : ∃ p, reply = some p ∧
      between (cfg.hashKey p) (cfg.hashKey n) (cfg.hashKey s) = true
  · obtain ⟨p, rfl, hbetween⟩ := hcloser
    have hnew : refreshed cfg n (w.pointers n).successor s (some p) = some p := if_pos hbetween
    rw [hnew] at hnet' hptr
    rw [between_iff (cfg.hashKey_lt p) (cfg.hashKey_lt n) (cfg.hashKey_lt s)] at hbetween
    obtain ⟨t, ht, hps, hpath⟩ := h.known.unread n p (by rw [hreply]; exact List.mem_cons_self)
    rw [hround, Option.some.injEq] at ht
    subst ht
    have hr : Circle.Path.Redirects (cfg.circle hinj) (next w.pointers) n s p :=
      ⟨hs, hbetween.1, hbetween.2, hpath⟩
    have hnext : next w'.pointers = Function.update (next w.pointers) n (some p) := by
      rw [hptr]; exact next_update _ _ _
    refine h.endRound hround hreply hnet' hptr (h.cyclic.redirect hr hps hnext) ?_
    intro x y hlead
    refine ⟨hlead.1, ?_⟩
    rw [hnext]
    exact hlead.2.redirect hr
  · have hnew : refreshed cfg n (w.pointers n).successor s reply = some s := by
      unfold refreshed
      cases reply with
      | none => exact hs
      | some p =>
        simp only
        rw [if_neg (fun hbetween => hcloser ⟨p, rfl, hbetween⟩), hs]
    rw [hnew] at hnet' hptr
    have hnext : next w'.pointers = next w.pointers := by
      rw [hptr]; exact next_update_same _ _ _ hs.symm
    exact h.endRound hround hreply hnet' hptr (h.cyclic.congr hnext) fun x y hlead => hlead.congr hnext

theorem RingInv.move {hinj : Function.Injective cfg.hashKey} (h : RingInv (cfg.circle hinj) a b w)
    (hmove : Move cfg w w') : RingInv (cfg.circle hinj) a b w' := by
  cases hmove with
  | other gone rest new hgone hnew hnet hnet' hptr => exact h.other hgone hnew hnet hnet' hptr
  | join n s hn hs hnet' hptr => exact h.join hn hs hnet' hptr
  | stabilize n s hround hs hnet' hptr => exact h.stabilize hround hs hnet' hptr
  | ask n s rest hnet hnet' hptr => exact h.ask hnet hnet' hptr
  | reply n s p rest hnet hnet' hptr => exact h.reply hnet hnet' hptr
  | resume n s reply later hround hreply hnet' hptr => exact h.resume hround hreply hnet' hptr
  | notify n s rest new hnet hnew hnet' hptr => exact h.notify hnet hnew hnet' hptr

end Change

/-! ## Whole runs -/

section Runs

variable {a b : Fin N} {w : World N V}

theorem initial_pointers (cfg : Config N) (V : Type) {a b : Fin N} (hab : a ≠ b) (n : Fin N) :
    (World.initial cfg V a b).pointers n =
      if n = a then ⟨some b, some b, none, []⟩ else if n = b then ⟨some a, some a, none, []⟩
      else ⟨none, none, none, []⟩ := by
  unfold World.pointers World.initial
  by_cases hb : n = b
  · subst hb
    simp [hab.symm, Node.pointers, init, NewChord]
  · by_cases ha : n = a
    · subst ha
      simp [hab, Node.pointers, init, NewChord]
    · simp [ha, hb, Node.pointers, NewChord]

theorem RingInv.initial (hinj : Function.Injective cfg.hashKey) (hab : a ≠ b) :
    RingInv (cfg.circle hinj) a b (World.initial cfg V a b) := by
  have hptr := initial_pointers cfg V hab
  have ha : next (World.initial cfg V a b).pointers a = some b := by simp [next, hptr]
  have hb : next (World.initial cfg V a b).pointers b = some a := by simp [next, hptr, hab.symm]
  have hnet : (World.initial cfg V a b).net = [] := rfl
  have honly : ∀ x, next (World.initial cfg V a b).pointers x ≠ none → x = a ∨ x = b := by
    intro x hx
    by_contra hne
    push Not at hne
    simp [next, hptr, hne.1, hne.2] at hx
  refine ⟨⟨?_, .single hab ha, .single hab.symm hb, ?_⟩, ⟨?_, ?_, ?_⟩, ?_, ?_, ?_, ?_⟩
  · intro x y hxy
    rcases honly x (by simp [hxy]) with rfl | rfl
    · rw [ha, Option.some.injEq] at hxy
      subst hxy
      exact ⟨hab, by simp [hb]⟩
    · rw [hb, Option.some.injEq] at hxy
      subst hxy
      exact ⟨hab.symm, by simp [ha]⟩
  · intro x hx
    rcases honly x hx with rfl | rfl
    · exact .refl
    · exact .single hb
  · intro n s hn
    rw [hptr] at hn
    split_ifs at hn
  · simp [hnet]
  · intro n
    rw [hnet, hptr]
    split_ifs <;> simp_all
  · intro s p hp
    rw [hptr] at hp
    split_ifs at hp with h1 h2
    · cases hp
      subst h1
      exact ⟨hab.symm, .single hab.symm hb⟩
    · cases hp
      subst h2
      exact ⟨hab, .single hab ha⟩
  · simp [hnet]
  · simp [hnet]
  · intro n p hmem
    rw [hptr] at hmem
    split_ifs at hmem <;> simp at hmem

theorem run_ringInv (hinj : Function.Injective cfg.hashKey) (hab : a ≠ b) (es : List (Event N V))
    (hrun : run (step cfg) (World.initial cfg V a b) es = some w) : RingInv (cfg.circle hinj) a b w :=
  run_preserves (RingInv (cfg.circle hinj) a b) (fun _ _ _ h hstep => h.move (step_move hstep)) es
    (.initial hinj hab) hrun

end Runs

/-! ## At rest -/

/-- A whole round of node `n`: it asks its successor, takes what it hears and notifies. -/
def World.round (cfg : Config N) (w : World N V) (n : Fin N) : World N V :=
  match (w.nodes n).successor with
  | none => w
  | some s =>
    let e := refresh cfg n (w.nodes n) s (w.nodes s).predecessor
    let w := { w with nodes := Function.update w.nodes n e.node }
    match e.node.successor with
    | none => w
    | some t => { w with nodes := Function.update w.nodes t (chordNotifyCallback cfg t (w.nodes t) n).node }

/-- No packet is on its way, and no round would change a pointer. -/
structure Rests (cfg : Config N) (w : World N V) : Prop where
  net : w.net = []
  successor : ∀ n, w.Joined n → ∀ m, ((w.round cfg n).nodes m).successor = (w.nodes m).successor
  predecessor : ∀ n, w.Joined n → ∀ m, ((w.round cfg n).nodes m).predecessor = (w.nodes m).predecessor

section Rest

variable {a b : Fin N} {w : World N V}

/-- Where nothing else is under way, the steps of a round come to the whole round. -/
theorem run_round {n s : Fin N} (hnet : w.net = []) (hround : (w.nodes n).stabilizing = none)
    (hch : (w.nodes n).askPredecessorCh = []) (hdel : ∀ m, (w.nodes m).deleting = none)
    (hs : (w.nodes n).successor = some s) (hns : n ≠ s) :
    ∃ net, run (step cfg) w [.stabilize n, .deliver 0, .deliver 0, .resume n, .deliver 0] =
      some { w.round cfg n with net } := by
  obtain ⟨t, ht⟩ : ∃ t, refreshed cfg n (some s) s (w.nodes s).predecessor = some t := by
    unfold refreshed
    split
    · exact ⟨s, rfl⟩
    · split_ifs
      · exact ⟨_, rfl⟩
      · exact ⟨s, rfl⟩
  have hnodes : Function.update (Function.update (Function.update w.nodes n
      { w.nodes n with stabilizing := some s }) s (w.nodes s)) n { w.nodes n with successor := some t } =
      Function.update w.nodes n { w.nodes n with successor := some t } := by
    funext m
    by_cases hmn : m = n
    · subst hmn; simp
    · by_cases hms : m = s
      · subst hms; simp [hmn]
      · simp [hmn, hms]
  have hdel' : (Function.update w.nodes n { w.nodes n with successor := some t } t).deleting = none := by
    by_cases htn : t = n
    · subst htn; simp [hdel]
    · simp [htn, hdel]
  simp [run, step, stabilize, hround, hs, World.commit, deliver, hnet, processPacket,
    chordAskPredecessorCallback, chordReplyPredecessorCallback, stabilizeResume, hns, hns.symm, hdel, hch,
    refresh_eq, ht] at hnodes hdel' ⊢
  simp [hnodes, hdel', World.round, hs, refresh_eq, ht, hround, hch, hdel]

/-- A node that is neither before its successor's predecessor nor behind it is the predecessor. -/
theorem eq_of_not_between (C : Circle (Fin N)) {n p s : Fin N} (hn : n ≠ s) (hp : p ≠ s)
    (hp' : C.dist n p < C.dist n s → C.dist n p = 0) (hn' : C.dist p n < C.dist p s → C.dist p n = 0) :
    p = n := by
  by_contra hne
  have h1 := C.dist_pos hne
  have h2 := C.dist_pos (Ne.symm hne)
  have h3 := C.dist_add (a := n) (b := s) (c := p) (by omega)
  have h4 := C.dist_add (a := p) (b := s) (c := n) (by omega)
  have h5 := C.dist_triangle n p n
  have h6 := C.dist_triangle n s n
  have h7 := C.dist_triangle p s p
  have h8 := C.dist_pos hn
  have h9 := C.dist_pos hp
  simp only [C.dist_self] at h5 h6 h7
  omega

theorem round_successor {n s : Fin N} (hs : (w.nodes n).successor = some s) :
    ((w.round cfg n).nodes n).successor = refreshed cfg n (some s) s (w.nodes s).predecessor := by
  unfold World.round
  simp only [hs, refresh_eq]
  cases hnew : refreshed cfg n (some s) s (w.nodes s).predecessor with
  | none => simp
  | some t =>
    have hptr := (chordNotifyCallback_spec cfg t
      (Function.update w.nodes n { w.nodes n with successor := some t } t) n).1
    by_cases ht : t = n
    · subst ht
      simp only [Function.update_self] at hptr ⊢
      exact congrArg Pointers.successor hptr
    · simp [Ne.symm ht]

theorem round_predecessor {n s : Fin N} (hs : (w.nodes n).successor = some s) (hns : n ≠ s)
    (hkeep : refreshed cfg n (some s) s (w.nodes s).predecessor = some s) :
    ((w.round cfg n).nodes s).predecessor = notified cfg s n (w.nodes s).predecessor := by
  unfold World.round
  simp only [hs, refresh_eq, hkeep, Function.update_self, Function.update_of_ne hns.symm]
  exact congrArg Pointers.predecessor (chordNotifyCallback_spec cfg s (w.nodes s) n).1

/-- If a whole round of a node changes neither its successor nor the predecessor of this one, the two know each other. -/
theorem predecessor_of_kept {hinj : Function.Injective cfg.hashKey} (h : RingInv (cfg.circle hinj) a b w) {n s : Fin N}
    (hs : (w.nodes n).successor = some s)
    (hsucc : refreshed cfg n (some s) s (w.nodes s).predecessor = some s)
    (hpred : notified cfg s n (w.nodes s).predecessor = (w.nodes s).predecessor) :
    (w.nodes s).predecessor = some n := by
  have hns : n ≠ s := (h.cyclic.closed n s hs).1
  cases hp : (w.nodes s).predecessor with
  | none =>
    rw [hp] at hpred
    cases hpred
  | some p =>
    have hps : p ≠ s := (h.known.predecessor s p hp).1
    have hp' : ¬ between (cfg.hashKey p) (cfg.hashKey n) (cfg.hashKey s) = true := by
      intro hbetween
      rw [hp, refreshed, if_pos hbetween, Option.some.injEq] at hsucc
      exact hps hsucc
    have hn' : ¬ between (cfg.hashKey n) (cfg.hashKey p) (cfg.hashKey s) = true := by
      intro hbetween
      rw [hp, notified, if_pos hbetween, Option.some.injEq] at hpred
      subst hpred
      simp [between_iff (cfg.hashKey_lt n) (cfg.hashKey_lt n) (cfg.hashKey_lt s)] at hbetween
    rw [between_iff (cfg.hashKey_lt _) (cfg.hashKey_lt _) (cfg.hashKey_lt _)] at hp' hn'
    rw [eq_of_not_between (cfg.circle hinj) hns hps]
    · intro hlt
      by_contra hpos
      exact hp' ⟨Nat.pos_of_ne_zero hpos, hlt⟩
    · intro hlt
      by_contra hpos
      exact hn' ⟨Nat.pos_of_ne_zero hpos, hlt⟩

theorem Rests.predecessor_of_successor {hinj : Function.Injective cfg.hashKey}
    (h : RingInv (cfg.circle hinj) a b w) (hrest : Rests cfg w) {n s : Fin N}
    (hs : (w.nodes n).successor = some s) : (w.nodes s).predecessor = some n := by
  have hjoined : w.Joined n := by simp [World.Joined, hs]
  have hns : n ≠ s := (h.cyclic.closed n s hs).1
  have hsucc := hrest.successor n hjoined n
  rw [round_successor hs, hs] at hsucc
  have hpred := hrest.predecessor n hjoined s
  rw [round_predecessor hs hns hsucc] at hpred
  exact predecessor_of_kept h hs hsucc hpred

/-- The nodes that have joined, in the order of their identifiers. -/
theorem exists_sorted (hinj : Function.Injective cfg.hashKey) (w : World N V) :
    ∃ ring : List (Fin N), (∀ n, n ∈ ring ↔ w.Joined n) ∧ (cfg.circle hinj).Sorted ring := by
  let joined := (List.finRange N).filter fun n => w.Joined n
  let ring := joined.mergeSort fun x y => decide (cfg.hashKey x ≤ cfg.hashKey y)
  have hperm : ring.Perm joined := List.mergeSort_perm _ _
  have hsorted : ring.Pairwise fun x y => decide (cfg.hashKey x ≤ cfg.hashKey y) = true := by
    apply List.pairwise_mergeSort
    · intro x y z hxy hyz
      simp only [decide_eq_true_eq] at *
      omega
    · intro x y
      simp only [Bool.or_eq_true, decide_eq_true_eq]
      omega
  have hnodup : ring.Nodup := hperm.nodup_iff.mpr ((List.nodup_finRange N).filter _)
  refine ⟨ring, fun n => ?_, (hsorted.and hnodup).imp ?_⟩
  · rw [hperm.mem_iff]
    simp [joined]
  · rintro x y ⟨hle, hne⟩
    rw [decide_eq_true_eq] at hle
    exact lt_of_le_of_ne hle (hinj.ne hne)

/-- Stabilisation of a ring that two nodes began rests only when all nodes that joined form the
ideal ring. -/
theorem stabilize_rests_in_ring (hinj : Function.Injective cfg.hashKey) (hab : a ≠ b)
    (es : List (Event N V)) (hrun : run (step cfg) (World.initial cfg V a b) es = some w)
    (hrest : Rests cfg w) :
    ∃ ring : List (Fin N), (∀ n, n ∈ ring ↔ w.Joined n) ∧ IdealRing cfg w ring := by
  have h := run_ringInv hinj hab es hrun
  obtain ⟨ring, hmem, hsorted⟩ := exists_sorted hinj w
  have hpred : ∀ n s, (w.nodes n).successor = some s → (w.nodes s).predecessor = some n :=
    fun n s hs => hrest.predecessor_of_successor h hs
  have hone : ∀ x y z, next w.pointers x = some z → next w.pointers y = some z → x = y := by
    intro x y z hx hy
    have hxz := hpred x z hx
    rw [hpred y z hy, Option.some.injEq] at hxz
    exact hxz.symm
  have hsucc : ∀ n s, Circle.Follows ring n s → (w.nodes n).successor = some s := by
    intro n s hfollows
    have hjoined : w.Joined n := (hmem n).mp hfollows.mem_left
    obtain ⟨t, ht⟩ := Option.ne_none_iff_exists'.mp hjoined
    obtain ⟨hnt, htjoined⟩ := h.cyclic.closed n t ht
    have hnear : ∀ y ∈ ring, n ≠ y → (cfg.circle hinj).dist n t ≤ (cfg.circle hinj).dist n y := by
      intro y hy hny
      exact Circle.nearest hab h.cyclic.there h.cyclic.back hone (h.cyclic.reaches n hjoined)
        (h.cyclic.reaches y ((hmem y).mp hy)) ht hny
    rw [hsorted.eq_of_nearest hfollows ((hmem t).mpr htjoined) hnt hnear]
    exact ht
  exact ⟨ring, hmem, hsorted, hsucc, fun n s hfollows => hpred n s (hsucc n s hfollows)⟩

end Rest

/-! ## A node that joins in the wrong place -/

/-- Node 2 is told that its successor is node 1, and finds its place behind it. -/
def lateJoin : List (Event 3 Nat) :=
  [.join 2 0 1, .stabilize 2, .deliver 0, .deliver 0, .resume 2, .deliver 0, .endTransfer 0, .deliver 0,
   .stabilize 1, .deliver 0, .deliver 0, .resume 1, .deliver 0]

theorem lateJoin_rests : ∃ w, run (step sampleConfig) (World.initial sampleConfig Nat 0 1) lateJoin = some w ∧
    Rests sampleConfig w ∧
    ∃ ring : List (Fin 3), (∀ n, n ∈ ring ↔ w.Joined n) ∧ IdealRing sampleConfig w ring := by
  have hrun : (run (step sampleConfig) (World.initial sampleConfig Nat 0 1) lateJoin).any (fun w =>
      w.net.isEmpty && decide (∀ n, w.Joined n → ∀ m,
        ((w.round sampleConfig n).nodes m).successor = (w.nodes m).successor ∧
        ((w.round sampleConfig n).nodes m).predecessor = (w.nodes m).predecessor)) = true := by
    decide
  obtain ⟨w, hw, hp⟩ := (Option.any_eq_true ..).mp hrun
  rw [Bool.and_eq_true, List.isEmpty_iff, decide_eq_true_eq] at hp
  have hrest : Rests sampleConfig w :=
    ⟨hp.1, fun n hn m => (hp.2 n hn m).1, fun n hn m => (hp.2 n hn m).2⟩
  exact ⟨w, hw, hrest, stabilize_rests_in_ring (by decide) (by decide) lateJoin hw hrest⟩

end MarketPeer.Chord

import MarketPeer.Chord.Lookup

/-!
# Finger tables

`FixFinger` on all nodes of a ring whose pointers stay as they are. The daemon of a
node makes one call after the other; the calls of different nodes overlap, and a lookup
goes through tables that other calls are still filling. The timeout of a lookup is left
out: a call waits for its reply.
-/

namespace MarketPeer.Chord

open MarketPeer.Ring

variable {N : Nat} {V : Type} {cfg : Config N}

/-! ## The daemons -/

/-- The nodes with their daemons: `fixPointer` belongs to the finger table, `fixing` is the identifier
that a call waits for, and `wrote` lists the entries that the calls of a node have written, which
nothing reads. -/
structure FixWorld (N : Nat) (V : Type) where
  chord : World N V
  fixPointer : Fin N → Nat
  fixing : Fin N → Option Nat
  wrote : Fin N → List (Nat × Fin N)

/-- The identifier that belongs to entry `i`. -/
def Config.fingerId (cfg : Config N) (n : Fin N) (i : Nat) : Nat :=
  (cfg.hashKey n + 2 ^ i) % 2 ^ cfg.chordBits

/-- `FingerTable.insert`; `none` is its error. -/
def insert (fingerTable : List (Option (Fin N))) (loc : Nat) (address : Fin N) :
    Option (List (Option (Fin N))) :=
  if loc < fingerTable.length then some (fingerTable.set loc (some address)) else none

/-- The rest of `FixFinger`, with the answer of its lookup. -/
def FixWorld.finish (cfg : Config N) (w : FixWorld N V) (n fingerTableItem : Fin N) : FixWorld N V :=
  match insert (w.chord.nodes n).fingerTable (w.fixPointer n) fingerTableItem with
  | none => { w with fixing := Function.update w.fixing n none }
  | some fingerTable =>
    { chord := { w.chord with nodes := Function.update w.chord.nodes n { w.chord.nodes n with fingerTable } }
      fixPointer := Function.update w.fixPointer n ((w.fixPointer n + 1) % cfg.chordBits)
      fixing := Function.update w.fixing n none
      wrote := Function.update w.wrote n (w.wrote n ++ [(w.fixPointer n, fingerTableItem)]) }

/-- `FixFinger` up to the wait of its lookup. -/
def fixFinger (cfg : Config N) (w : FixWorld N V) (n : Fin N) : Option (FixWorld N V) :=
  let id := cfg.fingerId n (w.fixPointer n)
  if (w.fixing n).isSome then none
  else
    match findSuccessor cfg n (w.chord.nodes n) id with
    | .found addr => some (w.finish cfg n addr)
    | .remote nStar =>
      (step cfg w.chord (.request n nStar id)).map fun chord =>
        { w with chord, fixing := Function.update w.fixing n (some id) }
    | .error => some w

/-- `FixFinger` takes the reply out of the channel. -/
def fixFingerResume (cfg : Config N) (w : FixWorld N V) (n : Fin N) : Option (FixWorld N V) :=
  (w.fixing n).bind fun id =>
    match (w.chord.nodes n).findSuccessorCh id with
    | some (addr :: rest) =>
      let node := { w.chord.nodes n with
        findSuccessorCh := Function.update (w.chord.nodes n).findSuccessorCh id (some rest) }
      some ({ w with chord := w.chord.commit n { node } }.finish cfg n addr)
    | _ => none

inductive FixEvent (N : Nat) where
  | fixFinger (n : Fin N)
  | resume (n : Fin N)
  | deliver (k : Nat)

def fixStep (cfg : Config N) (w : FixWorld N V) : FixEvent N → Option (FixWorld N V)
  | .fixFinger n => fixFinger cfg w n
  | .resume n => fixFingerResume cfg w n
  | .deliver k => (step cfg w.chord (.deliver k)).map fun chord => { w with chord }

/-- A ring of all nodes at rest, with nothing in the finger tables. -/
structure StaticRing (cfg : Config N) (w : FixWorld N V) (ring : List (Fin N)) : Prop where
  ideal : IdealRing cfg w.chord ring
  idle : Idle w.chord
  all : ∀ n, n ∈ ring
  empty : ∀ n, (w.chord.nodes n).fingerTable = List.replicate cfg.chordBits none
  pointers : ∀ n, w.fixPointer n = 0
  resting : ∀ n, w.fixing n = none
  unwritten : ∀ n, w.wrote n = []

/-- How many calls node `n` has begun. -/
def FixWorld.called (w : FixWorld N V) (n : Fin N) : Nat := (w.wrote n).length + (w.fixing n).toList.length

/-- Node `b` is the first one at or behind `id`. -/
def Owns (cfg : Config N) (ring : List (Fin N)) (b : Fin N) (id : Nat) : Prop :=
  ∃ p, Circle.Follows ring p b ∧ InArc (2 ^ cfg.chordBits) (cfg.hashKey p) id (cfg.hashKey b)

instance (cfg : Config N) (ring : List (Fin N)) (b : Fin N) (id : Nat) : Decidable (Owns cfg ring b id) :=
  inferInstanceAs (Decidable (∃ _ : Fin N, _))

/-- Every entry of the table of node `n` is the owner of its identifier. -/
def ExactTable (cfg : Config N) (ring : List (Fin N)) (w : FixWorld N V) (n : Fin N) : Prop :=
  ∀ i < cfg.chordBits, ∃ a, (w.chord.nodes n).fingerTable[i]? = some (some a) ∧
    Owns cfg ring a (cfg.fingerId n i)

/-! ## Owners -/

theorem Config.fingerId_lt (cfg : Config N) (n : Fin N) (i : Nat) :
    cfg.fingerId n i < 2 ^ cfg.chordBits :=
  Nat.mod_lt _ (Nat.two_pow_pos _)

section Owners

variable {w : World N V} {ring : List (Fin N)} {a b c s n : Fin N} {id : Nat}
  (hinj : Function.Injective cfg.hashKey) (hring : IdealRing cfg w ring) (hlen : 2 ≤ ring.length)

include hinj hring hlen

theorem IdealRing.owns_unique (hid : id < 2 ^ cfg.chordBits) (ha : Owns cfg ring a id)
    (hb : Owns cfg ring b id) : a = b := by
  obtain ⟨p, hpa, harc⟩ := ha
  obtain ⟨q, hqb, hbrc⟩ := hb
  obtain ⟨-, d, -, -, hunique⟩ := Circle.Sorted.exists_owner (C := cfg.circle hinj) hring.sorted hlen hid
  rw [hunique p a hpa harc, hunique q b hqb hbrc]

/-- Two different identifiers need a bit. -/
theorem IdealRing.chordBits_pos : 0 < cfg.chordBits := by
  obtain ⟨s, hs⟩ := Circle.exists_follows (l := ring) (List.getElem_mem (n := 0) (by omega))
  have hne := hinj.ne (hring.ne hinj hlen hs)
  have h1 := cfg.hashKey_lt ring[0]
  have h2 := cfg.hashKey_lt s
  by_contra hzero
  have hbits : cfg.chordBits = 0 := by omega
  rw [hbits] at h1 h2
  omega

/-- The first identifier behind a node lies before its successor. -/
theorem IdealRing.inArc_first (hns : Circle.Follows ring n s) :
    InArc (2 ^ cfg.chordBits) (cfg.hashKey n) (cfg.fingerId n 0) (cfg.hashKey s) := by
  have hbits := hring.chordBits_pos hinj hlen
  have hsize : 2 ≤ 2 ^ cfg.chordBits := Nat.le_self_pow (by omega) 2
  have hlt := cfg.hashKey_lt n
  have hone : cw (2 ^ cfg.chordBits) (cfg.hashKey n) (cfg.fingerId n 0) = 1 := by
    unfold Config.fingerId cw
    by_cases hwrap : cfg.hashKey n + 1 < 2 ^ cfg.chordBits
    · rw [pow_zero, Nat.mod_eq_of_lt hwrap, if_pos (by omega)]
      omega
    · have heq : cfg.hashKey n + 1 = 2 ^ cfg.chordBits := by omega
      rw [pow_zero, heq, Nat.mod_self, if_neg (by omega)]
      omega
  have hpos := cw_pos hlt (hinj.ne (hring.ne hinj hlen hns))
  unfold InArc
  omega

/-- A node between another one and the key does not own it. -/
theorem IdealRing.not_owns (hid : id < 2 ^ cfg.chordBits) (hc : c ∈ ring)
    (hbetween : between (cfg.hashKey a) (cfg.hashKey c) id = true) :
    ¬ Owns cfg ring a id ∧
      cw (2 ^ cfg.chordBits) (cfg.hashKey a) id < cw (2 ^ cfg.chordBits) (cfg.hashKey c) id := by
  rw [between_iff (cfg.hashKey_lt a) (cfg.hashKey_lt c) hid] at hbetween
  obtain ⟨hpos, hlt⟩ := hbetween
  constructor
  · rintro ⟨p, hpa, harc⟩
    exact hring.not_owner hinj hlen hid hc hpa hpos hlt harc
  · have htri := cw_triangle (c := id) (cfg.hashKey_lt c) (cfg.hashKey_lt a)
    have hbound := cw_lt (cfg.hashKey_lt a) hid
    omega

end Owners

/-! ## A hop through a table that is not filled yet -/

/-- The loop finds the node itself or one between it and the key. -/
theorem closestPrecedingNode_cases (cfg : Config N) (self : Fin N) (fingerTable : List (Option (Fin N)))
    (id i : Nat) (hi : i ≤ fingerTable.length) :
    ∃ a, closestPrecedingNode cfg self fingerTable id i = some a ∧
      (a = self ∨ between (cfg.hashKey a) (cfg.hashKey self) id = true) := by
  induction i with
  | zero => exact ⟨self, rfl, .inl rfl⟩
  | succ i ih =>
    have hload : load fingerTable i = some fingerTable[i] := List.getElem?_eq_getElem (by omega)
    unfold closestPrecedingNode
    rw [hload]
    cases fingerTable[i] with
    | none => exact ih (by omega)
    | some a =>
      simp only
      by_cases ha : between (cfg.hashKey a) (cfg.hashKey self) id = true
      · rw [if_pos ha]
        exact ⟨a, rfl, .inr ha⟩
      · rw [if_neg ha]
        exact ih (by omega)

/-- Where a node that does not own the key sends a lookup: the answer `b` is right if the table begins
with the successor, and a node `a` that is asked next is closer to the key. -/
inductive NextHop (cfg : Config N) (ring : List (Fin N)) (node : Node N V) (c : Fin N) (id : Nat) : Prop where
  | atSuccessor (s : Fin N) (hs : node.successor = some s)
      (hbetween : betweenRightInclude id (cfg.hashKey c) (cfg.hashKey s) = true) (howns : Owns cfg ring s id)
  | noFinger (s : Fin N) (hs : node.successor = some s)
      (hbeyond : ¬ betweenRightInclude id (cfg.hashKey c) (cfg.hashKey s) = true)
      (hclosest : closestPrecedingNode cfg c node.fingerTable id cfg.chordBits = some c)
      (hfirst : node.fingerTable[0]? ≠ some node.successor)
  | ask (s a : Fin N) (hs : node.successor = some s)
      (hbeyond : ¬ betweenRightInclude id (cfg.hashKey c) (cfg.hashKey s) = true)
      (hclosest : closestPrecedingNode cfg c node.fingerTable id cfg.chordBits = some a) (hne : a ≠ c)
      (hnot : ¬ Owns cfg ring a id)
      (hcloser : cw (2 ^ cfg.chordBits) (cfg.hashKey a) id < cw (2 ^ cfg.chordBits) (cfg.hashKey c) id)

/-- A node that does not own the identifier sends what `findSuccessor` comes to. -/
theorem callback_eq {self : Fin N} {node : Node N V} {id : Nat} (howns : ownsKey cfg self node id = false)
    (hloop : node.successor ≠ some self) (source : Fin N) :
    chordFindSuccessorCallback cfg self node source id =
      match findSuccessor cfg self node id with
      | .found addr => [(source, .findSuccessorReply addr id)]
      | .remote nStar => [(nStar, .findSuccessor source id)]
      | .error => [] := by
  unfold chordFindSuccessorCallback findSuccessor
  simp only [hloop, howns, if_false, Bool.false_eq_true, List.nil_append]
  cases node.successor with
  | none => rfl
  | some s =>
    simp only
    by_cases hnear : betweenRightInclude id (cfg.hashKey self) (cfg.hashKey s) = true
    · simp only [hnear, if_true]
    · simp only [hnear, Bool.false_eq_true, if_false]
      cases closestPrecedingNode cfg self node.fingerTable id cfg.chordBits with
      | none => rfl
      | some a =>
        simp only
        split_ifs <;> rfl

section Hops

variable {w : World N V} {ring : List (Fin N)} {c : Fin N} {id : Nat}
  (hinj : Function.Injective cfg.hashKey) (hring : IdealRing cfg w ring) (hlen : 2 ≤ ring.length)
  (hall : ∀ n, n ∈ ring) (htable : (w.nodes c).fingerTable.length = cfg.chordBits)
  (hid : id < 2 ^ cfg.chordBits)

include hinj hring hlen hall

theorem IdealRing.ownsKey_iff_owns (hid : id < 2 ^ cfg.chordBits) :
    ownsKey cfg c (w.nodes c) id = true ↔ Owns cfg ring c id := by
  obtain ⟨p, hpc⟩ := Circle.exists_followed (hall c)
  constructor
  · intro h
    exact ⟨p, hpc, (hring.ownsKey_iff hinj hlen hid hpc).mp h⟩
  · rintro ⟨q, hqc, harc⟩
    exact (hring.ownsKey_iff hinj hlen hid hqc).mpr harc

include htable hid

theorem IdealRing.nextHop (hself : ¬ Owns cfg ring c id) : NextHop cfg ring (w.nodes c) c id := by
  obtain ⟨p, hpc⟩ := Circle.exists_followed (hall c)
  obtain ⟨s, hcs⟩ := Circle.exists_follows (hall c)
  have hs := hring.successor c s hcs
  by_cases hsucc : InArc (2 ^ cfg.chordBits) (cfg.hashKey c) id (cfg.hashKey s)
  · exact .atSuccessor s hs ((hring.atSuccessor_iff hinj hlen hid hcs).mpr hsucc) ⟨c, hcs, hsucc⟩
  · have hbeyond : ¬ betweenRightInclude id (cfg.hashKey c) (cfg.hashKey s) = true := by
      rwa [hring.atSuccessor_iff hinj hlen hid hcs]
    obtain ⟨a, hclosest, ha⟩ :=
      closestPrecedingNode_cases cfg c (w.nodes c).fingerTable id cfg.chordBits htable.ge
    by_cases hac : a = c
    · subst hac
      refine .noFinger s hs hbeyond hclosest ?_
      intro hfirst
      have hfingers : FingersOk cfg (w.nodes a) ring := ⟨htable, hfirst, fun b _ => hall b⟩
      obtain ⟨b, -, hne, hb, -⟩ := hring.hop hinj hlen hid hfingers hpc hcs (fun h => hself ⟨p, hpc, h⟩) hsucc
      rw [hclosest] at hb
      exact hne (Option.some.inj hb).symm
    · obtain ⟨hnot, hcloser⟩ := hring.not_owns hinj hlen hid (hall c) (ha.resolve_left hac)
      exact .ask s a hs hbeyond hclosest hac hnot hcloser

/-- A node that does not own the key knows a node that is closer, or the owner. -/
theorem IdealRing.findSuccessor_of_not_owns (hself : ¬ Owns cfg ring c id) :
    (∃ b, findSuccessor cfg c (w.nodes c) id = .found b ∧
      ((w.nodes c).fingerTable[0]? = some (w.nodes c).successor → Owns cfg ring b id)) ∨
    ∃ a, findSuccessor cfg c (w.nodes c) id = .remote a ∧ ¬ Owns cfg ring a id ∧
      cw (2 ^ cfg.chordBits) (cfg.hashKey a) id < cw (2 ^ cfg.chordBits) (cfg.hashKey c) id := by
  unfold findSuccessor
  rw [if_neg (by rwa [hring.ownsKey_iff_owns hinj hlen hall hid])]
  cases hring.nextHop hinj hlen hall htable hid hself with
  | atSuccessor s hs hbetween howns =>
    simp only [hs, hbetween, if_true]
    exact .inl ⟨s, rfl, fun _ => howns⟩
  | noFinger s hs hbeyond hclosest hfirst =>
    rw [hs] at hfirst
    simp only [hs, hbeyond, hclosest, if_true]
    exact .inl ⟨s, rfl, fun h => absurd h hfirst⟩
  | ask s a hs hbeyond hclosest hne hnot hcloser =>
    simp only [hs, hbeyond, hclosest, hne, if_false]
    exact .inr ⟨a, rfl, hnot, hcloser⟩

/-- A lookup is answered on the spot or goes to a node that does not own the key. -/
theorem IdealRing.findSuccessor_cases :
    (∃ b, findSuccessor cfg c (w.nodes c) id = .found b ∧
      ((w.nodes c).fingerTable[0]? = some (w.nodes c).successor → Owns cfg ring b id)) ∨
    ∃ a, findSuccessor cfg c (w.nodes c) id = .remote a ∧ ¬ Owns cfg ring a id := by
  by_cases hself : Owns cfg ring c id
  · refine .inl ⟨c, ?_, fun _ => hself⟩
    rw [findSuccessor, if_pos ((hring.ownsKey_iff_owns hinj hlen hall hid).mpr hself)]
  · obtain hfound | ⟨a, hremote, hnot, -⟩ := hring.findSuccessor_of_not_owns hinj hlen hall htable hid hself
    · exact .inl hfound
    · exact .inr ⟨a, hremote, hnot⟩

/-- A node that does not own the key passes a request on in one message. -/
theorem IdealRing.callback_cases (hself : ¬ Owns cfg ring c id) (source : Fin N) :
    (∃ b, chordFindSuccessorCallback cfg c (w.nodes c) source id = [(source, .findSuccessorReply b id)] ∧
      ((w.nodes c).fingerTable[0]? = some (w.nodes c).successor → Owns cfg ring b id)) ∨
    ∃ a, chordFindSuccessorCallback cfg c (w.nodes c) source id = [(a, .findSuccessor source id)] ∧
      ¬ Owns cfg ring a id ∧
      cw (2 ^ cfg.chordBits) (cfg.hashKey a) id < cw (2 ^ cfg.chordBits) (cfg.hashKey c) id := by
  have hloop : (w.nodes c).successor ≠ some c := by
    obtain ⟨s, hcs⟩ := Circle.exists_follows (hall c)
    rw [hring.successor c s hcs]
    intro heq
    exact hring.ne hinj hlen hcs (Option.some.inj heq).symm
  have howns : ownsKey cfg c (w.nodes c) id = false := by
    rwa [← Bool.not_eq_true, hring.ownsKey_iff_owns hinj hlen hall hid]
  rw [callback_eq howns hloop]
  obtain ⟨b, hfound, howner⟩ | ⟨a, hremote, hnot⟩ :=
    hring.findSuccessor_of_not_owns hinj hlen hall htable hid hself
  · rw [hfound]
    exact .inl ⟨b, rfl, howner⟩
  · rw [hremote]
    exact .inr ⟨a, rfl, hnot⟩

end Hops

/-- A step that keeps a field of the node that it changes keeps it in all nodes. -/
theorem update_proj {β : Type} (f : Node N V → β) {nodes : Fin N → Node N V} {n : Fin N} {node : Node N V}
    (h : f node = f (nodes n)) (c : Fin N) : f (Function.update nodes n node c) = f (nodes c) := by
  by_cases hc : c = n
  · subst hc
    rw [Function.update_self, h]
  · rw [Function.update_of_ne hc]

/-! ## The table of one node -/

/-- A table and what the calls of its node have written into it, in a cycle over the entries. `late` are
the calls that must have written the owner. -/
structure Fixed (cfg : Config N) (ring : List (Fin N)) (late : Nat → Prop) (n : Fin N)
    (fingerTable : List (Option (Fin N))) (successor : Option (Fin N)) (fixPointer : Nat)
    (wrote : List (Nat × Fin N)) : Prop where
  length : fingerTable.length = cfg.chordBits
  pointer : fixPointer = wrote.length % cfg.chordBits
  first : ∀ a, fingerTable[0]? = some (some a) → successor = some a
  written : wrote ≠ [] → fingerTable[0]? = some successor
  cycle : ∀ k i a, wrote[k]? = some (i, a) → i = k % cfg.chordBits
  recent : ∀ k i a, wrote[k]? = some (i, a) → wrote.length ≤ k + cfg.chordBits →
    fingerTable[i]? = some (some a)
  owners : ∀ k i a, late k → wrote[k]? = some (i, a) → Owns cfg ring a (cfg.fingerId n i)

section Fixed

variable {ring : List (Fin N)} {late late' : Nat → Prop} {n : Fin N} {fingerTable : List (Option (Fin N))}
  {successor : Option (Fin N)} {fixPointer : Nat} {wrote : List (Nat × Fin N)}

theorem Fixed.empty (hbits : 0 < cfg.chordBits) (n : Fin N) (successor : Option (Fin N)) :
    Fixed cfg ring (fun _ => False) n (List.replicate cfg.chordBits none) successor 0 [] where
  length := List.length_replicate
  pointer := (Nat.zero_mod _).symm
  first := by
    intro a h
    rw [List.getElem?_replicate, if_pos hbits] at h
    cases h
  written := fun h => absurd rfl h
  cycle := by simp
  recent := by simp
  owners := by simp

/-- Nothing that has been written so far needs to be right. -/
theorem Fixed.restart (h : Fixed cfg ring late n fingerTable successor fixPointer wrote)
    (hlate : ∀ k, late' k → wrote.length ≤ k) :
    Fixed cfg ring late' n fingerTable successor fixPointer wrote where
  length := h.length
  pointer := h.pointer
  first := h.first
  written := h.written
  cycle := h.cycle
  recent := h.recent
  owners := by
    intro k i a hk hget
    have hlt := (List.getElem?_eq_some_iff.mp hget).1
    have hle := hlate k hk
    omega

theorem Fixed.pointer_lt (hbits : 0 < cfg.chordBits)
    (h : Fixed cfg ring late n fingerTable successor fixPointer wrote) : fixPointer < cfg.chordBits := by
  rw [h.pointer]
  exact Nat.mod_lt _ hbits

/-- In a list with one more entry, an entry is an old one or the new one. -/
theorem getElem?_snoc_cases {α : Type} {l : List α} {x y : α} {k : Nat} (h : (l ++ [x])[k]? = some y) :
    (k < l.length ∧ l[k]? = some y) ∨ (k = l.length ∧ x = y) := by
  rcases lt_trichotomy k l.length with hlt | heq | hgt
  · rw [List.getElem?_append_left hlt] at h
    exact .inl ⟨hlt, h⟩
  · subst heq
    simp only [List.getElem?_concat_length, Option.some.injEq] at h
    exact .inr ⟨rfl, h⟩
  · rw [List.getElem?_eq_none (by simp; omega)] at h
    cases h

/-- One more call, with an answer that is the successor for the first entry. -/
theorem Fixed.write (hbits : 0 < cfg.chordBits)
    (h : Fixed cfg ring late n fingerTable successor fixPointer wrote) {addr : Fin N}
    (hfirst : fixPointer = 0 → successor = some addr)
    (hlate : late wrote.length → Owns cfg ring addr (cfg.fingerId n fixPointer)) :
    Fixed cfg ring late n (fingerTable.set fixPointer (some addr)) successor
      ((fixPointer + 1) % cfg.chordBits) (wrote ++ [(fixPointer, addr)]) := by
  have hlt := h.pointer_lt hbits
  have hin : fixPointer < fingerTable.length := h.length ▸ hlt
  refine ⟨?_, ?_, ?_, ?_, ?_, ?_, ?_⟩
  · rw [List.length_set, h.length]
  · rw [List.length_append, List.length_singleton, h.pointer, Nat.mod_add_mod]
  · intro a ha
    by_cases hzero : fixPointer = 0
    · rw [hzero, List.getElem?_set_self (by omega)] at ha
      rw [hfirst hzero, Option.some.inj ha]
    · rw [List.getElem?_set_ne hzero] at ha
      exact h.first a ha
  · intro _
    by_cases hzero : fixPointer = 0
    · rw [hzero, List.getElem?_set_self (by omega), hfirst hzero]
    · rw [List.getElem?_set_ne hzero]
      refine h.written ?_
      rintro rfl
      exact hzero (by rw [h.pointer, List.length_nil, Nat.zero_mod])
  · intro k i a hget
    rcases getElem?_snoc_cases hget with ⟨-, hold⟩ | ⟨rfl, heq⟩
    · exact h.cycle k i a hold
    · cases heq
      exact h.pointer
  · intro k i a hget hrecent
    rw [List.length_append, List.length_singleton] at hrecent
    rcases getElem?_snoc_cases hget with ⟨hk, hold⟩ | ⟨rfl, heq⟩
    · -- the entry comes round again only after all the others
      have hne : fixPointer ≠ i := by
        rw [h.pointer, h.cycle k i a hold]
        intro heq
        have hdvd := Nat.dvd_of_mod_eq_zero (Nat.sub_mod_eq_zero_of_mod_eq heq)
        have := Nat.le_of_dvd (by omega) hdvd
        omega
      rw [List.getElem?_set_ne hne]
      exact h.recent k i a hold (by omega)
    · cases heq
      exact List.getElem?_set_self hin
  · intro k i a hk hget
    rcases getElem?_snoc_cases hget with ⟨-, hold⟩ | ⟨rfl, heq⟩
    · exact h.owners k i a hk hold
    · cases heq
      exact hlate hk

/-- After a whole cycle of late calls the table is exact. -/
theorem Fixed.exact (hbits : 0 < cfg.chordBits)
    (h : Fixed cfg ring late n fingerTable successor fixPointer wrote) (start : Nat)
    (hlate : ∀ k, start ≤ k → late k) (hcycle : start + cfg.chordBits ≤ wrote.length) (i : Nat)
    (hi : i < cfg.chordBits) :
    ∃ a, fingerTable[i]? = some (some a) ∧ Owns cfg ring a (cfg.fingerId n i) := by
  -- the last call for entry `i`
  let back := (wrote.length - 1 - i) % cfg.chordBits
  have hback : back < cfg.chordBits := Nat.mod_lt _ hbits
  have hk : wrote.length - 1 - back < wrote.length := by omega
  obtain ⟨⟨j, a⟩, hget⟩ : ∃ e, wrote[wrote.length - 1 - back]? = some e := ⟨_, List.getElem?_eq_getElem hk⟩
  have hj : j = i := by
    rw [h.cycle _ j a hget]
    have hdiv := Nat.div_add_mod (wrote.length - 1 - i) cfg.chordBits
    have heq : wrote.length - 1 - back = i + cfg.chordBits * ((wrote.length - 1 - i) / cfg.chordBits) := by
      simp only [back]
      omega
    rw [heq, Nat.add_mul_mod_self_left, Nat.mod_eq_of_lt hi]
  subst hj
  refine ⟨a, h.recent _ j a hget (by omega), h.owners _ j a (hlate _ ?_) hget⟩
  omega

end Fixed

end MarketPeer.Chord

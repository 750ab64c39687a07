import Mathlib.Data.Fin.VecNotation
import MarketPeer.Chord.Intervals

/-!
# Lookups in the ideal ring

Each hop of a lookup comes closer to the key without passing the node that owns it,
whatever the finger tables hold beyond their first entry.
-/

namespace MarketPeer.Chord

open MarketPeer.Ring

variable {N : Nat} {V : Type} {cfg : Config N}

theorem Config.hashKey_lt (cfg : Config N) (addr : Fin N) : cfg.hashKey addr < 2 ^ cfg.chordBits :=
  Nat.mod_lt _ (Nat.two_pow_pos _)

/-- The nodes on the circle of identifiers. -/
def Config.circle (cfg : Config N) (hinj : Function.Injective cfg.hashKey) : Circle (Fin N) where
  size := 2 ^ cfg.chordBits
  pos := cfg.hashKey
  pos_lt := cfg.hashKey_lt
  pos_injective := hinj

/-! ## The ideal ring -/

/-- The nodes of `ring`, in the order of their identifiers, point to their neighbours. -/
structure IdealRing (cfg : Config N) (w : World N V) (ring : List (Fin N)) : Prop where
  sorted : ring.Pairwise fun a b => cfg.hashKey a < cfg.hashKey b
  successor : ∀ a b, Circle.Follows ring a b → (w.nodes a).successor = some b
  predecessor : ∀ a b, Circle.Follows ring a b → (w.nodes b).predecessor = some a

/-- The first entry is the successor, every other one is empty or a node of the ring. -/
structure FingersOk (cfg : Config N) (node : Node N V) (ring : List (Fin N)) : Prop where
  length : node.fingerTable.length = cfg.chordBits
  first : node.fingerTable[0]? = some node.successor
  members : ∀ a, some a ∈ node.fingerTable → a ∈ ring

/-- `FindSuccessorRemote` waits for its reply while the packets are delivered. -/
def awaitReply (cfg : Config N) (n : Fin N) (id : Nat) : Nat → World N V → Option (Fin N)
  | 0, _ => none
  | fuel + 1, w =>
    match (w.nodes n).findSuccessorCh id with
    | some (addr :: _) => some addr
    | _ => (step cfg w (.deliver 0)).bind (awaitReply cfg n id fuel)

/-- The whole of `findSuccessor`, with `fuel` for the packets that its lookup takes. -/
def lookup (cfg : Config N) (w : World N V) (n : Fin N) (id fuel : Nat) : Option (Fin N) :=
  match findSuccessor cfg n (w.nodes n) id with
  | .found addr => some addr
  | .remote nStar => (step cfg w (.request n nStar id)).bind (awaitReply cfg n id fuel)
  | .error => none

/-- Nothing but the lookup is going on. -/
structure Idle (w : World N V) : Prop where
  net : w.net = []
  unlocked : ∀ n, (w.nodes n).chMutexHeld = false
  unread : ∀ n id, ((w.nodes n).findSuccessorCh id).getD [] = []
  deleting : ∀ n, (w.nodes n).deleting = none

/-! ## One hop -/

/-- If the successor precedes the key, so does the finger that is taken. -/
theorem closestPrecedingNode_spec {self s : Fin N} {fingerTable : List (Option (Fin N))} {id : Nat}
    (hfirst : fingerTable[0]? = some (some s))
    (hs : between (cfg.hashKey s) (cfg.hashKey self) id = true) (i : Nat) (hpos : 0 < i)
    (hi : i ≤ fingerTable.length) :
    ∃ a, closestPrecedingNode cfg self fingerTable id i = some a ∧ some a ∈ fingerTable ∧
      between (cfg.hashKey a) (cfg.hashKey self) id = true := by
  induction i with
  | zero => omega
  | succ i ih =>
    have hload : load fingerTable i = some fingerTable[i] := List.getElem?_eq_getElem (by omega)
    unfold closestPrecedingNode
    rw [hload]
    by_cases hzero : i = 0
    · subst hzero
      have hs' : fingerTable[0] = some s := by
        rw [List.getElem?_eq_getElem (by omega)] at hfirst
        exact Option.some.inj hfirst
      simp only [hs', hs, if_true]
      refine ⟨s, rfl, ?_, hs⟩
      rw [← hs']
      exact List.getElem_mem _
    · cases hentry : fingerTable[i] with
      | none => exact ih (by omega) (by omega)
      | some a =>
        simp only
        by_cases ha : between (cfg.hashKey a) (cfg.hashKey self) id = true
        · rw [if_pos ha]
          refine ⟨a, rfl, ?_, ha⟩
          rw [← hentry]
          exact List.getElem_mem _
        · rw [if_neg ha]
          exact ih (by omega) (by omega)

section Hop

variable {w : World N V} {ring : List (Fin N)} {p c s a : Fin N} {id : Nat}
  (hinj : Function.Injective cfg.hashKey) (hring : IdealRing cfg w ring) (hlen : 2 ≤ ring.length)
  (hid : id < 2 ^ cfg.chordBits)

include hinj hring hlen

theorem IdealRing.ne (h : Circle.Follows ring p c) : p ≠ c :=
  Circle.Sorted.follows_ne (C := cfg.circle hinj) hring.sorted hlen h

/-- The predecessor of a node in the ring has the identifier in front. -/
theorem IdealRing.cyclicPred_eq (h : Circle.Follows ring p c) :
    cyclicPred (ring.toFinset.image cfg.hashKey) (cfg.hashKey c) = cfg.hashKey p :=
  Circle.Sorted.cyclicPred_eq (C := cfg.circle hinj) hring.sorted hlen h

include hid

theorem IdealRing.ownsKey_iff (h : Circle.Follows ring p c) :
    ownsKey cfg c (w.nodes c) id = true ↔ InArc (2 ^ cfg.chordBits) (cfg.hashKey p) id (cfg.hashKey c) := by
  have hne : cfg.hashKey p ≠ cfg.hashKey c := hinj.ne (hring.ne hinj hlen h)
  unfold ownsKey
  rw [hring.predecessor p c h, Option.any_some, Bool.or_eq_true, beq_iff_eq,
    betweenRightInclude_iff hid (cfg.hashKey_lt p) (cfg.hashKey_lt c) hne]
  constructor
  · rintro (rfl | h)
    · exact ⟨cw_pos (cfg.hashKey_lt p) hne, le_rfl⟩
    · exact h
  · exact .inr

/-- In an ideal ring exactly one node owns the key. -/
theorem IdealRing.exists_unique_owner : ∃! n, n ∈ ring ∧ ownsKey cfg n (w.nodes n) id = true := by
  let ids := ring.toFinset.image cfg.hashKey
  have howns : ∀ n ∈ ring, ownsKey cfg n (w.nodes n) id = true ↔
      InArc (2 ^ cfg.chordBits) (cyclicPred ids (cfg.hashKey n)) id (cfg.hashKey n) := by
    intro n hn
    obtain ⟨p, hpn⟩ := Circle.exists_followed hn
    rw [hring.ownsKey_iff hinj hlen hid hpn, hring.cyclicPred_eq hinj hlen hpn]
  have hids : ∀ {n}, n ∈ ring → cfg.hashKey n ∈ ids :=
    fun hn => Finset.mem_image_of_mem _ (List.mem_toFinset.mpr hn)
  have htwo : 2 ≤ ids.card := by
    obtain ⟨p, hp⟩ := Circle.exists_followed (l := ring) (List.getElem_mem (n := 0) (by omega))
    exact Finset.one_lt_card.mpr ⟨_, hids hp.mem_left, _, hids hp.mem_right, hinj.ne (hring.ne hinj hlen hp)⟩
  obtain ⟨_, ⟨hmem, harc⟩, hunique⟩ := exists_unique_arc (by simp [ids, cfg.hashKey_lt]) htwo hid
  obtain ⟨n, hn, rfl⟩ := Finset.mem_image.mp hmem
  rw [List.mem_toFinset] at hn
  refine ⟨n, ⟨hn, (howns n hn).mpr harc⟩, ?_⟩
  rintro n' ⟨hn', hown⟩
  exact hinj (hunique _ ⟨hids hn', (howns n' hn').mp hown⟩)

theorem IdealRing.atSuccessor_iff (h : Circle.Follows ring c s) :
    betweenRightInclude id (cfg.hashKey c) (cfg.hashKey s) = true ↔
      InArc (2 ^ cfg.chordBits) (cfg.hashKey c) id (cfg.hashKey s) :=
  betweenRightInclude_iff hid (cfg.hashKey_lt c) (cfg.hashKey_lt s) (hinj.ne (hring.ne hinj hlen h))

/-- A node that neither owns the key nor precedes its owner knows one that is closer. -/
theorem IdealRing.hop (hfingers : FingersOk cfg (w.nodes c) ring) (hpc : Circle.Follows ring p c)
    (hcs : Circle.Follows ring c s)
    (hself : ¬ InArc (2 ^ cfg.chordBits) (cfg.hashKey p) id (cfg.hashKey c))
    (hsucc : ¬ InArc (2 ^ cfg.chordBits) (cfg.hashKey c) id (cfg.hashKey s)) :
    ∃ a ∈ ring, a ≠ c ∧
      closestPrecedingNode cfg c (w.nodes c).fingerTable id cfg.chordBits = some a ∧
      0 < cw (2 ^ cfg.chordBits) (cfg.hashKey c) (cfg.hashKey a) ∧
      cw (2 ^ cfg.chordBits) (cfg.hashKey c) (cfg.hashKey a) < cw (2 ^ cfg.chordBits) (cfg.hashKey c) id := by
  have hcne : cfg.hashKey c ≠ id := by
    rintro rfl
    exact hself ⟨cw_pos (cfg.hashKey_lt p) (hinj.ne (hring.ne hinj hlen hpc)), le_rfl⟩
  have hspos := cw_pos (cfg.hashKey_lt c) (hinj.ne (hring.ne hinj hlen hcs))
  have hidpos := cw_pos (cfg.hashKey_lt c) hcne
  have hs : between (cfg.hashKey s) (cfg.hashKey c) id = true := by
    rw [between_iff (cfg.hashKey_lt s) (cfg.hashKey_lt c) hid]
    unfold InArc at hsucc
    omega
  have hfirst := hfingers.first
  rw [hring.successor c s hcs] at hfirst
  have hbits : 0 < cfg.chordBits := by
    obtain ⟨hzero, -⟩ := List.getElem?_eq_some_iff.mp hfirst
    rwa [hfingers.length] at hzero
  obtain ⟨a, ha, hmem, hbetween⟩ :=
    closestPrecedingNode_spec hfirst hs cfg.chordBits hbits hfingers.length.ge
  rw [between_iff (cfg.hashKey_lt a) (cfg.hashKey_lt c) hid] at hbetween
  refine ⟨a, hfingers.members a hmem, ?_, ha, hbetween⟩
  rintro rfl
  rw [cw_self] at hbetween
  omega

/-- A node before the key does not own it. -/
theorem IdealRing.not_owner (hc : c ∈ ring) (hpa : Circle.Follows ring p a)
    (hpos : 0 < cw (2 ^ cfg.chordBits) (cfg.hashKey c) (cfg.hashKey a))
    (hlt : cw (2 ^ cfg.chordBits) (cfg.hashKey c) (cfg.hashKey a) < cw (2 ^ cfg.chordBits) (cfg.hashKey c) id) :
    ¬ InArc (2 ^ cfg.chordBits) (cfg.hashKey p) id (cfg.hashKey a) := by
  intro harc
  have hmin := (Circle.Sorted.inArc_iff (C := cfg.circle hinj) hring.sorted hlen hpa hid).mp harc c hc
  change cw (2 ^ cfg.chordBits) id (cfg.hashKey a) ≤ cw (2 ^ cfg.chordBits) id (cfg.hashKey c) at hmin
  have h1 := cw_triangle (c := cfg.hashKey a) (cfg.hashKey_lt c) hid
  have h2 := cw_triangle (c := cfg.hashKey c) (cfg.hashKey_lt c) hid
  rw [cw_self] at h2
  omega

end Hop

/-! ## The whole lookup -/

/-- Node `n` waits for the successor of `id`. -/
structure Waiting (cfg : Config N) (w : World N V) (ring : List (Fin N)) (n : Fin N) (id : Nat) : Prop where
  ideal : IdealRing cfg w ring
  fingers : ∀ c ∈ ring, FingersOk cfg (w.nodes c) ring
  deleting : ∀ c, (w.nodes c).deleting = none
  unlocked : (w.nodes n).chMutexHeld = false
  channel : (w.nodes n).findSuccessorCh id = some []

section Whole

variable {w : World N V} {ring : List (Fin N)} {n a b x : Fin N} {id : Nat}

/-- Packets change nothing else. -/
theorem Waiting.withNet (h : Waiting cfg w ring n id) (net : List (Packet N V)) :
    Waiting cfg { w with net } ring n id where
  ideal := ⟨h.ideal.sorted, h.ideal.successor, h.ideal.predecessor⟩
  fingers := h.fingers
  deleting := h.deleting
  unlocked := h.unlocked
  channel := h.channel

theorem deliver_request (hnet : w.net = [⟨x, a, .findSuccessor n id⟩])
    (hdel : (w.nodes a).deleting = none) :
    step cfg w (.deliver 0) =
      some { w with net := (chordFindSuccessorCallback cfg a (w.nodes a) n id).map fun s => ⟨a, s.1, s.2⟩ } := by
  simp [step, deliver, hnet, hdel, processPacket, World.commit]

theorem Waiting.awaitReply_reply (h : Waiting cfg w ring n id)
    (hnet : w.net = [⟨x, n, .findSuccessorReply b id⟩]) (fuel : Nat) :
    awaitReply cfg n id (fuel + 2) w = some b := by
  have hstep : (step cfg w (.deliver 0)).map (fun w => (w.nodes n).findSuccessorCh id) = some (some [b]) := by
    simp [step, deliver, hnet, h.deleting, processPacket, chordFindSuccessorReplyCallback, h.unlocked,
      h.channel, World.commit]
  obtain ⟨w', hw', hch⟩ := Option.map_eq_some_iff.mp hstep
  simp only [awaitReply, h.channel, hw', Option.bind_some, hch]

theorem Waiting.awaitReply_request (hinj : Function.Injective cfg.hashKey) (hlen : 2 ≤ ring.length)
    (hid : id < 2 ^ cfg.chordBits) (h : Waiting cfg w ring n id) (ha : a ∈ ring)
    (hnet : w.net = [⟨x, a, .findSuccessor n id⟩])
    (hnot : ∀ p, Circle.Follows ring p a → ¬ InArc (2 ^ cfg.chordBits) (cfg.hashKey p) id (cfg.hashKey a))
    (fuel : Nat) (hfuel : cw (2 ^ cfg.chordBits) (cfg.hashKey a) id + 3 ≤ fuel) :
    ∃ c b, Circle.Follows ring c b ∧ InArc (2 ^ cfg.chordBits) (cfg.hashKey c) id (cfg.hashKey b) ∧
      awaitReply cfg n id fuel w = some b := by
  -- the distance from the node that is asked to the key goes down with every hop
  induction fuel generalizing w a x with
  | zero => omega
  | succ fuel ih =>
    obtain ⟨p, hpa⟩ := Circle.exists_followed ha
    obtain ⟨s, has⟩ := Circle.exists_follows ha
    have hself : ¬ ownsKey cfg a (w.nodes a) id = true := by
      rw [h.ideal.ownsKey_iff hinj hlen hid hpa]
      exact hnot p hpa
    have hloop : (w.nodes a).successor ≠ some a := by
      rw [h.ideal.successor a s has]
      intro heq
      exact h.ideal.ne hinj hlen has (Option.some.inj heq).symm
    simp only [awaitReply, h.channel, deliver_request hnet (h.deleting a), Option.bind_some]
    unfold chordFindSuccessorCallback
    rw [if_neg hloop, if_neg hself, h.ideal.successor a s has, List.nil_append]
    by_cases hsucc : InArc (2 ^ cfg.chordBits) (cfg.hashKey a) id (cfg.hashKey s)
    · simp only [(h.ideal.atSuccessor_iff hinj hlen hid has).mpr hsucc, if_true, List.map_cons, List.map_nil]
      refine ⟨a, s, has, hsucc, ?_⟩
      obtain ⟨fuel, rfl⟩ : ∃ f, fuel = f + 2 := ⟨fuel - 2, by omega⟩
      exact (h.withNet _).awaitReply_reply rfl fuel
    · obtain ⟨nStar, hmem, hne, hclosest, hpos, hlt⟩ :=
        h.ideal.hop hinj hlen hid (h.fingers a ha) hpa has (hnot p hpa) hsucc
      have hbeyond : ¬ betweenRightInclude id (cfg.hashKey a) (cfg.hashKey s) = true := by
        rwa [h.ideal.atSuccessor_iff hinj hlen hid has]
      simp only [hbeyond, Bool.false_eq_true, hclosest, hne, if_false]
      apply ih (h.withNet _) hmem rfl
      · intro q hq
        exact h.ideal.not_owner hinj hlen hid ha hq hpos hlt
      · have htri := cw_triangle (c := id) (cfg.hashKey_lt a) (cfg.hashKey_lt nStar)
        have hbound := cw_lt (cfg.hashKey_lt nStar) hid
        omega

/-- After the request the asking node waits, and all pointers are as before. -/
theorem Idle.request (hidle : Idle w) (hring : IdealRing cfg w ring)
    (hfingers : ∀ c ∈ ring, FingersOk cfg (w.nodes c) ring) (n nStar : Fin N) (id : Nat) :
    ∃ w', step cfg w (.request n nStar id) = some w' ∧ Waiting cfg w' ring n id ∧
      w'.net = [⟨n, nStar, .findSuccessor n id⟩] := by
  have hsame : ∀ c, ∃ ch, Function.update w.nodes n
      { w.nodes n with findSuccessorCh := Function.update (w.nodes n).findSuccessorCh id (some []) } c =
      { w.nodes c with findSuccessorCh := ch } := by
    intro c
    by_cases hc : c = n
    · subst hc
      exact ⟨_, Function.update_self ..⟩
    · exact ⟨_, Function.update_of_ne hc _ _⟩
  have heq : findSuccessorRemote n (w.nodes n) nStar id = some
      { node := { w.nodes n with findSuccessorCh := Function.update (w.nodes n).findSuccessorCh id (some []) }
        sends := [(nStar, .findSuccessor n id)] } := by
    unfold findSuccessorRemote
    rw [if_neg (by simp [hidle.unlocked]), hidle.unread]
  refine ⟨_, by rw [step, heq, Option.map_some], ?_, ?_⟩
  · refine ⟨⟨hring.sorted, ?_, ?_⟩, ?_, ?_, ?_, ?_⟩
    · intro a b hab
      obtain ⟨ch, hch⟩ := hsame a
      simpa only [World.commit, hch] using hring.successor a b hab
    · intro a b hab
      obtain ⟨ch, hch⟩ := hsame b
      simpa only [World.commit, hch] using hring.predecessor a b hab
    · intro c hc
      obtain ⟨ch, hch⟩ := hsame c
      simp only [World.commit, hch]
      exact ⟨(hfingers c hc).length, (hfingers c hc).first, (hfingers c hc).members⟩
    · intro c
      obtain ⟨ch, hch⟩ := hsame c
      simpa only [World.commit, hch] using hidle.deleting c
    · simp [World.commit, hidle.unlocked]
    · simp [World.commit]
  · simp [World.commit, hidle.net]

/-- In the ideal ring every lookup ends, at the one node that owns the key. -/
theorem lookup_finds_owner (hinj : Function.Injective cfg.hashKey) (hlen : 2 ≤ ring.length)
    (hring : IdealRing cfg w ring) (hfingers : ∀ c ∈ ring, FingersOk cfg (w.nodes c) ring)
    (hidle : Idle w) (hn : n ∈ ring) (hid : id < 2 ^ cfg.chordBits) :
    ∃ p b, Circle.Follows ring p b ∧ InArc (2 ^ cfg.chordBits) (cfg.hashKey p) id (cfg.hashKey b) ∧
      (∀ c d, Circle.Follows ring c d →
        InArc (2 ^ cfg.chordBits) (cfg.hashKey c) id (cfg.hashKey d) → d = b) ∧
      ∃ enough, ∀ fuel ≥ enough, lookup cfg w n id fuel = some b := by
  obtain ⟨p, b, hpb, harc, hunique⟩ :=
    Circle.Sorted.exists_owner (C := cfg.circle hinj) hring.sorted hlen hid
  refine ⟨p, b, hpb, harc, hunique, 2 ^ cfg.chordBits + 3, fun fuel hfuel => ?_⟩
  obtain ⟨q, hqn⟩ := Circle.exists_followed hn
  obtain ⟨s, hns⟩ := Circle.exists_follows hn
  unfold lookup findSuccessor
  by_cases hself : InArc (2 ^ cfg.chordBits) (cfg.hashKey q) id (cfg.hashKey n)
  · rw [if_pos ((hring.ownsKey_iff hinj hlen hid hqn).mpr hself), hunique q n hqn hself]
  · rw [if_neg (by rwa [hring.ownsKey_iff hinj hlen hid hqn]), hring.successor n s hns]
    by_cases hsucc : InArc (2 ^ cfg.chordBits) (cfg.hashKey n) id (cfg.hashKey s)
    · simp only [(hring.atSuccessor_iff hinj hlen hid hns).mpr hsucc, if_true]
      rw [hunique n s hns hsucc]
    · obtain ⟨nStar, hmem, hne, hclosest, hpos, hlt⟩ :=
        hring.hop hinj hlen hid (hfingers n hn) hqn hns hself hsucc
      have hbeyond : ¬ betweenRightInclude id (cfg.hashKey n) (cfg.hashKey s) = true := by
        rwa [hring.atSuccessor_iff hinj hlen hid hns]
      simp only [hbeyond, Bool.false_eq_true, hclosest, hne, if_false]
      obtain ⟨w', hstep, hwait, hnet⟩ := hidle.request hring hfingers n nStar id
      have hbound := cw_lt (cfg.hashKey_lt nStar) hid
      obtain ⟨c, d, hcd, hown, hreply⟩ := hwait.awaitReply_request hinj hlen hid hmem hnet
        (fun r hr => hring.not_owner hinj hlen hid hn hr hpos hlt) fuel (by omega)
      rw [hstep, Option.bind_some, hreply, hunique c d hcd hown]

end Whole

/-! ## Three nodes with stale fingers -/

/-- Three nodes with the identifiers 1, 3 and 6 below 8. -/
def sampleConfig : Config 3 := ⟨3, ![1, 3, 6]⟩

def sampleRing : World 3 Nat where
  nodes := fun n =>
    { NewChord sampleConfig Nat with
      successor := ![some 1, some 2, some 0] n
      predecessor := ![some 2, some 0, some 1] n
      fingerTable := ![[some 1, some 0, none], [some 2, none, some 2], [some 0, some 1, some 1]] n }
  net := []
  written := fun _ => none

/-- Node 1 does not know that key 0 belongs to node 0; node 2 does. -/
theorem sampleRing_lookup : lookup sampleConfig sampleRing 1 0 11 = some 0 ∧
    ∃ p b, Circle.Follows [0, 1, 2] p b ∧
      InArc (2 ^ 3) (sampleConfig.hashKey p) 0 (sampleConfig.hashKey b) ∧
      (∀ c d, Circle.Follows [0, 1, 2] c d →
        InArc (2 ^ 3) (sampleConfig.hashKey c) 0 (sampleConfig.hashKey d) → d = b) ∧
      ∃ enough, ∀ fuel ≥ enough, lookup sampleConfig sampleRing 1 0 fuel = some b := by
  have hring : IdealRing sampleConfig sampleRing [0, 1, 2] :=
    ⟨by decide, by decide, by decide⟩
  have hfingers : ∀ c ∈ [0, 1, 2], FingersOk sampleConfig (sampleRing.nodes c) [0, 1, 2] := by
    intro c _
    exact ⟨by revert c; decide, by revert c; decide, by revert c; decide⟩
  have hidle : Idle sampleRing := ⟨rfl, fun _ => rfl, fun _ _ => rfl, fun _ => rfl⟩
  exact ⟨by decide, lookup_finds_owner (by decide) (by decide) hring hfingers hidle (by decide) (by decide)⟩

end MarketPeer.Chord

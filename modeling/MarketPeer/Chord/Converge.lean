import MarketPeer.Chord.Fingers

/-!
# Finger tables converge

A call that waits has one packet on its way, or its reply in the channel, and nothing
else. So no answer goes to a later call, and a call that begins when all tables begin
with the successor gets the owner.
-/

namespace MarketPeer.Chord

open MarketPeer.Ring

variable {N : Nat} {V : Type} {cfg : Config N}

/-! ## The call of one node -/

/-- The node whose lookup a packet belongs to. -/
def Packet.asker (pkt : Packet N V) : Option (Fin N) :=
  match pkt.msg with
  | .findSuccessor source _ => some source
  | .findSuccessorReply _ _ => some pkt.destination
  | _ => none

def asking (net : List (Packet N V)) (n : Fin N) : List (Packet N V) :=
  net.filter fun pkt => pkt.asker == some n

/-- Where the lookup of a call is, with the packets of its node and the replies in its channel. -/
inductive Token (cfg : Config N) (ring : List (Fin N)) (late : Prop) (n : Fin N) (id : Nat) :
    List (Packet N V) → List (Fin N) → Prop
  | asked (src a : Fin N) (hnot : ¬ Owns cfg ring a id) :
      Token cfg ring late n id [⟨src, a, .findSuccessor n id⟩] []
  | answered (src b : Fin N) (hgood : late → Owns cfg ring b id) :
      Token cfg ring late n id [⟨src, n, .findSuccessorReply b id⟩] []
  | arrived (b : Fin N) (hgood : late → Owns cfg ring b id) : Token cfg ring late n id [] [b]

/-- A call that waits has one token, and its node no other packet or reply. -/
inductive FixCall (cfg : Config N) (ring : List (Fin N)) (late : Prop) (n : Fin N) (fixPointer : Nat)
    (ch : Nat → Option (List (Fin N))) (packets : List (Packet N V)) : Option Nat → Prop
  | resting (hpackets : packets = []) (hch : ∀ id, (ch id).getD [] = []) :
      FixCall cfg ring late n fixPointer ch packets none
  | waiting (id : Nat) (replies : List (Fin N)) (hid : id = cfg.fingerId n fixPointer)
      (hpointer : fixPointer ≠ 0) (hch : ch id = some replies) (hothers : ∀ id' ≠ id, (ch id').getD [] = [])
      (htoken : Token cfg ring late n id packets replies) : FixCall cfg ring late n fixPointer ch packets (some id)

/-- The pointers stay as they are, and only lookups are on their way. -/
structure Quiet (cfg : Config N) (ring : List (Fin N)) (w : World N V) : Prop where
  ideal : IdealRing cfg w ring
  deleting : ∀ n, (w.nodes n).deleting = none
  unlocked : ∀ n, (w.nodes n).chMutexHeld = false
  lookups : ∀ pkt ∈ w.net, pkt.asker ≠ none

def FixedAt (cfg : Config N) (ring : List (Fin N)) (late : Fin N → Nat → Prop) (w : FixWorld N V)
    (n : Fin N) : Prop :=
  Fixed cfg ring (late n) n (w.chord.nodes n).fingerTable (w.chord.nodes n).successor (w.fixPointer n) (w.wrote n)

def CallAt (cfg : Config N) (ring : List (Fin N)) (late : Fin N → Nat → Prop) (w : FixWorld N V)
    (n : Fin N) : Prop :=
  FixCall cfg ring (late n (w.wrote n).length) n (w.fixPointer n) (w.chord.nodes n).findSuccessorCh
    (asking w.chord.net n) (w.fixing n)

/-- Every table is what its calls have made of it, and every call has its token. -/
structure FixInv (cfg : Config N) (ring : List (Fin N)) (late : Fin N → Nat → Prop) (w : FixWorld N V) : Prop where
  quiet : Quiet cfg ring w.chord
  fixed : ∀ n, FixedAt cfg ring late w n
  calls : ∀ n, CallAt cfg ring late w n

section Packets

variable {net : List (Packet N V)} {n m : Fin N} {pkt : Packet N V} {k : Nat}

@[simp] theorem asker_request (src dest : Fin N) (id : Nat) :
    Packet.asker (N := N) (V := V) ⟨src, dest, .findSuccessor n id⟩ = some n := rfl

@[simp] theorem asker_reply (src b : Fin N) (id : Nat) :
    Packet.asker (N := N) (V := V) ⟨src, n, .findSuccessorReply b id⟩ = some n := rfl

theorem asking_append (net net' : List (Packet N V)) (n : Fin N) :
    asking (net ++ net') n = asking net n ++ asking net' n :=
  List.filter_append ..

theorem asking_own (h : pkt.asker = some n) : asking [pkt] n = [pkt] := by
  simp [asking, h]

theorem asking_other (h : pkt.asker = some n) (hm : m ≠ n) : asking [pkt] m = [] := by
  simp [asking, h, hm.symm]

/-- A packet that is taken out of the net is one packet fewer for its node. -/
theorem asking_eraseIdx (h : net[k]? = some pkt) (n : Fin N) :
    ∃ before after, asking net n = before ++ asking [pkt] n ++ after ∧
      asking (net.eraseIdx k) n = before ++ after := by
  obtain ⟨hk, rfl⟩ := List.getElem?_eq_some_iff.mp h
  refine ⟨asking (net.take k) n, asking (net.drop (k + 1)) n, ?_, ?_⟩
  · rw [← asking_append, ← asking_append, List.append_assoc, List.singleton_append,
      List.getElem_cons_drop, List.take_append_drop]
  · rw [List.eraseIdx_eq_take_drop_succ, asking_append]

theorem asking_eraseIdx_other (h : net[k]? = some pkt) (hasker : pkt.asker = some n) (hm : m ≠ n) :
    asking (net.eraseIdx k) m = asking net m := by
  obtain ⟨before, after, hnet, herase⟩ := asking_eraseIdx h m
  rw [hnet, herase, asking_other hasker hm, List.append_nil]

/-- The only packet of a node is the one that is delivered. -/
theorem asking_eraseIdx_own (h : net[k]? = some pkt) (hasker : pkt.asker = some n) {packets : List (Packet N V)}
    (hnet : asking net n = packets) (hlen : packets.length ≤ 1) :
    packets = [pkt] ∧ asking (net.eraseIdx k) n = [] := by
  obtain ⟨before, after, heq, herase⟩ := asking_eraseIdx h n
  rw [asking_own hasker, hnet] at heq
  have hcount := congrArg List.length heq
  simp only [List.length_append, List.length_singleton] at hcount
  have hbefore : before = [] := List.length_eq_zero_iff.mp (by omega)
  have hafter : after = [] := List.length_eq_zero_iff.mp (by omega)
  rw [herase, heq, hbefore, hafter]
  exact ⟨rfl, rfl⟩

theorem Token.length_le {ring : List (Fin N)} {late : Prop} {id : Nat} {packets : List (Packet N V)}
    {replies : List (Fin N)} (h : Token cfg ring late n id packets replies) : packets.length ≤ 1 := by
  cases h <;> simp

end Packets

/-! ## Steps -/

theorem Quiet.update {ring : List (Fin N)} {w : World N V} (h : Quiet cfg ring w) {n : Fin N} {node : Node N V}
    {net : List (Packet N V)} (hs : node.successor = (w.nodes n).successor)
    (hp : node.predecessor = (w.nodes n).predecessor) (hd : node.deleting = (w.nodes n).deleting)
    (hm : node.chMutexHeld = (w.nodes n).chMutexHeld) (hnet : ∀ pkt ∈ net, pkt.asker ≠ none) :
    Quiet cfg ring { w with nodes := Function.update w.nodes n node, net } where
  ideal := by
    refine ⟨h.ideal.sorted, ?_, ?_⟩
    · intro a b hab
      rw [update_proj (·.successor) hs]
      exact h.ideal.successor a b hab
    · intro a b hab
      rw [update_proj (·.predecessor) hp]
      exact h.ideal.predecessor a b hab
  deleting := by
    intro c
    rw [update_proj (·.deleting) hd]
    exact h.deleting c
  unlocked := by
    intro c
    rw [update_proj (·.chMutexHeld) hm]
    exact h.unlocked c
  lookups := hnet

section Steps

variable {ring : List (Fin N)} {late : Fin N → Nat → Prop} {w w' : FixWorld N V} {n : Fin N}
  (hinj : Function.Injective cfg.hashKey) (hlen : 2 ≤ ring.length) (hall : ∀ n, n ∈ ring)

/-- All that `FixInv` says of the other nodes when only node `n` is changed. -/
theorem CallAt.congr {m : Fin N} (h : CallAt cfg ring late w m) (hwrote : w'.wrote m = w.wrote m)
    (hpointer : w'.fixPointer m = w.fixPointer m)
    (hch : (w'.chord.nodes m).findSuccessorCh = (w.chord.nodes m).findSuccessorCh)
    (hnet : asking w'.chord.net m = asking w.chord.net m) (hfixing : w'.fixing m = w.fixing m) :
    CallAt cfg ring late w' m := by
  unfold CallAt
  rw [hwrote, hpointer, hch, hnet, hfixing]
  exact h

theorem FixedAt.congr {m : Fin N} (h : FixedAt cfg ring late w m) (hwrote : w'.wrote m = w.wrote m)
    (hpointer : w'.fixPointer m = w.fixPointer m)
    (hnode : ∃ ch, w'.chord.nodes m = { w.chord.nodes m with findSuccessorCh := ch }) :
    FixedAt cfg ring late w' m := by
  obtain ⟨ch, hnode⟩ := hnode
  unfold FixedAt
  rw [hwrote, hpointer, hnode]
  exact h

theorem FixedAt.pointer_lt_length (h : FixedAt cfg ring late w n) (hbits : 0 < cfg.chordBits) :
    w.fixPointer n < (w.chord.nodes n).fingerTable.length := by
  rw [Fixed.length h]
  exact Fixed.pointer_lt hbits h

theorem update_channels (nodes : Fin N → Node N V) (n m : Fin N) (ch : Nat → Option (List (Fin N))) :
    ∃ ch', Function.update nodes n { nodes n with findSuccessorCh := ch } m =
      { nodes m with findSuccessorCh := ch' } := by
  by_cases hm : m = n
  · subst hm
    exact ⟨ch, Function.update_self ..⟩
  · exact ⟨_, Function.update_of_ne hm _ _⟩

theorem FixWorld.finish_eq {addr : Fin N} (hlt : w.fixPointer n < (w.chord.nodes n).fingerTable.length) :
    w.finish cfg n addr =
      { chord := { w.chord with nodes := Function.update w.chord.nodes n { w.chord.nodes n with
          fingerTable := (w.chord.nodes n).fingerTable.set (w.fixPointer n) (some addr) } }
        fixPointer := Function.update w.fixPointer n ((w.fixPointer n + 1) % cfg.chordBits)
        fixing := Function.update w.fixing n none
        wrote := Function.update w.wrote n (w.wrote n ++ [(w.fixPointer n, addr)]) } := by
  unfold FixWorld.finish insert
  rw [if_pos hlt]

/-- The end of a call whose node has no packet or reply left. -/
theorem FixInv.finish (hbits : 0 < cfg.chordBits) {addr : Fin N} (hquiet : Quiet cfg ring w.chord)
    (hfixed : ∀ m, FixedAt cfg ring late w m) (hcalls : ∀ m ≠ n, CallAt cfg ring late w m)
    (hpackets : asking w.chord.net n = []) (hch : ∀ id, ((w.chord.nodes n).findSuccessorCh id).getD [] = [])
    (hfirst : w.fixPointer n = 0 → (w.chord.nodes n).successor = some addr)
    (hlate : late n (w.wrote n).length → Owns cfg ring addr (cfg.fingerId n (w.fixPointer n))) :
    FixInv cfg ring late (w.finish cfg n addr) := by
  rw [FixWorld.finish_eq ((hfixed n).pointer_lt_length hbits)]
  refine ⟨hquiet.update rfl rfl rfl rfl hquiet.lookups, ?_, ?_⟩
  · intro m
    by_cases hm : m = n
    · subst hm
      simp only [FixedAt, Function.update_self]
      exact (hfixed m).write hbits hfirst hlate
    · exact (hfixed m).congr (Function.update_of_ne hm _ _) (Function.update_of_ne hm _ _)
        ⟨_, Function.update_of_ne hm _ _⟩
  · intro m
    by_cases hm : m = n
    · subst hm
      simp only [CallAt, Function.update_self]
      exact .resting hpackets hch
    · exact (hcalls m hm).congr (Function.update_of_ne hm _ _) (Function.update_of_ne hm _ _)
        (congrArg Node.findSuccessorCh (Function.update_of_ne hm _ _)) rfl (Function.update_of_ne hm _ _)

include hinj hlen hall in
/-- The first entry is looked up without a packet. -/
theorem Quiet.findSuccessor_first {w : World N V} (h : Quiet cfg ring w) (n : Fin N) :
    ∃ s, (w.nodes n).successor = some s ∧ findSuccessor cfg n (w.nodes n) (cfg.fingerId n 0) = .found s := by
  obtain ⟨s, hns⟩ := Circle.exists_follows (hall n)
  have hid := cfg.fingerId_lt n 0
  have hs := h.ideal.successor n s hns
  have harc := h.ideal.inArc_first hinj hlen hns
  refine ⟨s, hs, ?_⟩
  have hself : ¬ ownsKey cfg n (w.nodes n) (cfg.fingerId n 0) = true := by
    rw [h.ideal.ownsKey_iff_owns hinj hlen hall hid]
    intro hn
    exact h.ideal.ne hinj hlen hns (h.ideal.owns_unique hinj hlen hid hn ⟨n, hns, harc⟩)
  unfold findSuccessor
  rw [if_neg hself, hs]
  simp only [(h.ideal.atSuccessor_iff hinj hlen hid hns).mpr harc, if_true]

theorem FixInv.resting (h : FixInv cfg ring late w) (hnone : w.fixing n = none) :
    asking w.chord.net n = [] ∧ ∀ id, ((w.chord.nodes n).findSuccessorCh id).getD [] = [] := by
  have hcall := h.calls n
  unfold CallAt at hcall
  rw [hnone] at hcall
  cases hcall with
  | resting hpackets hch => exact ⟨hpackets, hch⟩

theorem Quiet.request_eq {w : World N V} {nStar : Fin N} {id : Nat} (h : Quiet cfg ring w)
    (hch : ((w.nodes n).findSuccessorCh id).getD [] = []) :
    step cfg w (.request n nStar id) = some
      { w with
        nodes := Function.update w.nodes n { w.nodes n with
          findSuccessorCh := Function.update (w.nodes n).findSuccessorCh id (some []) }
        net := w.net ++ [⟨n, nStar, .findSuccessor n id⟩] } := by
  have hremote : findSuccessorRemote n (w.nodes n) nStar id = some
      { node := { w.nodes n with findSuccessorCh := Function.update (w.nodes n).findSuccessorCh id (some []) }
        sends := [(nStar, .findSuccessor n id)] } := by
    unfold findSuccessorRemote
    rw [if_neg (by simp [h.unlocked]), hch]
  rw [step, hremote]
  rfl

/-- A call that has sent its request. -/
theorem FixInv.request {nStar : Fin N} (h : FixInv cfg ring late w) (hnone : w.fixing n = none)
    (hpointer : w.fixPointer n ≠ 0) (hnot : ¬ Owns cfg ring nStar (cfg.fingerId n (w.fixPointer n)))
    {chord : World N V} (hstep : step cfg w.chord (.request n nStar (cfg.fingerId n (w.fixPointer n))) = some chord) :
    FixInv cfg ring late
      { w with chord, fixing := Function.update w.fixing n (some (cfg.fingerId n (w.fixPointer n))) } := by
  obtain ⟨hpackets, hch⟩ := h.resting hnone
  rw [h.quiet.request_eq (hch _), Option.some.injEq] at hstep
  subst hstep
  have hasker : Packet.asker (V := V) ⟨n, nStar, .findSuccessor n (cfg.fingerId n (w.fixPointer n))⟩ = some n := rfl
  refine ⟨h.quiet.update rfl rfl rfl rfl ?_, ?_, ?_⟩
  · intro pkt hpkt
    rcases List.mem_append.mp hpkt with hold | hnew
    · exact h.quiet.lookups pkt hold
    · rw [List.mem_singleton.mp hnew]
      simp
  · intro m
    exact (h.fixed m).congr rfl rfl (update_channels ..)
  · intro m
    by_cases hm : m = n
    · subst hm
      simp only [CallAt, Function.update_self, asking_append, hpackets, asking_own hasker, List.nil_append]
      refine .waiting _ [] rfl hpointer (Function.update_self ..) ?_ (.asked m nStar hnot)
      intro id hid
      rw [Function.update_of_ne hid]
      exact hch id
    · refine (h.calls m).congr rfl rfl ?_ ?_ (Function.update_of_ne hm _ _)
      · exact congrArg Node.findSuccessorCh (Function.update_of_ne hm _ _)
      · simp only [asking_append, asking_other hasker hm, List.append_nil]

theorem deliver_findSuccessor {w : World N V} {src a : Fin N} {id k : Nat}
    (hk : w.net[k]? = some ⟨src, a, .findSuccessor n id⟩) (hdel : (w.nodes a).deleting = none) :
    step cfg w (.deliver k) = some { w with
      net := w.net.eraseIdx k ++
        (chordFindSuccessorCallback cfg a (w.nodes a) n id).map fun s => ⟨a, s.1, s.2⟩ } := by
  simp [step, deliver, hk, hdel, processPacket, World.commit]

theorem deliver_findSuccessorReply {w : World N V} {src b : Fin N} {id k : Nat} (hquiet : Quiet cfg ring w)
    (hk : w.net[k]? = some ⟨src, n, .findSuccessorReply b id⟩) (hch : (w.nodes n).findSuccessorCh id = some []) :
    step cfg w (.deliver k) = some { w with
      nodes := Function.update w.nodes n { w.nodes n with
        findSuccessorCh := Function.update (w.nodes n).findSuccessorCh id (some [b]) }
      net := w.net.eraseIdx k } := by
  simp [step, deliver, hk, hquiet.deleting, processPacket, chordFindSuccessorReplyCallback, hquiet.unlocked, hch,
    World.commit]

/-- A packet is taken out of the net, and another one of the same call may be put in. -/
theorem FixInv.pass {pkt pkt' : Packet N V} {id k : Nat} (h : FixInv cfg ring late w)
    (hk : w.chord.net[k]? = some pkt) (hasker : pkt.asker = some n) (hasker' : pkt'.asker = some n)
    (hfixing : w.fixing n = some id) (hid : id = cfg.fingerId n (w.fixPointer n)) (hpointer : w.fixPointer n ≠ 0)
    (hch : (w.chord.nodes n).findSuccessorCh id = some [])
    (hothers : ∀ id' ≠ id, ((w.chord.nodes n).findSuccessorCh id').getD [] = [])
    (hnet : asking (w.chord.net.eraseIdx k) n = [])
    (htoken : Token cfg ring (late n (w.wrote n).length) n id [pkt'] []) :
    FixInv cfg ring late { w with chord := { w.chord with net := w.chord.net.eraseIdx k ++ [pkt'] } } where
  quiet := by
    refine ⟨⟨h.quiet.ideal.sorted, h.quiet.ideal.successor, h.quiet.ideal.predecessor⟩, h.quiet.deleting,
      h.quiet.unlocked, ?_⟩
    intro p hp
    rcases List.mem_append.mp hp with hold | hnew
    · exact h.quiet.lookups p (List.mem_of_mem_eraseIdx hold)
    · rw [List.mem_singleton.mp hnew, hasker']
      simp
  fixed := h.fixed
  calls := by
    intro m
    by_cases hm : m = n
    · subst hm
      simp only [CallAt, asking_append, hnet, asking_own hasker', List.nil_append, hfixing]
      exact .waiting id [] hid hpointer hch hothers htoken
    · refine (h.calls m).congr rfl rfl rfl ?_ rfl
      simp only [asking_append, asking_eraseIdx_other hk hasker hm, asking_other hasker' hm, List.append_nil]

theorem FixInv.arrive {pkt : Packet N V} {b : Fin N} {id k : Nat} (h : FixInv cfg ring late w)
    (hk : w.chord.net[k]? = some pkt) (hasker : pkt.asker = some n)
    (hfixing : w.fixing n = some id) (hid : id = cfg.fingerId n (w.fixPointer n)) (hpointer : w.fixPointer n ≠ 0)
    (hothers : ∀ id' ≠ id, ((w.chord.nodes n).findSuccessorCh id').getD [] = [])
    (hnet : asking (w.chord.net.eraseIdx k) n = [])
    (hgood : late n (w.wrote n).length → Owns cfg ring b id) :
    FixInv cfg ring late { w with chord := { w.chord with
      nodes := Function.update w.chord.nodes n { w.chord.nodes n with
        findSuccessorCh := Function.update (w.chord.nodes n).findSuccessorCh id (some [b]) }
      net := w.chord.net.eraseIdx k } } where
  quiet := by
    refine h.quiet.update rfl rfl rfl rfl ?_
    intro p hp
    exact h.quiet.lookups p (List.mem_of_mem_eraseIdx hp)
  fixed := by
    intro m
    exact (h.fixed m).congr rfl rfl (update_channels ..)
  calls := by
    intro m
    by_cases hm : m = n
    · subst hm
      simp only [CallAt, Function.update_self, hnet, hfixing]
      refine .waiting id [b] hid hpointer (Function.update_self ..) ?_ (.arrived b hgood)
      intro id' hid'
      rw [Function.update_of_ne hid']
      exact hothers id' hid'
    · refine (h.calls m).congr rfl rfl ?_ ?_ rfl
      · exact congrArg Node.findSuccessorCh (Function.update_of_ne hm _ _)
      · exact asking_eraseIdx_other hk hasker hm

section Whole

variable (hready : (∃ n k, late n k) → ∀ m, w.wrote m ≠ [])

include hinj hlen hall hready

theorem FixInv.fixFinger (h : FixInv cfg ring late w) (hstep : Chord.fixFinger cfg w n = some w') :
    FixInv cfg ring late w' := by
  have hring := h.quiet.ideal
  have hid := cfg.fingerId_lt n (w.fixPointer n)
  obtain ⟨s, hs, hfirst⟩ := h.quiet.findSuccessor_first hinj hlen hall n
  have hnone : w.fixing n = none := by
    by_contra hsome
    unfold Chord.fixFinger at hstep
    rw [if_pos (Option.isSome_iff_ne_none.mpr hsome)] at hstep
    cases hstep
  obtain ⟨hpackets, hch⟩ := h.resting hnone
  unfold Chord.fixFinger at hstep
  rw [hnone, if_neg (by simp)] at hstep
  rcases hring.findSuccessor_cases hinj hlen hall (h.fixed n).length hid with
    ⟨addr, hfound, hgood⟩ | ⟨nStar, hremote, hnot⟩
  · rw [hfound] at hstep
    cases hstep
    refine .finish (hring.chordBits_pos hinj hlen) h.quiet h.fixed (fun m _ => h.calls m) hpackets hch ?_ ?_
    · intro hzero
      rw [hzero, hfirst] at hfound
      cases hfound
      exact hs
    · intro hlate
      exact hgood ((h.fixed n).written (hready ⟨n, _, hlate⟩ n))
  · rw [hremote, Option.map_eq_some_iff] at hstep
    obtain ⟨chord, hchord, rfl⟩ := hstep
    refine h.request hnone ?_ hnot hchord
    intro hzero
    rw [hzero, hfirst] at hremote
    cases hremote

omit hall hready in
theorem FixInv.resume (h : FixInv cfg ring late w) (hstep : fixFingerResume cfg w n = some w') :
    FixInv cfg ring late w' := by
  unfold fixFingerResume at hstep
  rw [Option.bind_eq_some_iff] at hstep
  obtain ⟨id, hfixing, hstep⟩ := hstep
  have hcall := h.calls n
  unfold CallAt at hcall
  rw [hfixing] at hcall
  cases hcall with
  | waiting _ replies hid hpointer hch hothers htoken =>
    rw [hch] at hstep
    generalize hpackets : asking w.chord.net n = packets at htoken
    cases htoken with
    | asked | answered => cases hstep
    | arrived addr hgood =>
      cases hstep
      refine .finish (h.quiet.ideal.chordBits_pos hinj hlen) ?_ ?_ ?_ ?_ ?_ ?_ ?_
      · refine h.quiet.update rfl rfl rfl rfl ?_
        simpa using h.quiet.lookups
      · intro m
        exact (h.fixed m).congr rfl rfl (update_channels ..)
      · intro m hm
        refine (h.calls m).congr rfl rfl ?_ ?_ rfl
        · exact congrArg Node.findSuccessorCh (Function.update_of_ne hm _ _)
        · simp [World.commit]
      · simpa [World.commit] using hpackets
      · intro id'
        simp only [World.commit, Function.update_self]
        by_cases hid' : id' = id
        · rw [hid', Function.update_self]
          rfl
        · rw [Function.update_of_ne hid']
          exact hothers id' hid'
      · intro hzero
        exact absurd hzero hpointer
      · rw [← hid]
        exact hgood

theorem FixInv.deliver {k : Nat} {chord : World N V} (h : FixInv cfg ring late w)
    (hstep : step cfg w.chord (.deliver k) = some chord) : FixInv cfg ring late { w with chord } := by
  obtain ⟨pkt, hk⟩ : ∃ pkt, w.chord.net[k]? = some pkt := by
    rw [step, Chord.deliver, Option.bind_eq_some_iff] at hstep
    exact ⟨_, hstep.choose_spec.1⟩
  obtain ⟨n, hasker⟩ := Option.ne_none_iff_exists'.mp (h.quiet.lookups pkt (List.mem_of_getElem? hk))
  have hcall := h.calls n
  unfold CallAt at hcall
  generalize hfixing : w.fixing n = fixing at hcall
  cases hcall with
  | resting hpackets _ =>
    obtain ⟨hnil, -⟩ := asking_eraseIdx_own hk hasker hpackets (by simp)
    cases hnil
  | waiting id replies hid hpointer hch hothers htoken =>
    generalize hpackets : asking w.chord.net n = packets at htoken
    obtain ⟨hone, hnet⟩ := asking_eraseIdx_own hk hasker hpackets htoken.length_le
    cases htoken with
    | asked src a hnot =>
      rw [← (List.cons.inj hone).1] at hk hasker
      rw [deliver_findSuccessor hk (h.quiet.deleting a), Option.some.injEq] at hstep
      subst hstep
      rcases h.quiet.ideal.callback_cases hinj hlen hall (h.fixed a).length (hid ▸ cfg.fingerId_lt n _) hnot n with
        ⟨b, hsends, hgood⟩ | ⟨c, hsends, hnot', -⟩
      · rw [hsends]
        refine h.pass hk hasker rfl hfixing hid hpointer hch hothers hnet (.answered a b ?_)
        intro hlate
        exact hgood ((h.fixed a).written (hready ⟨n, _, hlate⟩ a))
      · rw [hsends]
        exact h.pass hk hasker rfl hfixing hid hpointer hch hothers hnet (.asked a c hnot')
    | answered src b hgood =>
      rw [← (List.cons.inj hone).1] at hk hasker
      rw [deliver_findSuccessorReply h.quiet hk hch, Option.some.injEq] at hstep
      subst hstep
      exact h.arrive hk hasker hfixing hid hpointer hothers hnet hgood
    | arrived => cases hone

theorem FixInv.keep {e : FixEvent N} (h : FixInv cfg ring late w) (hstep : fixStep cfg w e = some w') :
    FixInv cfg ring late w' := by
  cases e with
  | fixFinger n => exact h.fixFinger hinj hlen hall hready hstep
  | resume n => exact h.resume hinj hlen hstep
  | deliver k =>
    obtain ⟨chord, hchord, rfl⟩ := Option.map_eq_some_iff.mp hstep
    exact h.deliver hinj hlen hall hready hchord

end Whole

/-! ## Calls return -/

theorem finish_wrote {addr : Fin N} (hlt : w.fixPointer n < (w.chord.nodes n).fingerTable.length) :
    (w.finish cfg n addr).wrote = Function.update w.wrote n (w.wrote n ++ [(w.fixPointer n, addr)]) := by
  rw [FixWorld.finish_eq hlt]

/-- A reply that has arrived lets the call write its entry. -/
theorem FixInv.returns_arrived {id : Nat} {b : Fin N} {rest : List (Fin N)} (hbits : 0 < cfg.chordBits)
    (h : FixInv cfg ring late w) (hfixing : w.fixing n = some id)
    (hch : (w.chord.nodes n).findSuccessorCh id = some (b :: rest)) :
    ∃ w', fixStep cfg w (.resume n) = some w' ∧ (w'.wrote n).length = (w.wrote n).length + 1 := by
  refine ⟨_, by simp only [fixStep, fixFingerResume, hfixing, Option.bind_some, hch]; rfl, ?_⟩
  rw [finish_wrote (by simpa [World.commit] using (h.fixed n).pointer_lt_length hbits), Function.update_self]
  simp

/-- How many deliveries the lookup of a packet still takes, at most. -/
def Packet.rank (cfg : Config N) (pkt : Packet N V) : Nat :=
  match pkt.msg with
  | .findSuccessor _ id => cw (2 ^ cfg.chordBits) (cfg.hashKey pkt.destination) id + 2
  | _ => 1

def rank (cfg : Config N) (packets : List (Packet N V)) : Nat := (packets.map (Packet.rank cfg)).sum

include hinj hlen hall in
/-- A packet that is delivered brings its call closer to the end. -/
theorem FixInv.approach {id : Nat} (h : FixInv cfg ring late w) (hfixing : w.fixing n = some id) :
    (∃ b rest, (w.chord.nodes n).findSuccessorCh id = some (b :: rest)) ∨
    ∃ k chord, step cfg w.chord (.deliver k) = some chord ∧
      rank cfg (asking chord.net n) < rank cfg (asking w.chord.net n) := by
  have hcall := h.calls n
  unfold CallAt at hcall
  rw [hfixing] at hcall
  cases hcall with
  | waiting _ replies hid hpointer hch hothers htoken =>
    generalize hpackets : asking w.chord.net n = packets at htoken
    have hget : ∀ pkt ∈ packets, ∃ k : Nat, w.chord.net[k]? = some pkt := by
      intro pkt hpkt
      rw [← hpackets] at hpkt
      exact List.getElem?_of_mem (List.mem_filter.mp hpkt).1
    cases htoken with
    | asked src a hnot =>
      obtain ⟨k, hk⟩ := hget _ List.mem_cons_self
      obtain ⟨-, hnet⟩ := asking_eraseIdx_own hk rfl hpackets (by simp)
      refine .inr ⟨k, _, deliver_findSuccessor hk (h.quiet.deleting a), ?_⟩
      rcases h.quiet.ideal.callback_cases hinj hlen hall (h.fixed a).length (hid ▸ cfg.fingerId_lt n _) hnot n with
        ⟨b, hsends, -⟩ | ⟨c, hsends, -, hcloser⟩
      · rw [hsends, asking_append, hnet, List.nil_append, List.map_singleton, asking_own rfl]
        simp [rank, Packet.rank]
      · rw [hsends, asking_append, hnet, List.nil_append, List.map_singleton, asking_own rfl]
        simpa [rank, Packet.rank] using hcloser
    | answered src b hgood =>
      obtain ⟨k, hk⟩ := hget _ List.mem_cons_self
      obtain ⟨-, hnet⟩ := asking_eraseIdx_own hk rfl hpackets (by simp)
      refine .inr ⟨k, _, deliver_findSuccessorReply h.quiet hk hch, ?_⟩
      rw [hnet]
      simp [rank, Packet.rank]
    | arrived b hgood => exact .inl ⟨b, [], hch⟩

include hinj hlen hall in
/-- No call waits in vain. -/
theorem FixInv.returns {id : Nat} (hready : (∃ n k, late n k) → ∀ m, w.wrote m ≠ [])
    (h : FixInv cfg ring late w) (hfixing : w.fixing n = some id) :
    ∃ more w', run (fixStep cfg) w more = some w' ∧ (w'.wrote n).length = (w.wrote n).length + 1 := by
  have hbits := h.quiet.ideal.chordBits_pos hinj hlen
  induction hrank : rank cfg (asking w.chord.net n) using Nat.strong_induction_on generalizing w with
  | _ r ih =>
    subst hrank
    rcases h.approach hinj hlen hall hfixing with ⟨b, rest, hch⟩ | ⟨k, chord, hstep, hless⟩
    · obtain ⟨w', hresume, hwrote⟩ := h.returns_arrived hbits hfixing hch
      exact ⟨[.resume n], w', by rw [run_cons hresume]; rfl, hwrote⟩
    · have hdeliver : fixStep cfg w (.deliver k) = some { w with chord } := by
        rw [fixStep, hstep, Option.map_some]
      have hkept : FixInv cfg ring late { w with chord } := h.deliver hinj hlen hall hready hstep
      obtain ⟨more, w', hrun, hwrote⟩ := ih _ hless (w := { w with chord }) hready hkept hfixing rfl
      exact ⟨.deliver k :: more, w', by rw [run_cons hdeliver]; exact hrun, hwrote⟩

end Steps

/-! ## Whole runs -/

section Runs

variable {ring : List (Fin N)} {late : Fin N → Nat → Prop} {w₀ w w' : FixWorld N V}
  (hinj : Function.Injective cfg.hashKey) (hlen : 2 ≤ ring.length)

theorem StaticRing.fixInv (hbits : 0 < cfg.chordBits) (h : StaticRing cfg w ring) :
    FixInv cfg ring (fun _ _ => False) w where
  quiet := by
    refine ⟨h.ideal, h.idle.deleting, h.idle.unlocked, ?_⟩
    simp [h.idle.net]
  fixed := by
    intro n
    simp only [FixedAt, h.empty, h.pointers, h.unwritten]
    exact .empty hbits n _
  calls := by
    intro n
    simp only [CallAt, h.resting]
    exact .resting (by simp [asking, h.idle.net]) (h.idle.unread n)

/-- A call only adds to what has been written. -/
theorem finish_append (w : FixWorld N V) (n addr m : Fin N) :
    ∃ l, (w.finish cfg n addr).wrote m = w.wrote m ++ l := by
  unfold FixWorld.finish
  cases insert (w.chord.nodes n).fingerTable (w.fixPointer n) addr with
  | none => exact ⟨[], (List.append_nil _).symm⟩
  | some fingerTable =>
    by_cases hm : m = n
    · subst hm
      exact ⟨_, Function.update_self ..⟩
    · exact ⟨[], by simp only [Function.update_of_ne hm, List.append_nil]⟩

theorem fixStep_append {e : FixEvent N} (hstep : fixStep cfg w e = some w') (m : Fin N) :
    ∃ l, w'.wrote m = w.wrote m ++ l := by
  cases e with
  | fixFinger n =>
    simp only [fixStep, fixFinger] at hstep
    split at hstep
    · cases hstep
    · split at hstep
      · cases hstep
        exact finish_append ..
      · obtain ⟨chord, -, rfl⟩ := Option.map_eq_some_iff.mp hstep
        exact ⟨[], (List.append_nil _).symm⟩
      · cases hstep
        exact ⟨[], (List.append_nil _).symm⟩
  | resume n =>
    simp only [fixStep, fixFingerResume, Option.bind_eq_some_iff] at hstep
    obtain ⟨id, -, hstep⟩ := hstep
    split at hstep
    · cases hstep
      exact finish_append ..
    · cases hstep
  | deliver k =>
    obtain ⟨chord, -, rfl⟩ := Option.map_eq_some_iff.mp hstep
    exact ⟨[], (List.append_nil _).symm⟩

theorem run_wrote_length (events : List (FixEvent N)) (hrun : run (fixStep cfg) w events = some w') (m : Fin N) :
    (w.wrote m).length ≤ (w'.wrote m).length := by
  refine run_preserves (fun w' => (w.wrote m).length ≤ (w'.wrote m).length) ?_ events (Nat.le_refl _) hrun
  intro w₁ e w₂ hle hstep
  obtain ⟨l, hl⟩ := fixStep_append hstep m
  rw [hl, List.length_append]
  omega

include hinj hlen

/-- What holds of one step holds of a whole run, since what everyone has written stays written. -/
theorem FixInv.run (hall : ∀ n, n ∈ ring) (hready : (∃ n k, late n k) → ∀ m, w.wrote m ≠ [])
    (h : FixInv cfg ring late w) (events : List (FixEvent N))
    (hrun : MarketPeer.run (fixStep cfg) w events = some w') : FixInv cfg ring late w' := by
  refine (run_preserves (fun w => ((∃ n k, late n k) → ∀ m, w.wrote m ≠ []) ∧ FixInv cfg ring late w) ?_
    events ⟨hready, h⟩ hrun).2
  rintro w₁ e w₂ ⟨hready, h⟩ hstep
  refine ⟨?_, h.keep hinj hlen hall hready hstep⟩
  intro hlate m
  obtain ⟨l, hl⟩ := fixStep_append hstep m
  rw [hl]
  exact List.append_ne_nil_of_left_ne_nil (hready hlate m) l

omit hinj hlen in
/-- From the moment at which all tables begin with the successor, the calls that begin must write owners. -/
theorem FixInv.restart (h : FixInv cfg ring late w) : FixInv cfg ring (fun n k => w.called n ≤ k) w where
  quiet := h.quiet
  fixed := by
    intro n
    refine (h.fixed n).restart ?_
    unfold FixWorld.called
    intro k hk
    omega
  calls := by
    intro n
    have hcall := h.calls n
    unfold CallAt at hcall ⊢
    generalize hfixing : w.fixing n = fixing at hcall
    cases hcall with
    | resting hpackets hch => exact .resting hpackets hch
    | waiting id replies hid hpointer hch hothers htoken =>
      -- the call that waits has begun before
      have hearly : ¬ w.called n ≤ (w.wrote n).length := by
        simp [FixWorld.called, hfixing]
      refine .waiting id replies hid hpointer hch hothers ?_
      generalize asking w.chord.net n = packets at htoken
      cases htoken with
      | asked src a hnot => exact .asked src a hnot
      | answered src b _ => exact .answered src b fun hlate => absurd hlate hearly
      | arrived b _ => exact .arrived b fun hlate => absurd hlate hearly

/-- The first entry of a table is the successor as soon as it is written. Once every node has run
`FixFinger`, each call that begins writes the owner of its identifier, and after `chordBits` such calls
on each node all tables are exact for good. No call waits in vain. -/
theorem fingers_converge (hstart : StaticRing cfg w₀ ring) (events : List (FixEvent N))
    (hrun : MarketPeer.run (fixStep cfg) w₀ events = some w) :
    (∀ n a, (w.chord.nodes n).fingerTable[0]? = some (some a) → (w.chord.nodes n).successor = some a) ∧
    ((∀ n, w.wrote n ≠ []) → ∀ further w', MarketPeer.run (fixStep cfg) w further = some w' →
      (∀ n k i a, w.called n ≤ k → (w'.wrote n)[k]? = some (i, a) → Owns cfg ring a (cfg.fingerId n i)) ∧
      ((∀ n, w.called n + cfg.chordBits ≤ (w'.wrote n).length) →
        ∀ later w'', MarketPeer.run (fixStep cfg) w' later = some w'' → ∀ n, ExactTable cfg ring w'' n)) ∧
    ∀ n, ∃ returns w', MarketPeer.run (fixStep cfg) w returns = some w' ∧ w.called n ≤ (w'.wrote n).length := by
  have hbits := hstart.ideal.chordBits_pos hinj hlen
  have hbase := (hstart.fixInv hbits).run hinj hlen hstart.all (by simp) events hrun
  refine ⟨fun n => (hbase.fixed n).first, ?_, ?_⟩
  · intro hready further w' hfurther
    have hlater := hbase.restart.run hinj hlen hstart.all (fun _ => hready) further hfurther
    refine ⟨fun n => (hlater.fixed n).owners, ?_⟩
    intro hcycle later w'' hrest n
    have hlast := hlater.run hinj hlen hstart.all ?_ later hrest
    · intro i hi
      refine (hlast.fixed n).exact hbits (w.called n) (fun _ hk => hk) ?_ i hi
      have hmono := run_wrote_length later hrest n
      have hn := hcycle n
      omega
    · intro _ m
      have hmono := run_wrote_length further hfurther m
      have hpos := List.length_pos_of_ne_nil (hready m)
      exact List.ne_nil_of_length_pos (by omega)
  · intro n
    cases hfixing : w.fixing n with
    | none => exact ⟨[], w, rfl, by simp [FixWorld.called, hfixing]⟩
    | some id =>
      obtain ⟨returns, w', hreturns, hwrote⟩ := hbase.returns hinj hlen hstart.all (by simp) hfixing
      exact ⟨returns, w', hreturns, by simp [FixWorld.called, hfixing, hwrote]⟩

end Runs

/-- Three nodes that have just become a ring. -/
def emptyTables : FixWorld 3 Nat where
  chord := { sampleRing with nodes := fun n => { sampleRing.nodes n with fingerTable := List.replicate 3 none } }
  fixPointer := fun _ => 0
  fixing := fun _ => none
  wrote := fun _ => []

/-- Three calls on each node, the second ones at the same time. -/
def sampleFixes : List (FixEvent 3) :=
  [.fixFinger 0, .fixFinger 1, .fixFinger 2, .fixFinger 0, .fixFinger 1, .fixFinger 2,
    .deliver 0, .deliver 0, .deliver 0, .deliver 0, .deliver 0, .deliver 0,
    .resume 2, .resume 0, .resume 1, .fixFinger 0, .fixFinger 1, .fixFinger 2]

theorem emptyTables_static : StaticRing sampleConfig emptyTables [0, 1, 2] where
  ideal := ⟨by decide, by decide, by decide⟩
  idle := ⟨rfl, fun _ => rfl, fun _ _ => rfl, fun _ => rfl⟩
  all := by decide
  empty := fun _ => rfl
  pointers := fun _ => rfl
  resting := fun _ => rfl
  unwritten := fun _ => rfl

theorem emptyTables_converge :
    ∃ w w', run (fixStep sampleConfig) emptyTables [.fixFinger 2, .fixFinger 0, .fixFinger 1] = some w ∧
      (∀ n, w.wrote n ≠ []) ∧ run (fixStep sampleConfig) w sampleFixes = some w' ∧
      (∀ n, w.called n + 3 ≤ (w'.wrote n).length) ∧ ∀ n, ExactTable sampleConfig [0, 1, 2] w' n := by
  have hruns : (run (fixStep sampleConfig) emptyTables [.fixFinger 2, .fixFinger 0, .fixFinger 1]).any (fun w =>
      decide (∀ n, w.wrote n ≠ []) && (run (fixStep sampleConfig) w sampleFixes).any fun w' =>
        decide (∀ n, w.called n + 3 ≤ (w'.wrote n).length)) = true := by
    decide
  obtain ⟨w, hrun, hw⟩ := (Option.any_eq_true _ _).mp hruns
  obtain ⟨hwrote, hrest⟩ := Bool.and_eq_true_iff.mp hw
  obtain ⟨w', hrun', hcycle⟩ := (Option.any_eq_true _ _).mp hrest
  have hwrote := of_decide_eq_true hwrote
  have hcycle := of_decide_eq_true hcycle
  have hconverge := fingers_converge (by decide) (by decide) emptyTables_static _ hrun
  exact ⟨w, w', hrun, hwrote, hrun', hcycle, (hconverge.2.1 hwrote _ w' hrun').2 hcycle [] w' rfl⟩

end MarketPeer.Chord

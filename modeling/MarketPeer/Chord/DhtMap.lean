import Mathlib.Algebra.BigOperators.Fin
import MarketPeer.Chord.Dht
import MarketPeer.Chord.Fresh
import MarketPeer.Lib.LateMap

/-!
# The ring is one map

All stores together are one map. A `Put` is a write that is issued when its lookup
returns and takes effect where the owner stores the value, and a `Get` returns a value
that the map has held.
-/

namespace MarketPeer.Chord

open MarketPeer.Ring

variable {N : Nat} {V : Type} {cfg : Config N}

/-! ## The map -/

def Insertion.write (p : Insertion N V) : Nat × V := (p.key, p.value)

def Msg.write : Msg N V → Option (Nat × V)
  | .insertKV key value => some (key, value)
  | _ => none

/-- The writes that are on their way. -/
def writes (net : List (Packet N V)) : Multiset (Nat × V) := ↑(net.filterMap fun pkt => pkt.msg.write)

namespace World

/-- What some node stores under the key. -/
def contents (w : World N V) (key : Nat) : Option V :=
  (List.finRange N).findSome? fun n => (w.nodes n).blockStore key

/-- The writes of the calls of `Put` that have found their owner. -/
def puts (w : World N V) : Multiset (Nat × V) := ∑ n, ((w.nodes n).putting.map Insertion.write : Multiset (Nat × V))

def late (w : World N V) : LateMap Nat V := ⟨w.contents, w.puts + writes w.net⟩

end World

theorem writes_append (net net' : List (Packet N V)) : writes (net ++ net') = writes net + writes net' := by
  simp [writes]

theorem writes_perm {net net' : List (Packet N V)} (h : net.Perm net') : writes net = writes net' :=
  Multiset.coe_eq_coe.mpr (h.filterMap _)

theorem writes_cons (pkt : Packet N V) (net : List (Packet N V)) :
    writes (pkt :: net) = pkt.msg.write.elim 0 ({·}) + writes net := by
  unfold writes
  cases h : pkt.msg.write with
  | none => simp [h]
  | some p => simp [h, ← Multiset.cons_coe]

theorem writes_of_none {net : List (Packet N V)} (h : ∀ pkt ∈ net, pkt.msg.write = none) : writes net = 0 := by
  unfold writes
  rw [List.filterMap_eq_nil_iff.mpr h, Multiset.coe_nil]

/-- A step of a node that leaves its part of the map alone. -/
structure Effect.Quiet (node : Node N V) (e : Effect N V) : Prop where
  store : e.node.blockStore = node.blockStore
  putting : e.node.putting = node.putting
  sends : ∀ s ∈ e.sends, s.2.write = none

section Commit

variable {ring : List (Fin N)} {w w' : World N V} {n : Fin N} {e : Effect N V}

/-- The writes of the calls change with those of the node that acts. -/
theorem World.puts_commit (w : World N V) (n : Fin N) (e : Effect N V) :
    (w.commit n e).puts + ↑((w.nodes n).putting.map Insertion.write) =
      w.puts + ↑(e.node.putting.map Insertion.write) := by
  unfold World.puts World.commit
  rw [← Finset.sum_erase_add _ _ (Finset.mem_univ n), ← Finset.sum_erase_add _ (fun m => _) (Finset.mem_univ n)]
  simp only [Function.update_self]
  have hrest : ∑ m ∈ Finset.univ.erase n,
      (↑((Function.update w.nodes n e.node m).putting.map Insertion.write) : Multiset (Nat × V)) =
        ∑ m ∈ Finset.univ.erase n, ↑((w.nodes m).putting.map Insertion.write) := by
    refine Finset.sum_congr rfl fun m hm => ?_
    rw [Function.update_of_ne (Finset.ne_of_mem_erase hm)]
  rw [hrest, add_right_comm]

theorem World.puts_commit_same (hputting : e.node.putting = (w.nodes n).putting) : (w.commit n e).puts = w.puts := by
  have h := w.puts_commit n e
  rwa [hputting, add_left_inj] at h

/-- Only the owner of a key can hold it. -/
theorem World.contents_eq {key : Nat} (honly : ∀ m, (w.nodes m).blockStore key ≠ none → m = n) :
    w.contents key = (w.nodes n).blockStore key := by
  unfold World.contents
  cases h : (List.finRange N).findSome? fun m => (w.nodes m).blockStore key with
  | none => exact (List.findSome?_eq_none_iff.mp h n (List.mem_finRange n)).symm
  | some v =>
    obtain ⟨m, -, hm⟩ := List.exists_of_findSome?_eq_some h
    rw [← honly m (by rw [hm]; simp), hm]

theorem World.contents_congr (h : ∀ m, (w'.nodes m).blockStore = (w.nodes m).blockStore) :
    w'.contents = w.contents := by
  funext key
  unfold World.contents
  simp only [h]

theorem World.commit_store (hstore : e.node.blockStore = (w.nodes n).blockStore) (m : Fin N) :
    ((w.commit n e).nodes m).blockStore = (w.nodes m).blockStore :=
  update_proj (·.blockStore) hstore m

theorem World.contents_commit_same (hstore : e.node.blockStore = (w.nodes n).blockStore) :
    (w.commit n e).contents = w.contents :=
  World.contents_congr (World.commit_store hstore)

theorem World.late_congr (hnodes : w'.nodes = w.nodes) (hnet : w'.net = w.net) : w'.late = w.late := by
  have hcontents : w'.contents = w.contents := World.contents_congr fun m => by rw [hnodes]
  rw [World.late, hcontents, World.puts, hnodes, hnet]
  rfl

theorem World.late_quiet (h : e.Quiet (w.nodes n)) (net : List (Packet N V)) (hnet : writes net = writes w.net) :
    ({ w with net }.commit n e).late = w.late := by
  have hnew : writes (e.sends.map fun s => (⟨n, s.1, s.2⟩ : Packet N V)) = 0 := by
    refine writes_of_none fun pkt hpkt => ?_
    obtain ⟨s, hs, rfl⟩ := List.mem_map.mp hpkt
    exact h.sends s hs
  have hcontents : ({ w with net }.commit n e).contents = w.contents :=
    World.contents_commit_same (w := { w with net }) h.store
  have hputs : ({ w with net }.commit n e).puts = w.puts := World.puts_commit_same (w := { w with net }) h.putting
  have hwrites : writes ({ w with net }.commit n e).net = writes w.net := by
    simp only [World.commit, writes_append, hnew, hnet, add_zero]
  rw [World.late, hcontents, hputs, hwrites]
  rfl

/-- The owner of the key stores a value. -/
theorem World.Settled.contents_insert (hring : RingOrder cfg ring) (h : w.Settled cfg ring) {key : Nat} {v : V}
    (howner : Owner cfg ring n key) (hstore : e.node.blockStore = Function.update (w.nodes n).blockStore key (some v)) :
    (w.commit n e).contents = Function.update w.contents key (some v) := by
  have hself : ((w.commit n e).nodes n).blockStore = Function.update (w.nodes n).blockStore key (some v) := by
    simp [World.commit, hstore]
  have hother : ∀ m, m ≠ n → (w.commit n e).nodes m = w.nodes m := fun m hm => by simp [World.commit, hm]
  funext key'
  by_cases hkey : key' = key
  · subst hkey
    rw [Function.update_self, World.contents_eq (n := n), hself, Function.update_self]
    intro m hm
    by_contra hne
    rw [hother m hne] at hm
    exact hne (h.owner_unique hring ((h.nodes m).stored key' hm) howner)
  · rw [Function.update_of_ne hkey]
    unfold World.contents
    congr 1
    funext m
    by_cases hm : m = n
    · subst hm
      rw [hself, Function.update_of_ne hkey]
    · rw [hother m hm]

/-- One of the writes takes effect. -/
theorem World.Settled.late_insert (hring : RingOrder cfg ring) (h : w.Settled cfg ring) {key : Nat} {v : V}
    (howner : Owner cfg ring n key) (hnodes : w'.nodes = (w.commit n e).nodes)
    (hstore : e.node.blockStore = Function.update (w.nodes n).blockStore key (some v))
    (hwaiting : w.puts + writes w.net = (key, v) ::ₘ (w'.puts + writes w'.net)) :
    LateMap.Trace w.late [] w'.late := by
  have heffect : w'.late = ⟨Function.update w.late.values key (some v), w'.puts + writes w'.net⟩ := by
    have hcontents : w'.contents = (w.commit n e).contents := World.contents_congr fun m => by rw [hnodes]
    rw [World.late, hcontents, h.contents_insert hring howner hstore]
    rfl
  rw [heffect]
  exact LateMap.Trace.refl.effect hwaiting

end Commit

/-! ## What a step does to the map -/

section Steps

variable {ring : List (Fin N)} {w w' : World N V} {n : Fin N} {e : Effect N V}

/-- Of the true packets only a write changes a store. -/
theorem World.Settled.processPacket_quiet (h : w.Settled cfg ring) {source : Fin N} {msg : Msg N V}
    (hmsg : msg.Settled cfg ring source n) (hwrite : msg.write = none)
    (he : Chord.processPacket cfg n (w.nodes n) source msg = some e) : e.Quiet (w.nodes n) := by
  cases msg with
  | findSuccessor origin id =>
    cases he
    refine ⟨rfl, rfl, ?_⟩
    intro s hs
    rcases mem_chordFindSuccessorCallback hs with ⟨d, rfl⟩ | ⟨d, rfl⟩ <;> rfl
  | findSuccessorReply dest id =>
    obtain ⟨node, hreply, rfl⟩ := Option.map_eq_some_iff.mp he
    obtain ⟨ch, held, rfl⟩ := chordFindSuccessorReplyCallback_frame hreply
    exact ⟨rfl, rfl, by simp⟩
  | askPredecessor =>
    cases he
    exact ⟨rfl, rfl, by simp [chordAskPredecessorCallback, Msg.write]⟩
  | replyPredecessor p =>
    obtain ⟨node, hreply, rfl⟩ := Option.map_eq_some_iff.mp he
    unfold chordReplyPredecessorCallback at hreply
    split_ifs at hreply
    cases hreply
    exact ⟨rfl, rfl, by simp⟩
  | notify =>
    cases he
    simp only [chordNotifyCallback, (h.nodes n).predecessor source hmsg, between_self_left, Bool.false_eq_true,
      if_false]
    exact ⟨rfl, rfl, by simp⟩
  | transferKey data => exact hmsg.elim
  | insertKV key value => cases hwrite

/-- A packet is delivered: if it is a write, it takes effect. -/
theorem deliver_trace (hring : RingOrder cfg ring) (h : w.Settled cfg ring) {k : Nat}
    (hstep : deliver cfg w k = some w') : w'.Settled cfg ring ∧ LateMap.Trace w.late [] w'.late := by
  unfold deliver at hstep
  obtain ⟨⟨source, n, msg⟩, hpkt, hstep⟩ := Option.bind_eq_some_iff.mp hstep
  simp only at hstep
  split_ifs at hstep
  obtain ⟨e, he, rfl⟩ := Option.map_eq_some_iff.mp hstep
  have hmsg := h.net _ (List.mem_of_getElem? hpkt)
  obtain ⟨hnode, hsends⟩ := h.processPacket hring hmsg he
  refine ⟨h.commit _ (fun _ => List.mem_of_mem_eraseIdx) hnode hsends, ?_⟩
  have hnet : writes w.net = msg.write.elim 0 ({·}) + writes (w.net.eraseIdx k) := by
    rw [writes_perm (perm_eraseIdx hpkt), writes_cons]
  cases hwrite : msg.write with
  | none =>
    rw [hwrite, Option.elim_none, zero_add] at hnet
    rw [World.late_quiet (h.processPacket_quiet hmsg hwrite he) _ hnet.symm]
    exact .refl
  | some p =>
    cases msg with
    | insertKV key value =>
      cases he
      cases hwrite
      refine h.late_insert hring (n := n) (e := ⟨chordInsertKVCallback (w.nodes n) key value, []⟩) hmsg rfl rfl ?_
      have hputs := World.puts_commit_same (w := { w with net := w.net.eraseIdx k }) (n := n)
        (e := ⟨chordInsertKVCallback (w.nodes n) key value, []⟩) rfl
      rw [hputs, hnet]
      simp only [World.commit, List.map_nil, List.append_nil, Msg.write, Option.elim_some, Multiset.singleton_add,
        Multiset.add_cons]
      rfl
    | _ => cases hwrite

theorem World.puts_erase (w : World N V) {i : Nat} {p : Insertion N V} (hp : (w.nodes n).putting[i]? = some p)
    (e : Effect N V) (he : e.node.putting = (w.nodes n).putting.eraseIdx i) :
    w.puts = p.write ::ₘ (w.commit n e).puts := by
  obtain ⟨hi, rfl⟩ := List.getElem?_eq_some_iff.mp hp
  have hcons := Multiset.coe_eq_coe.mpr ((List.getElem_cons_eraseIdx_perm hi).map Insertion.write)
  have hcommit := w.puts_commit n e
  rw [← hcons, he, List.map_cons, ← Multiset.cons_coe, Multiset.add_cons, ← Multiset.cons_add,
    add_left_inj] at hcommit
  exact hcommit.symm

/-- A write on its way to the owner still waits. -/
theorem World.late_send (w : World N V) {i : Nat} {p : Insertion N V} (hp : (w.nodes n).putting[i]? = some p)
    (e : Effect N V) (hstore : e.node.blockStore = (w.nodes n).blockStore)
    (hputting : e.node.putting = (w.nodes n).putting.eraseIdx i)
    (hsends : e.sends = [(p.dest, .insertKV p.key p.value)]) : (w.commit n e).late = w.late := by
  have hwrites : writes (w.commit n e).net = writes w.net + {p.write} := by
    simp only [World.commit, hsends, writes_append, List.map_cons, List.map_nil]
    rfl
  have hwaiting : (w.commit n e).puts + writes (w.commit n e).net = w.puts + writes w.net := by
    rw [w.puts_erase hp e hputting, hwrites, ← Multiset.singleton_add, add_comm (writes w.net), ← add_assoc,
      add_comm _ ({p.write} : Multiset (Nat × V))]
  rw [World.late, World.contents_commit_same hstore, hwaiting]
  rfl

/-- A `Put` stores the value or sends it to the owner. -/
theorem finishPut_trace (hring : RingOrder cfg ring) (h : w.Settled cfg ring) {i : Nat}
    (he : finishPut cfg n (w.nodes n) i = some e) :
    (w.commit n e).Settled cfg ring ∧ LateMap.Trace w.late [] (w.commit n e).late := by
  obtain ⟨p, hp, rfl⟩ := Option.map_eq_some_iff.mp he
  have hnode := h.nodes n
  have howner := hnode.putting p (List.mem_of_getElem? hp)
  have herase : Chord.Settled cfg ring n { w.nodes n with putting := (w.nodes n).putting.eraseIdx i } :=
    { hnode with putting := fun q hq => hnode.putting q (List.mem_of_mem_eraseIdx hq) }
  dsimp only
  by_cases hself : cfg.hashKey n = cfg.hashKey p.dest
  · rw [← hring.injective hself] at howner
    rw [if_pos hself]
    refine ⟨h.act (herase.insert howner p.value) (by simp), ?_⟩
    refine h.late_insert hring howner rfl rfl ?_
    rw [← Multiset.cons_add]
    congr 1
    · exact w.puts_erase hp _ rfl
    · simp [World.commit]
  · rw [if_neg hself]
    refine ⟨h.act herase (by simpa [Msg.Settled] using howner), ?_⟩
    rw [w.late_send hp _ rfl rfl rfl]
    exact .refl

/-! ## Every step of the ring -/

/-- What a `Put` issues when its lookup returns. -/
def DhtEvent.write : DhtEvent N V → Option (Nat × V)
  | .put _ key value => some (key, value)
  | _ => none

theorem World.Settled.quiet (h : (w.commit n e).Settled cfg ring) (hquiet : e.Quiet (w.nodes n)) :
    (w.commit n e).Settled cfg ring ∧ LateMap.Trace w.late [] (w.commit n e).late := by
  refine ⟨h, ?_⟩
  rw [World.late_quiet hquiet w.net rfl]
  exact .refl

theorem stabilize_quiet {node : Node N V} (he : stabilize node = some e) : e.Quiet node := by
  unfold stabilize at he
  split at he
  · cases he
  · cases he
    exact ⟨rfl, rfl, by simp⟩
  · cases he
    exact ⟨rfl, rfl, by simp [Msg.write]⟩

theorem stabilizeResume_quiet {node : Node N V} (he : stabilizeResume cfg n node = some e) : e.Quiet node := by
  unfold stabilizeResume at he
  split at he
  · rw [refresh_eq] at he
    cases he
    exact ⟨rfl, rfl, by simp [Msg.write]⟩
  · cases he

theorem plain_trace (hring : RingOrder cfg ring) (h : w.Settled cfg ring) {ev : Event N V}
    (hplain : (GetEvent.chord ev).plain) (hstep : step cfg w ev = some w') :
    w'.Settled cfg ring ∧ LateMap.Trace w.late [] w'.late := by
  cases ev with
  | request n dest id => cases hplain
  | join n member successor => cases hplain
  | put n key value answer => cases hplain
  | stabilize n =>
    obtain ⟨e, he, rfl⟩ := Option.map_eq_some_iff.mp hstep
    exact (h.stabilize hring he).quiet (stabilize_quiet he)
  | resume n =>
    obtain ⟨e, he, rfl⟩ := Option.map_eq_some_iff.mp hstep
    exact (h.resume hring he).quiet (stabilizeResume_quiet he)
  | finishPut n i =>
    obtain ⟨e, he, rfl⟩ := Option.map_eq_some_iff.mp hstep
    obtain ⟨hsettled, htrace⟩ := finishPut_trace hring h he
    have hnodes : ((w.record n i).commit n e).nodes = (w.commit n e).nodes := by simp [World.commit]
    have hnet : ((w.record n i).commit n e).net = (w.commit n e).net := by simp [World.commit]
    refine ⟨⟨by rw [hnodes]; exact hsettled.nodes, by rw [hnet]; exact hsettled.net⟩, ?_⟩
    rwa [World.late_congr hnodes hnet]
  | endTransfer n =>
    obtain ⟨node, hnode, rfl⟩ := Option.map_eq_some_iff.mp hstep
    simp [endTransfer, (h.nodes n).keeps] at hnode
  | deliver k => exact deliver_trace hring h hstep

/-- The lookup of a `Put` has returned. -/
theorem put_trace (hring : RingOrder cfg ring) (h : w.Settled cfg ring) {key : Nat} (value : V) {a : Fin N}
    (howner : Owner cfg ring a key) :
    (w.commit n { node := put cfg n (w.nodes n) key value a }).Settled cfg ring ∧
      LateMap.Trace w.late [(key, value)] (w.commit n { node := put cfg n (w.nodes n) key value a }).late := by
  have hnode := h.nodes n
  obtain ⟨dest, hdest, hput⟩ : ∃ dest, Owner cfg ring dest key ∧ put cfg n (w.nodes n) key value a =
      { w.nodes n with putting := (w.nodes n).putting ++ [⟨key, value, dest⟩] } := by
    unfold put
    obtain ⟨b, hfound, hb⟩ | ⟨b, hremote, -⟩ := h.findSuccessor_cases hring n howner.1
    · rw [hfound]
      exact ⟨b, hb, rfl⟩
    · rw [hremote]
      exact ⟨a, howner, rfl⟩
  rw [hput]
  refine ⟨h.act { hnode with putting := ?_ } (by simp), ?_⟩
  · intro p hp
    rcases List.mem_append.mp hp with hp | hp
    · exact hnode.putting p hp
    · rw [List.mem_singleton.mp hp]
      exact hdest
  · generalize he : ({ node := { w.nodes n with putting := (w.nodes n).putting ++ [⟨key, value, dest⟩] } } :
      Effect N V) = e
    have hputs : (w.commit n e).puts = (key, value) ::ₘ w.puts := by
      have hcommit := w.puts_commit n e
      have happend : (↑(e.node.putting.map Insertion.write) : Multiset (Nat × V)) =
          (key, value) ::ₘ ↑((w.nodes n).putting.map Insertion.write) := by
        simp [← he, Insertion.write, ← Multiset.coe_add, add_comm, Multiset.singleton_add]
      rw [happend, Multiset.add_cons, ← Multiset.cons_add, add_left_inj] at hcommit
      exact hcommit
    have hlate : (w.commit n e).late = ⟨w.late.values, (key, value) ::ₘ w.late.waiting⟩ := by
      rw [World.late, World.contents_commit_same (by rw [← he]), hputs, Multiset.cons_add]
      simp [World.commit, ← he, World.late]
    rw [hlate]
    exact LateMap.Trace.refl.issue (key, value)

end Steps

/-! ## The calls of `Get` -/

section Gets

variable {ring : List (Fin N)} {w w' : GetWorld N V} {n : Fin N}

theorem stepGet_world {i : Nat} {c : Call N} {m : GetMove N} (h : stepGet cfg w i c m = some w') :
    w'.world = w.world := by
  cases m with
  | found answer =>
    simp only [stepGet] at h
    split_ifs at h
    split at h <;> cases h <;> rfl
  | ask sent =>
    simp only [stepGet] at h
    split at h
    · split_ifs at h
      · cases h
        rfl
      · cases h
        cases sent <;> rfl
    · cases h
  | receive =>
    simp only [stepGet] at h
    split at h
    · cases h
      rfl
    · cases h
  | timeout =>
    simp only [stepGet] at h
    split at h
    · cases h
    · cases h
      rfl

/-- A step of `Get` leaves the map alone. -/
theorem get_trace (hring : RingOrder cfg ring) (h : w.world.Settled cfg ring) {ev : GetEvent N V} (hplain : ev.plain)
    (hact : getAct cfg w ev = some w') :
    w'.world.Settled cfg ring ∧ LateMap.Trace w.world.late [] w'.world.late := by
  have hsame (heq : w'.world = w.world) :
      w'.world.Settled cfg ring ∧ LateMap.Trace w.world.late [] w'.world.late := by
    rw [heq]
    exact ⟨h, .refl⟩
  cases ev with
  | chord ev =>
    obtain ⟨world, hstep, rfl⟩ := Option.map_eq_some_iff.mp hact
    exact plain_trace hring h hplain hstep
  | call n key =>
    cases hact
    exact hsame rfl
  | move i m =>
    obtain ⟨c, -, hact⟩ := Option.bind_eq_some_iff.mp hact
    exact hsame (stepGet_world hact)
  | deliverAsk j =>
    obtain ⟨q, -, hact⟩ := Option.bind_eq_some_iff.mp hact
    rw [Option.ite_none_left_eq_some, Option.some.injEq] at hact
    obtain ⟨-, rfl⟩ := hact
    exact hsame rfl
  | deliverGive j =>
    obtain ⟨g, -, hact⟩ := Option.bind_eq_some_iff.mp hact
    rw [Option.ite_none_left_eq_some] at hact
    obtain ⟨-, hact⟩ := hact
    unfold chordGiveKVCallback at hact
    split_ifs at hact
    split at hact
    · split_ifs at hact
      cases hact
      exact hsame rfl
    · -- The lock is lost, and nothing else.
      cases hact
      have hnode := h.nodes g.destination
      have hquiet := (h.act (e := { node := { w.world.nodes g.destination with chMutexHeld := true } }) { hnode with }
        (by simp)).quiet ⟨rfl, rfl, by simp⟩
      simpa [World.commit] using hquiet

theorem lookupReturns_late (hring : RingOrder cfg ring) {w w' : World N V} (h : w.Settled cfg ring) {id : Nat}
    {a : Fin N} (hid : id < 2 ^ cfg.chordBits) (hreturns : lookupReturns cfg w n id = some (w', a)) :
    w'.Settled cfg ring ∧ Owner cfg ring a id ∧ w'.late = w.late := by
  obtain ⟨hsettled, howner, ch, rfl⟩ := h.lookupReturns hring hid hreturns
  exact ⟨hsettled, howner, World.late_quiet ⟨rfl, rfl, by simp⟩ w.net rfl⟩

/-- What is known of a call that waits for its lookup. -/
def Hashed (cfg : Config N) (w : GetWorld N V) : Prop := ∀ c ∈ w.calls, c.key < 2 ^ cfg.chordBits

/-- A step of the ring keeps it settled and is a step of the map. -/
theorem dhtAct_trace (hring : RingOrder cfg ring) (h : w.world.Settled cfg ring) {ev : DhtEvent N V}
    (hev : ev.Hashed cfg) (hcalls : Hashed cfg w) (hact : dhtAct cfg w ev = some w') :
    w'.world.Settled cfg ring ∧ LateMap.Trace w.world.late ev.write.toList w'.world.late := by
  cases ev with
  | ask n id =>
    simp only [dhtAct] at hact
    split at hact
    · next nStar hremote =>
      obtain ⟨world, hstep, rfl⟩ := Option.map_eq_some_iff.mp hact
      obtain ⟨e, he, rfl⟩ := Option.map_eq_some_iff.mp hstep
      refine (h.ask hring hev hremote he).quiet ?_
      unfold findSuccessorRemote at he
      split_ifs at he
      cases he
      exact ⟨rfl, rfl, by simp [Msg.write]⟩
    · cases hact
  | lookup n id =>
    obtain ⟨⟨world, a⟩, hreturns, rfl⟩ := Option.map_eq_some_iff.mp hact
    obtain ⟨hsettled, -, hlate⟩ := lookupReturns_late hring h hev hreturns
    dsimp only
    rw [hlate]
    exact ⟨hsettled, .refl⟩
  | fixFinger n i =>
    obtain ⟨⟨world, a⟩, hreturns, hact⟩ := Option.bind_eq_some_iff.mp hact
    obtain ⟨fingerTable, hinsert, rfl⟩ := Option.map_eq_some_iff.mp hact
    obtain ⟨hsettled, howner, hlate⟩ := lookupReturns_late hring h (cfg.fingerId_lt n i) hreturns
    dsimp only
    rw [← hlate]
    exact (hsettled.fixFinger hring howner hinsert).quiet ⟨rfl, rfl, by simp⟩
  | put n key value =>
    obtain ⟨⟨world, a⟩, hreturns, hact⟩ := Option.bind_eq_some_iff.mp hact
    dsimp only [getAct] at hact
    obtain ⟨world', hstep, rfl⟩ := Option.map_eq_some_iff.mp hact
    obtain ⟨hsettled, howner, hlate⟩ := lookupReturns_late hring h hev hreturns
    cases hstep
    dsimp only
    rw [← hlate]
    exact put_trace hring hsettled value howner
  | locate i =>
    obtain ⟨c, hc, hact⟩ := Option.bind_eq_some_iff.mp hact
    obtain ⟨⟨world, a⟩, hreturns, hact⟩ := Option.bind_eq_some_iff.mp hact
    dsimp only [getAct] at hact
    obtain ⟨c', -, hact⟩ := Option.bind_eq_some_iff.mp hact
    obtain ⟨hsettled, -, hlate⟩ := lookupReturns_late hring h (hcalls c (List.mem_of_getElem? hc)) hreturns
    rw [stepGet_world hact, hlate]
    exact ⟨hsettled, .refl⟩
  | giveUp n =>
    cases hact
    have hnode := h.nodes n
    exact (h.act { hnode with round := by simp } (by simp)).quiet ⟨rfl, rfl, by simp⟩
  | other ev =>
    simp only [dhtAct] at hact
    split_ifs at hact with hplain
    exact get_trace hring h hplain hact

end Gets

/-! ## What the calls have read -/

section Answers

variable {ring : List (Fin N)} {w w' : GetWorld N V} {n : Fin N}

/-- A step that begins in the same stores. -/
theorem Advance.of_world {e : GetEvent N V} {world : World N V}
    (hstore : ∀ m, (world.nodes m).blockStore = (w.world.nodes m).blockStore)
    (h : Advance cfg { w with world } e w') : Advance cfg w e w' := by
  have hread (n : Fin N) (key : Nat) : GetWorld.read { w with world } n key = w.read n key := by
    simp only [GetWorld.read, GetWorld.stores, GetWorld.now, hstore]
  exact
    { located := h.located
      calls := h.calls
      found := h.found
      asks := h.asks
      pending := by
        intro n key a ha
        obtain ha | ⟨hne, q, hq, hn, hkey, ha⟩ := h.pending n key a ha
        · exact .inl ha
        · exact .inr ⟨hne, q, hq, hn, hkey, by rw [ha, hread]⟩
      returned := by
        intro g hg
        obtain hg | ⟨c, hc, hn, hkey, hat, ha⟩ := h.returned g hg
        · exact .inl hg
        · refine .inr ⟨c, hc, hn, hkey, hat, ha.imp_right ?_⟩
          rintro ⟨dest, hphase, hown, ha⟩
          exact ⟨dest, hphase, hown, by rw [ha, hread]⟩ }

theorem getAct_located {e : GetEvent N V} (hplain : e.plain) (hact : getAct cfg w e = some w') :
    w'.located = w.located := by
  cases e with
  | chord e =>
    obtain ⟨world, -, rfl⟩ := Option.map_eq_some_iff.mp hact
    rfl
  | call n key =>
    cases hact
    rfl
  | move i m =>
    obtain ⟨c, -, hact⟩ := Option.bind_eq_some_iff.mp hact
    cases m with
    | found answer => cases hplain
    | ask sent =>
      simp only [stepGet] at hact
      split at hact
      · split_ifs at hact
        · cases hact
          rfl
        · cases hact
          cases sent <;> rfl
      · cases hact
    | receive =>
      simp only [stepGet] at hact
      split at hact
      · cases hact
        rfl
      · cases hact
    | timeout =>
      simp only [stepGet] at hact
      split at hact
      · cases hact
      · cases hact
        rfl
  | deliverAsk j =>
    obtain ⟨q, -, hact⟩ := Option.bind_eq_some_iff.mp hact
    rw [Option.ite_none_left_eq_some, Option.some.injEq] at hact
    obtain ⟨-, rfl⟩ := hact
    rfl
  | deliverGive j =>
    obtain ⟨g, -, hact⟩ := Option.bind_eq_some_iff.mp hact
    rw [Option.ite_none_left_eq_some] at hact
    obtain ⟨-, hact⟩ := hact
    unfold chordGiveKVCallback at hact
    split_ifs at hact
    split at hact
    · split_ifs at hact
      cases hact
      rfl
    · cases hact
      rfl

/-- The calls advance as without the ring, and `Get` goes to owners. -/
theorem dhtAct_advance (hring : RingOrder cfg ring) (h : w.world.Settled cfg ring) {ev : DhtEvent N V}
    (hev : ev.Hashed cfg) (hcalls : Hashed cfg w) (hact : dhtAct cfg w ev = some w') :
    ∃ e, Advance cfg w e w' ∧ (∀ n key, e = .call n key → key < 2 ^ cfg.chordBits) ∧
      ∀ x ∈ w'.located, x ∈ w.located ∨ Owner cfg ring x.2.2 x.2.1 := by
  have hworld (world : World N V) (e : Event N V) : ∃ e, Advance cfg w e { w with world } ∧
      (∀ n key, e = .call n key → key < 2 ^ cfg.chordBits) ∧
        ∀ x ∈ w.located, x ∈ w.located ∨ Owner cfg ring x.2.2 x.2.1 :=
    ⟨.chord e, .of_subset rfl (fun _ hc => hc) (fun _ hq => hq) (fun _ _ _ ha => ha) rfl, nofun,
      fun _ hx => .inl hx⟩
  cases ev with
  | ask n id =>
    simp only [dhtAct] at hact
    split at hact
    · obtain ⟨world, -, rfl⟩ := Option.map_eq_some_iff.mp hact
      exact hworld world (.stabilize n)
    · cases hact
  | lookup n id =>
    obtain ⟨⟨world, a⟩, -, rfl⟩ := Option.map_eq_some_iff.mp hact
    exact hworld world (.stabilize n)
  | fixFinger n i =>
    obtain ⟨⟨world, a⟩, -, hact⟩ := Option.bind_eq_some_iff.mp hact
    obtain ⟨fingerTable, -, rfl⟩ := Option.map_eq_some_iff.mp hact
    exact hworld _ (.stabilize n)
  | put n key value =>
    obtain ⟨⟨world, a⟩, -, hact⟩ := Option.bind_eq_some_iff.mp hact
    dsimp only [getAct] at hact
    obtain ⟨world', -, rfl⟩ := Option.map_eq_some_iff.mp hact
    exact hworld world' (.stabilize n)
  | locate i =>
    obtain ⟨c, hc, hact⟩ := Option.bind_eq_some_iff.mp hact
    obtain ⟨⟨world, a⟩, hreturns, hact⟩ := Option.bind_eq_some_iff.mp hact
    dsimp only at hact
    have hkey := hcalls c (List.mem_of_getElem? hc)
    obtain ⟨hsettled, howner, ch, hsame⟩ := h.lookupReturns hring hkey hreturns
    have hstore (m : Fin N) : (world.nodes m).blockStore = (w.world.nodes m).blockStore := by
      rw [hsame]
      exact World.commit_store rfl m
    refine ⟨_, (getAct_advance hact).of_world hstore, nofun, ?_⟩
    obtain ⟨c', hc', hact⟩ := Option.bind_eq_some_iff.mp hact
    obtain rfl := Option.some.inj (hc.symm.trans hc')
    simp only [stepGet] at hact
    split_ifs at hact
    obtain ⟨b, hfound, hb⟩ | ⟨b, hremote, -⟩ := hsettled.findSuccessor_cases hring c.node hkey
    · rw [hfound, Option.some.injEq] at hact
      intro x hx
      rw [← hact, GetWorld.locate, List.mem_append, List.mem_singleton] at hx
      rcases hx with hx | rfl
      · exact .inl hx
      · exact .inr hb
    · rw [hremote, Option.some.injEq] at hact
      intro x hx
      rw [← hact, GetWorld.locate, List.mem_append, List.mem_singleton] at hx
      rcases hx with hx | rfl
      · exact .inl hx
      · exact .inr howner
  | giveUp n =>
    cases hact
    exact hworld _ (.stabilize n)
  | other e =>
    simp only [dhtAct] at hact
    split_ifs at hact with hplain
    refine ⟨e, getAct_advance hact, ?_, ?_⟩
    · rintro n key rfl
      exact hev
    · rw [getAct_located hplain hact]
      exact fun _ hx => .inl hx

/-- The answer was read from the store of the owner. -/
def ReadAtOwner (cfg : Config N) (ring : List (Fin N)) (w : GetWorld N V) (key : Nat) (a : Answer N V) : Prop :=
  Owner cfg ring a.owner key ∧ ∃ stores, w.history[a.readAt]? = some stores ∧ stores a.owner key = a.value

structure Told (cfg : Config N) (ring : List (Fin N)) (w : GetWorld N V) : Prop where
  hashed : Hashed cfg w
  located : ∀ x ∈ w.located, Owner cfg ring x.2.2 x.2.1
  found : ∀ c ∈ w.calls, ∀ dest, c.phase = .found dest → Owner cfg ring dest c.key
  asked : ∀ q ∈ w.asks, Owner cfg ring q.destination q.key
  pending : ∀ n key a, w.Pending n key a → ReadAtOwner cfg ring w key a
  returned : ∀ g ∈ w.returned, ReadAtOwner cfg ring w g.key g.answer

theorem told_initial (world : World N V) : Told cfg ring (.initial world) where
  hashed := fun _ hc => by cases hc
  located := fun _ hx => by cases hx
  found := fun _ hc => by cases hc
  asked := fun _ hq => by cases hq
  pending := by
    rintro n key a (ha | ⟨g, hg, -⟩)
    · cases ha
    · cases hg
  returned := fun _ hg => by cases hg

theorem Told.step (hring : RingOrder cfg ring) (hsettled : w.world.Settled cfg ring) (h : Told cfg ring w)
    {ev : DhtEvent N V} (hev : ev.Hashed cfg) (hact : dhtAct cfg w ev = some w') :
    Told cfg ring { w' with history := w.history ++ [w.stores] } := by
  obtain ⟨e, hadv, hcall, hlocated⟩ := dhtAct_advance hring hsettled hev h.hashed hact
  have howned : ∀ x ∈ w'.located, Owner cfg ring x.2.2 x.2.1 := fun x hx => (hlocated x hx).elim (h.located x) id
  -- What was read stays read, and what is read now is in the new history.
  have hold {key : Nat} {a : Answer N V} (ha : ReadAtOwner cfg ring w key a) :
      ReadAtOwner cfg ring { w' with history := w.history ++ [w.stores] } key a := by
    obtain ⟨howner, stores, hread, hvalue⟩ := ha
    exact ⟨howner, stores, getElem?_snoc_of_some _ hread, hvalue⟩
  have hnew {key : Nat} {owner : Fin N} (howner : Owner cfg ring owner key) :
      ReadAtOwner cfg ring { w' with history := w.history ++ [w.stores] } key (w.read owner key) :=
    ⟨howner, w.stores, List.getElem?_concat_length, rfl⟩
  exact
    { hashed := by
        intro c' hc'
        obtain ⟨c, hc, -, hkey, -⟩ | ⟨rfl, -⟩ := hadv.calls c' hc'
        · rw [← hkey]
          exact h.hashed c hc
        · exact hcall _ _ rfl
      located := howned
      found := by
        intro c' hc' dest hphase
        obtain hc | hx := hadv.found c' hc' dest hphase
        · exact h.found c' hc dest hphase
        · exact howned _ hx
      asked := by
        intro q hq
        obtain hq | ⟨c, hc, -, hkey, hphase⟩ := hadv.asks q hq
        · exact h.asked q hq
        · rw [← hkey]
          exact h.found c hc _ hphase
      pending := by
        intro n key a ha
        obtain ha | ⟨-, q, hq, -, rfl, rfl⟩ := hadv.pending n key a ha
        · exact hold (h.pending n key a ha)
        · exact hnew (h.asked q hq)
      returned := by
        intro g hg
        obtain hg | ⟨c, hc, -, hkey, -, hanswer⟩ := hadv.returned g hg
        · exact hold (h.returned g hg)
        · rw [hkey]
          obtain ha | ⟨dest, hphase, hown, ha⟩ := hanswer
          · exact hold (h.pending _ _ _ ha)
          · have hdest := h.found c hc dest hphase
            rw [← hring.injective hown] at hdest
            rw [ha]
            exact hnew hdest }

/-- The stores that the history lists are those of the states of the run. -/
def Recorded (cfg : Config N) (w₀ : GetWorld N V) (es : List (DhtEvent N V)) (w : GetWorld N V) : Prop :=
  w.now = es.length ∧ ∀ t stores, w.history[t]? = some stores →
    ∃ v, run (dhtStep cfg) w₀ (es.take t) = some v ∧ v.stores = stores

theorem Recorded.step {w₀ : GetWorld N V} {es : List (DhtEvent N V)} {ev : DhtEvent N V} (h : Recorded cfg w₀ es w)
    (hrun : run (dhtStep cfg) w₀ es = some w) :
    Recorded cfg w₀ (es ++ [ev]) { w' with history := w.history ++ [w.stores] } := by
  obtain ⟨hnow, hhistory⟩ := h
  unfold GetWorld.now at hnow
  refine ⟨by simp [GetWorld.now, hnow], ?_⟩
  intro t stores ht
  rcases getElem?_snoc_cases ht with ⟨hlt, ht⟩ | ⟨rfl, rfl⟩
  · obtain ⟨v, hv, heq⟩ := hhistory t stores ht
    exact ⟨v, by rw [List.take_append_of_le_length (by omega)]; exact hv, heq⟩
  · refine ⟨w, ?_, rfl⟩
    rw [hnow, List.take_left]
    exact hrun

end Answers

/-! ## Every run -/

structure RingRun (cfg : Config N) (ring : List (Fin N)) (w₀ : GetWorld N V) (es : List (DhtEvent N V))
    (w : GetWorld N V) : Prop where
  settled : w.world.Settled cfg ring
  told : Told cfg ring w
  recorded : Recorded cfg w₀ es w
  trace : LateMap.Trace w₀.world.late (es.filterMap DhtEvent.write) w.world.late

theorem ringRun {ring : List (Fin N)} (hring : RingOrder cfg ring) {w₀ : World N V} (hrest : Resting cfg ring w₀)
    {es : List (DhtEvent N V)} (hkeys : ∀ e ∈ es, e.Hashed cfg) {w : GetWorld N V}
    (hrun : run (dhtStep cfg) (.initial w₀) es = some w) : RingRun cfg ring (.initial w₀) es w := by
  revert hkeys
  refine run_snoc_induction
    (motive := fun es w => (∀ e ∈ es, e.Hashed cfg) → RingRun cfg ring (.initial w₀) es w) ?_ ?_ es hrun
  · intro _
    exact ⟨hrest.settled, told_initial w₀, ⟨rfl, fun _ _ h => by cases h⟩, .refl⟩
  · intro es ev w w' hrun ih hstep hkeys
    obtain ⟨hsettled, htold, hrecorded, htrace⟩ := ih fun e he => hkeys e (List.mem_append_left _ he)
    have hev := hkeys ev (by simp)
    obtain ⟨w₁, hact, rfl⟩ := Option.map_eq_some_iff.mp hstep
    obtain ⟨hsettled', htrace'⟩ := dhtAct_trace hring hsettled hev htold.hashed hact
    refine ⟨hsettled', htold.step hring hsettled hev hact, hrecorded.step hrun, ?_⟩
    have hwrites : [ev].filterMap DhtEvent.write = ev.write.toList := by
      cases hwrite : ev.write <;> simp [hwrite]
    rw [List.filterMap_append, hwrites]
    exact htrace.trans htrace'

/-- Node 1 looks up the key 0 through node 2 and writes it, and node 2 gets it from node 0 before and after
the write has come there. -/
def ringPut : List (DhtEvent 3 Nat) :=
  [.ask 1 0, .other (.chord (.deliver 0)), .other (.chord (.deliver 0)), .put 1 0 7,
    .other (.chord (.finishPut 1 0)), .other (.call 2 0), .locate 0, .other (.move 0 (.ask true)),
    .other (.deliverAsk 0), .other (.deliverGive 0), .other (.move 0 .receive), .other (.chord (.deliver 0)),
    .other (.call 2 0), .locate 0, .other (.move 0 (.ask true)), .other (.deliverAsk 0), .other (.deliverGive 0),
    .other (.move 0 .receive)]

theorem sampleRing_resting : Resting sampleConfig [0, 1, 2] sampleRing where
  ideal := ⟨by decide, by decide, by decide⟩
  fingers n := ⟨by revert n; decide, by revert n; decide, by revert n; decide⟩
  idle := ⟨rfl, fun _ => rfl, fun _ _ => rfl, fun _ => rfl⟩
  round := fun _ => rfl
  asked := fun _ => rfl
  putting := fun _ => rfl
  stored := fun _ _ h => (h rfl).elim

end MarketPeer.Chord

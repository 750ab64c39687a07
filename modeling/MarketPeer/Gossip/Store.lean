import MarketPeer.Gossip.Model
import MarketPeer.Lib.MapTotal

/-!
# The store of rumors, and their delivery

A rumor is stored when it is the next one of its origin, and a broadcast is the next
one of the node itself. Both put one rumor behind the others and change nothing else.
-/

namespace MarketPeer.Gossip

/-! ## One more rumor -/

namespace Store

/-- `rumors` has as many rumors of an origin as `seqs` says, numbered from one. -/
structure Ok (s : Store) : Prop where
  length : ∀ o, (s.rumorsOf o).length = (s.seq o).toNat
  small : ∀ o, (s.rumorsOf o).length < 2 ^ 63
  numbered : ∀ o i r, (s.rumorsOf o)[i]? = some r → r.origin = o ∧ r.sequence.toNat = i + 1

/-- An origin is in both maps or in none, and never with no rumor. -/
structure Listed (s : Store) : Prop where
  both : ∀ o, s.rumors.contains o = s.seqs.contains o
  positive : ∀ (o : String) (n : UInt64), s.seqs[o]? = some n → 0 < n.toNat

def total (s : Store) : Nat := mapTotal List.length s.rumors

/-- `s'` is `s` with the next rumor of an origin. -/
structure Extends (s : Store) (r : Rumor) (s' : Store) : Prop where
  next : r.sequence.toNat = (s.rumorsOf r.origin).length + 1
  small : (s.rumorsOf r.origin).length + 1 < 2 ^ 63
  seqs : s'.seqs = s.seqs.insert r.origin r.sequence
  rumors : s'.rumors = s.rumors.insert r.origin (s.rumorsOf r.origin ++ [r])

namespace Extends

variable {s s' : Store} {r : Rumor} (h : s.Extends r s')
include h

theorem seq (o : String) : s'.seq o = if r.origin = o then r.sequence else s.seq o := by
  unfold Store.seq
  rw [h.seqs, Std.ExtTreeMap.getD_insert]
  simp

theorem rumorsOf (o : String) :
    s'.rumorsOf o = if r.origin = o then s.rumorsOf o ++ [r] else s.rumorsOf o := by
  unfold Store.rumorsOf
  rw [h.rumors, Std.ExtTreeMap.getD_insert]
  by_cases ho : r.origin = o
  · subst ho; simp [Store.rumorsOf]
  · simp [ho]

theorem ok (hok : s.Ok) : s'.Ok := by
  refine ⟨?_, ?_, ?_⟩
  · intro o
    rw [h.seq, h.rumorsOf]
    split_ifs with ho
    · subst ho
      rw [List.length_append, List.length_singleton, h.next]
    · exact hok.length o
  · intro o
    rw [h.rumorsOf]
    split_ifs with ho
    · subst ho
      rw [List.length_append, List.length_singleton]
      exact h.small
    · exact hok.small o
  · intro o i r' hr'
    rw [h.rumorsOf] at hr'
    split_ifs at hr' with ho
    · subst ho
      rw [List.getElem?_append] at hr'
      split_ifs at hr' with hi
      · exact hok.numbered r.origin i r' hr'
      · rw [List.getElem?_singleton] at hr'
        split_ifs at hr' with hi'
        cases hr'
        refine ⟨rfl, ?_⟩
        rw [h.next]
        omega
    · exact hok.numbered o i r' hr'

theorem listed (hl : s.Listed) : s'.Listed := by
  refine ⟨?_, ?_⟩
  · intro o
    rw [h.rumors, h.seqs, Std.ExtTreeMap.contains_insert, Std.ExtTreeMap.contains_insert, hl.both]
  · intro o n hn
    rw [h.seqs, Std.ExtTreeMap.getElem?_insert] at hn
    split_ifs at hn with ho
    · cases hn
      rw [h.next]
      omega
    · exact hl.positive o n hn

theorem total : s'.total = s.total + 1 := by
  have hinsert := mapTotal_insert List.length s.rumors r.origin (s.rumorsOf r.origin ++ [r])
  have hheld : (s.rumors[r.origin]?).elim 0 List.length = (s.rumorsOf r.origin).length := by
    unfold Store.rumorsOf
    rw [Std.ExtTreeMap.getD_eq_getD_getElem?]
    cases s.rumors[r.origin]? <;> rfl
  rw [hheld, List.length_append, List.length_singleton] at hinsert
  unfold Store.total
  rw [h.rumors]
  omega

end Extends

theorem empty_ok : Store.empty.Ok := by
  have hnone : ∀ o, Store.empty.rumorsOf o = [] := fun o => Std.ExtTreeMap.getD_empty
  have hzero : ∀ o, Store.empty.seq o = 0 := fun o => Std.ExtTreeMap.getD_empty
  refine ⟨?_, ?_, ?_⟩
  · intro o
    rw [hnone, hzero]
    rfl
  · intro o
    rw [hnone, List.length_nil]
    omega
  · intro o i r hr
    rw [hnone] at hr
    cases hr

theorem empty_listed : Store.empty.Listed := by
  refine ⟨fun o => rfl, ?_⟩
  intro o n hn
  simp [Store.empty] at hn

theorem rumorsOf_eq_nil {s : Store} (hok : s.Ok) {o : String} (h : s.seqs.contains o = false) :
    s.rumorsOf o = [] ∧ s.seq o = 0 := by
  have hseq : s.seq o = 0 := Std.ExtTreeMap.getD_eq_fallback_of_contains_eq_false h
  refine ⟨?_, hseq⟩
  apply List.eq_nil_of_length_eq_zero
  rw [hok.length, hseq]
  rfl

theorem seq_of_getElem? {s : Store} {o : String} {n : UInt64} (h : s.seqs[o]? = some n) : s.seq o = n := by
  unfold Store.seq
  rw [Std.ExtTreeMap.getD_eq_getD_getElem?, h]
  rfl

theorem toNat_succ {s : Store} (hok : s.Ok) (o : String) : (s.seq o + 1).toNat = (s.rumorsOf o).length + 1 := by
  have hsmall := hok.small o
  rw [hok.length] at hsmall ⊢
  rw [UInt64.toNat_add, UInt64.toNat_one, Nat.mod_eq_of_lt (by omega)]

theorem append_eq_some {s s' : Store} {o : String} {n : UInt64} {held : List Rumor} {r : Rumor}
    (h : s.append o n held r = some s') :
    held.length + 1 < 2 ^ 63 ∧ s' = ⟨s.seqs.insert o n, s.rumors.insert o (held ++ [r])⟩ := by
  unfold Store.append at h
  split_ifs at h with hsmall
  exact ⟨hsmall, (Option.some.inj h).symm⟩

/-- `RumorsMsgCallback` expects the next rumor of an origin. -/
theorem expects_iff {s : Store} (hok : s.Ok) (r : Rumor) :
    s.expects r ↔ r.sequence.toNat = (s.rumorsOf r.origin).length + 1 := by
  unfold Store.expects
  cases hlast : s.seqs[r.origin]? with
  | some lastSeq =>
    rw [decide_eq_true_eq, ← toNat_succ hok, seq_of_getElem? hlast, UInt64.toNat_inj, eq_comm]
  | none =>
    have hcontains : s.seqs.contains r.origin = false := by
      rw [Std.ExtTreeMap.contains_eq_isSome_getElem?, hlast]
      rfl
    rw [(rumorsOf_eq_nil hok hcontains).1, decide_eq_true_eq, ← UInt64.toNat_inj]
    rfl

/-- And stores it. -/
theorem accept_extends {s s' : Store} (hok : s.Ok) {r : Rumor} (hexpects : s.expects r) (h : s.accept r = some s') :
    s.Extends r s' := by
  have hnext := (expects_iff hok r).mp hexpects
  unfold Store.accept at h
  cases hcontains : s.seqs.contains r.origin with
  | true =>
    rw [if_pos hcontains] at h
    obtain ⟨hsmall, rfl⟩ := append_eq_some h
    exact ⟨hnext, hsmall, rfl, rfl⟩
  | false =>
    obtain ⟨hnil, -⟩ := rumorsOf_eq_nil hok hcontains
    rw [hcontains, if_neg (by decide)] at h
    obtain ⟨hsmall, rfl⟩ := append_eq_some h
    have hone : r.sequence = 1 := by
      rw [hnil] at hnext
      exact UInt64.toNat_inj.mp hnext
    refine ⟨hnext, ?_, ?_, ?_⟩
    · rw [hnil]
      exact hsmall
    · rw [hone]
    · rw [hnil]

theorem insert_insert {V : Type} (m : Std.ExtTreeMap String V) (k : String) (v v' : V) :
    (m.insert k v).insert k v' = m.insert k v' := by
  apply Std.ExtTreeMap.ext_getElem?
  intro k'
  simp only [Std.ExtTreeMap.getElem?_insert]
  split_ifs <;> rfl

/-- A broadcast is the next rumor of the node. -/
theorem broadcast_extends {s s' : Store} (hok : s.Ok) {addr : String} {msg : Message}
    (h : s.broadcast addr msg = some s') : s.Extends (.mk addr (s.seq addr + 1) (some msg)) s' := by
  unfold Store.broadcast at h
  cases hcontains : s.seqs.contains addr with
  | true =>
    simp only [hcontains, if_true] at h
    obtain ⟨hsmall, rfl⟩ := append_eq_some h
    exact ⟨toNat_succ hok addr, hsmall, rfl, rfl⟩
  | false =>
    simp only [hcontains, Bool.false_eq_true, if_false] at h
    obtain ⟨hnil, hzero⟩ := rumorsOf_eq_nil hok hcontains
    have hseq : Store.seq ⟨s.seqs.insert addr 0, s.rumors.insert addr []⟩ addr = 0 :=
      Std.ExtTreeMap.getD_insert_self
    have hheld : Store.rumorsOf ⟨s.seqs.insert addr 0, s.rumors.insert addr []⟩ addr = [] :=
      Std.ExtTreeMap.getD_insert_self
    rw [hseq, hheld] at h
    obtain ⟨hsmall, rfl⟩ := append_eq_some h
    rw [hzero]
    refine ⟨?_, ?_, insert_insert .., ?_⟩
    · rw [Rumor.origin, hnil]
      rfl
    · rw [Rumor.origin, hnil]
      exact hsmall
    · rw [Rumor.origin, hnil]
      exact insert_insert ..

end Store

/-! ## What a step does -/

/-- Neither the store nor the record of deliveries has changed. -/
structure Kept (m m' : Messager) : Prop where
  addr : m'.addr = m.addr
  store : m'.store = m.store
  processed : m'.processed = m.processed

namespace Kept

variable {m m' m'' : Messager}

theorem rfl : Kept m m := ⟨Eq.refl _, Eq.refl _, Eq.refl _⟩

theorem trans (h : Kept m m') (h' : Kept m' m'') : Kept m m'' :=
  ⟨h'.addr.trans h.addr, h'.store.trans h.store, h'.processed.trans h.processed⟩

theorem unicast (dest : String) (sent : Sent) : Kept m ((m.unicast dest sent).getD m) := by
  unfold Messager.unicast
  cases m.nextHop dest with
  | none => exact rfl
  | some hop => exact ⟨Eq.refl _, Eq.refl _, Eq.refl _⟩

theorem addNeighbor (addr : String) : Kept m (m.addNeighbor addr) := by
  unfold Messager.addNeighbor
  split_ifs
  · exact rfl
  · exact ⟨Eq.refl _, Eq.refl _, Eq.refl _⟩

theorem setRoutingEntry (origin relayAddr : String) : Kept m (m.setRoutingEntry origin relayAddr) := by
  unfold Messager.setRoutingEntry
  split_ifs
  · exact ⟨Eq.refl _, Eq.refl _, Eq.refl _⟩
  · exact ⟨Eq.refl _, Eq.refl _, Eq.refl _⟩

theorem process (relayedBy packetID : String) (msg : Message) :
    Kept m (Gossip.process m relayedBy packetID msg) := by
  unfold Gossip.process
  cases opened m.addr msg with
  | none => exact rfl
  | some rumors => exact ⟨Eq.refl _, Eq.refl _, Eq.refl _⟩

theorem finish (call : Call) (randNei : String) : Kept m (Gossip.finish m call randNei) := by
  have hack := Kept.unicast (m := m) call.relayedBy (.ack call.packetID m.store.seqs)
  unfold Gossip.finish
  cases h : m.unicast call.relayedBy (.ack call.packetID m.store.seqs) with
  | none => exact rfl
  | some m₁ =>
    rw [h] at hack
    simp only
    split_ifs
    · exact hack.trans (unicast ..)
    · exact hack

theorem statusMsgCallback (other : String) (otherView : StatusMessage) (order : List String)
    (mongers : Option String) : Kept m (Gossip.statusMsgCallback m other otherView order mongers) := by
  unfold Gossip.statusMsgCallback
  split
  · exact unicast ..
  · split_ifs
    · exact rfl
    · exact unicast ..
  · exact rfl

end Kept

/-- A step leaves the store as it is, stores a rumor and hands it on, or stores one of the node itself. -/
inductive Moves (m m' : Messager) : Prop where
  | kept (h : Kept m m')
  | delivers (r : Rumor) (addr : m'.addr = m.addr) (store : m.store.Extends r m'.store)
      (processed : m'.processed = m.processed ++ [r])
  | broadcasts (r : Rumor) (own : r.origin = m.addr) (addr : m'.addr = m.addr) (store : m.store.Extends r m'.store)
      (processed : m'.processed = m.processed)

theorem Moves.then_kept {m m' m'' : Messager} (h : Moves m m') (hk : Kept m' m'') : Moves m m'' := by
  cases h with
  | kept h => exact .kept (h.trans hk)
  | delivers r addr store processed =>
    exact .delivers r (hk.addr.trans addr) (hk.store ▸ store) (hk.processed.trans processed)
  | broadcasts r own addr store processed =>
    exact .broadcasts r own (hk.addr.trans addr) (hk.store ▸ store) (hk.processed.trans processed)

theorem nextRumor_moves {m m' : Messager} (hok : m.store.Ok) {call : Call} {rumor : Rumor} {rest : List Rumor}
    {outer : List Call} (h : nextRumor m call rumor rest outer = some m') : Moves m m' := by
  unfold nextRumor at h
  split_ifs at h with hexpects
  · obtain ⟨store, hstore, rfl⟩ := Option.map_eq_some_iff.mp h
    have hdelivers : Moves m { m with store, processed := m.processed ++ [rumor] } :=
      .delivers rumor rfl (Store.accept_extends hok hexpects hstore) rfl
    have hrouted := hdelivers.then_kept (.setRoutingEntry rumor.origin call.relayedBy)
    cases hmsg : rumor.msg with
    | none => exact hrouted.then_kept ⟨rfl, rfl, rfl⟩
    | some msg =>
      refine Moves.then_kept ?_ (.process ..)
      exact hrouted.then_kept ⟨rfl, rfl, rfl⟩
  · cases h
    exact .kept ⟨rfl, rfl, rfl⟩

theorem step_moves {m m' : Messager} (hok : m.store.Ok) {ev : Event} (h : step m ev = some m') : Moves m m' := by
  cases ev with
  | broadcast msg =>
    obtain ⟨store, hstore, rfl⟩ := Option.map_eq_some_iff.mp h
    exact .broadcasts _ rfl rfl (Store.broadcast_extends hok hstore) rfl
  | receive relayedBy packetID msg =>
    simp only [step] at h
    split_ifs at h
    cases h
    exact .kept ((Kept.addNeighbor relayedBy).trans (.process ..))
  | nextRumor =>
    simp only [step] at h
    split at h
    · cases h
    · split at h
      · cases h
      · exact nextRumor_moves hok h
  | done randNei =>
    simp only [step] at h
    split at h
    · cases h
    · rename_i call outer _
      split_ifs at h
      cases h
      have hpopped : Kept m { m with calls := outer } := ⟨rfl, rfl, rfl⟩
      exact .kept (hpopped.trans (.finish call randNei))
  | receiveStatus relayedBy other otherView order mongers =>
    simp only [step] at h
    split_ifs at h
    cases h
    exact .kept ((Kept.addNeighbor relayedBy).trans (.statusMsgCallback ..))

/-! ## Every run -/

/-- The store is in order, and every rumor of another origin was handed on when it was stored. -/
structure Delivered (node : String) (m : Messager) : Prop where
  addr : m.addr = node
  ok : m.store.Ok
  listed : m.store.Listed
  processed : ∀ o, o ≠ node → m.processed.filter (·.origin = o) = m.store.rumorsOf o

theorem delivered_init (addr : String) : Delivered addr (newMessager addr) where
  addr := rfl
  ok := Store.empty_ok
  listed := Store.empty_listed
  processed _ _ := rfl

theorem delivered_step (addr : String) (m : Messager) (ev : Event) (m' : Messager) (hinv : Delivered addr m)
    (h : step m ev = some m') : Delivered addr m' := by
  cases step_moves hinv.ok h with
  | kept hk =>
    exact ⟨hk.addr.trans hinv.addr, hk.store ▸ hinv.ok, hk.store ▸ hinv.listed, by
      rw [hk.store, hk.processed]; exact hinv.processed⟩
  | delivers r haddr hstore hprocessed =>
    refine ⟨haddr.trans hinv.addr, hstore.ok hinv.ok, hstore.listed hinv.listed, ?_⟩
    intro o ho
    rw [hprocessed, hstore.rumorsOf, List.filter_append, hinv.processed o ho]
    split_ifs with hr
    · simp [hr]
    · simp [hr]
  | broadcasts r hown haddr hstore hprocessed =>
    refine ⟨haddr.trans hinv.addr, hstore.ok hinv.ok, hstore.listed hinv.listed, ?_⟩
    intro o ho
    have hr : r.origin ≠ o := by
      rw [hown, hinv.addr]
      exact Ne.symm ho
    rw [hprocessed, hstore.rumorsOf, if_neg hr]
    exact hinv.processed o ho

/-- In every run, `rumors[o]` has the rumors 1 to `seqs[o]` of every origin, and the messages handed
on for an origin that is not the node are these, once each and in their order. -/
theorem gossip_store_and_delivery (addr : String) (es : List Event) (m : Messager)
    (hrun : run step (newMessager addr) es = some m) (o : String) :
    (m.store.rumorsOf o).length = (m.store.seq o).toNat ∧
    (∀ i r, (m.store.rumorsOf o)[i]? = some r → r.origin = o ∧ r.sequence.toNat = i + 1) ∧
    (o ≠ addr → m.processed.filter (·.origin = o) = m.store.rumorsOf o) := by
  have hinv : Delivered addr m :=
    run_preserves (Delivered addr) (delivered_step addr) es (delivered_init addr) hrun
  exact ⟨hinv.ok.length o, hinv.ok.numbered o, hinv.processed o⟩

def chat (origin : String) (sequence : UInt64) : Rumor := .mk origin sequence (some (.payload "hello"))

/-- Node A broadcasts, and gets a message with a gap, a rumor of C inside one of B, and a duplicate;
it broadcasts again before it is through. -/
def gossipRun : List Event :=
  [.broadcast (.payload "a"),
    .receive "B" "1" (.rumors [chat "B" 1, chat "B" 3, .mk "B" 2 (some (.rumors [chat "C" 1])), chat "B" 2]),
    .nextRumor, .nextRumor, .broadcast (.payload "b"), .nextRumor, .nextRumor, .done "B", .nextRumor, .done "B",
    .receive "B" "2" (.rumors [chat "B" 3, chat "A" 2]), .nextRumor, .nextRumor, .done "B"]

theorem gossipRun_delivers :
    ∃ m, run step (newMessager "A") gossipRun = some m ∧ (m.store.rumorsOf "B").length = 3 ∧
      m.processed.length = 4 ∧ m.processed.filter (·.origin = "B") = m.store.rumorsOf "B" ∧
      m.processed.filter (·.origin = "C") = m.store.rumorsOf "C" := by
  have hcheck : (run step (newMessager "A") gossipRun).any (fun m =>
      (m.store.rumorsOf "B").length = 3 ∧ m.processed.length = 4) = true := by decide
  obtain ⟨m, hrun, hm⟩ := (Option.any_eq_true ..).mp hcheck
  obtain ⟨hlength, hprocessed⟩ := of_decide_eq_true hm
  refine ⟨m, hrun, hlength, hprocessed, ?_, ?_⟩
  · exact (gossip_store_and_delivery "A" gossipRun m hrun "B").2.2 (by decide)
  · exact (gossip_store_and_delivery "A" gossipRun m hrun "C").2.2 (by decide)

end MarketPeer.Gossip

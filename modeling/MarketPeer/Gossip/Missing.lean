import Mathlib.Data.List.Infix
import MarketPeer.Lib.Counting
import MarketPeer.Gossip.AntiEntropy

/-!
# What a status is answered with

The rumors of a `StatusMsgCallback`: a slice of ten, made by appending the parts of the
origins one after the other. Only a slice that has been filled holds nothing but rumors.
-/

namespace MarketPeer.Gossip

/-! ## Slices -/

/-- `l[low:high]`; `none` is out of range. -/
def sliceRange {α : Type} (l : List α) (low high : Nat) : Option (List α) :=
  if low ≤ high ∧ high ≤ l.length then some ((l.take high).drop low) else none

/-- A slice with the capacity of its array. -/
structure Slice (α : Type) where
  elems : List α
  cap : Nat
  fits : elems.length ≤ cap

namespace Slice

variable {α : Type}

/-- `make([]T, 0, cap)`. -/
def make (α : Type) (cap : Nat) : Slice α := ⟨[], cap, Nat.zero_le _⟩

/-- `grow` is the capacity that a new array gets beyond what it has to hold. -/
def append (grow : Nat → Nat) (s : Slice α) (more : List α) : Slice α :=
  if h : s.elems.length + more.length ≤ s.cap then ⟨s.elems ++ more, s.cap, by rwa [List.length_append]⟩
  else ⟨s.elems ++ more, (s.elems ++ more).length + grow s.cap, Nat.le_add_right _ _⟩

/-- `s[:n]`: up to the capacity, with the zero values behind the elements. -/
def upTo (zero : α) (s : Slice α) (n : Nat) : Option (List α) :=
  if n ≤ s.cap then some ((s.elems ++ List.replicate (s.cap - s.elems.length) zero).take n) else none

@[simp] theorem append_elems (grow : Nat → Nat) (s : Slice α) (more : List α) :
    (s.append grow more).elems = s.elems ++ more := by
  unfold append
  split_ifs <;> rfl

theorem append_cap (grow : Nat → Nat) (s : Slice α) (more : List α) : s.cap ≤ (s.append grow more).cap := by
  unfold append
  split_ifs with h
  · exact Nat.le_refl _
  · dsimp only
    rw [List.length_append]
    omega

theorem foldl_append (grow : Nat → Nat) {β : Type} (f : β → List α) (xs : List β) (s : Slice α) :
    (xs.foldl (fun s x => s.append grow (f x)) s).elems = s.elems ++ xs.flatMap f ∧
      s.cap ≤ (xs.foldl (fun s x => s.append grow (f x)) s).cap := by
  induction xs generalizing s with
  | nil => simp
  | cons x xs ih =>
    obtain ⟨helems, hcap⟩ := ih (s.append grow (f x))
    have hgrown := append_cap grow s (f x)
    rw [List.foldl_cons, helems, append_elems, List.flatMap_cons, List.append_assoc]
    exact ⟨rfl, hgrown.trans hcap⟩

end Slice

/-- `otherMissingRumors`, and its first ten elements. -/
def collect (grow : Nat → Nat) (missing : Std.ExtTreeMap String (List Rumor)) (order : List String) :
    Option (List Rumor) :=
  (order.foldl (fun s p => s.append grow (missing.getD p [])) (Slice.make Rumor 10)).upTo .zero 10

theorem firstTen_of_full {l : List Rumor} (h : 10 ≤ l.length) : firstTen l = l.take 10 :=
  List.take_append_of_le_length h

theorem upTo_ten (s : Slice Rumor) (h : 10 ≤ s.cap) : s.upTo .zero 10 = some (firstTen s.elems) := by
  unfold Slice.upTo firstTen
  rw [if_pos h, Option.some.injEq, List.take_append, List.take_append, List.take_replicate, List.take_replicate]
  congr 2
  omega

/-- The slice of ten is in range however the array grows. -/
theorem collect_eq (grow : Nat → Nat) (missing : Std.ExtTreeMap String (List Rumor)) (order : List String) :
    collect grow missing order = some (firstTen (order.flatMap fun p => missing.getD p [])) := by
  obtain ⟨helems, hcap⟩ := Slice.foldl_append grow (fun p => missing.getD p []) order (Slice.make Rumor 10)
  unfold collect
  rw [upTo_ten _ hcap, helems]
  rfl

/-! ## What is missing -/

/-- The rumors of an origin that the other node lacks. -/
def missingOf (s : Store) (otherView : StatusMessage) (o : String) : List Rumor :=
  (s.rumorsOf o).drop (otherView.getD o 0).toNat

def totalMissing (s : Store) (otherView : StatusMessage) : Nat :=
  (s.seqs.keys.map fun o => (s.seq o).toNat - (otherView.getD o 0).toNat).sum

/-- The other node has all that this one has. -/
def Covers (otherView : StatusMessage) (s : Store) : Prop :=
  ∀ (o : String) (lastSeq : UInt64), s.seqs[o]? = some lastSeq →
    ∃ otherLastSeq, otherView[o]? = some otherLastSeq ∧ lastSeq ≤ otherLastSeq

/-- The message holds up to ten rumors that the other node lacks, of each origin a run that begins with
the next one. -/
structure SendsMissing (s : Store) (otherView : StatusMessage) (msg : List Rumor) : Prop where
  atLeast : 1 ≤ msg.length
  atMost : msg.length ≤ 10
  own : ∀ r ∈ msg, ∃ o, r ∈ s.rumorsOf o ∧ (otherView.getD o 0).toNat < r.sequence.toNat
  inOrder : ∀ o, (msg.filter (·.origin = o)).map (·.sequence.toNat) =
    List.range' ((otherView.getD o 0).toNat + 1) (msg.filter (·.origin = o)).length
  all : msg.length = min 10 (totalMissing s otherView)

section Missing

variable {s : Store} (hok : s.Ok) (otherView : StatusMessage)

include hok in
theorem length_missingOf (o : String) :
    (missingOf s otherView o).length = (s.seq o).toNat - (otherView.getD o 0).toNat := by
  rw [missingOf, List.length_drop, hok.length]

include hok in
/-- An entry that the loop leaves out stands for nothing that is missing. -/
theorem meExceptOther_getD (o : String) : (meExceptOther s otherView).getD o [] = missingOf s otherView o := by
  rw [Std.ExtTreeMap.getD_eq_getD_getElem?]
  cases hmissing : (meExceptOther s otherView)[o]? with
  | some rumors => exact meExceptOther_eq hok otherView hmissing
  | none =>
    symm
    rw [Option.getD_none, ← List.length_eq_zero_iff, length_missingOf hok]
    by_contra hpos
    rw [meExceptOther_of_lt hok otherView (by omega)] at hmissing
    cases hmissing

include hok in
theorem missingOf_eq_nil {o : String} (h : o ∉ (meExceptOther s otherView).keys) : missingOf s otherView o = [] := by
  rw [← meExceptOther_getD hok, Std.ExtTreeMap.getD_eq_fallback]
  rwa [Std.ExtTreeMap.mem_keys] at h

theorem keys_meExceptOther {o : String} (h : o ∈ (meExceptOther s otherView).keys) : o ∈ s.seqs.keys := by
  rw [Std.ExtTreeMap.mem_keys, Std.ExtTreeMap.mem_iff_isSome_getElem?] at h ⊢
  unfold meExceptOther at h
  rw [Std.ExtTreeMap.getElem?_filterMap'] at h
  cases hlast : s.seqs[o]? with
  | none => rw [hlast] at h; cases h
  | some lastSeq => rfl

include hok in
theorem meExceptOther_isEmpty_iff : (meExceptOther s otherView).isEmpty = true ↔ Covers otherView s := by
  rw [Std.ExtTreeMap.isEmpty_iff]
  constructor
  · intro hempty o lastSeq hlast
    have hget := meExceptOther_get hok otherView hlast
    rw [hempty, Std.ExtTreeMap.getElem?_empty] at hget
    split_ifs at hget with hle
    obtain ⟨otherLastSeq, hother, hle⟩ := (Option.any_eq_true ..).mp hle
    exact ⟨otherLastSeq, hother, by simpa using hle⟩
  · intro hcovers
    apply Std.ExtTreeMap.ext_getElem?
    intro o
    rw [Std.ExtTreeMap.getElem?_empty]
    cases hlast : s.seqs[o]? with
    | none =>
      unfold meExceptOther
      rw [Std.ExtTreeMap.getElem?_filterMap', hlast]
      rfl
    | some lastSeq =>
      obtain ⟨otherLastSeq, hother, hle⟩ := hcovers o lastSeq hlast
      rw [meExceptOther_get hok otherView hlast, if_pos]
      simpa [hother] using hle

end Missing

/-! ## The order of the map -/

section Order

variable {s : Store} (hok : s.Ok) (otherView : StatusMessage) {order : List String}
  (horder : order.Perm (meExceptOther s otherView).keys)

include horder in
theorem order_nodup : order.Nodup := horder.nodup_iff.mpr Std.ExtTreeMap.nodup_keys

include hok horder

/-- The rumors of the whole slice are all that are missing. -/
theorem length_flatMap_missingOf : (order.flatMap (missingOf s otherView)).length = totalMissing s otherView := by
  rw [List.length_flatMap, totalMissing]
  simp only [length_missingOf hok]
  refine sum_map_subset _ (order_nodup otherView horder) Std.ExtTreeMap.nodup_keys ?_ ?_
  · intro o ho
    exact keys_meExceptOther otherView (horder.mem_iff.mp ho)
  · intro o _ hnot
    rw [horder.mem_iff] at hnot
    rw [← length_missingOf hok, missingOf_eq_nil hok otherView hnot, List.length_nil]

omit horder in
theorem origin_of_missing {o : String} {r : Rumor} (hr : r ∈ missingOf s otherView o) : r.origin = o := by
  obtain ⟨i, hi⟩ := List.getElem?_of_mem (List.mem_of_mem_drop hr)
  exact (hok.numbered o i r hi).1

/-- Of each origin the slice has what is missing of it. -/
theorem filter_flatMap_missingOf (o : String) :
    (order.flatMap (missingOf s otherView)).filter (·.origin = o) = missingOf s otherView o := by
  have hparts : ∀ l : List String, l.Nodup →
      (l.flatMap (missingOf s otherView)).filter (·.origin = o) = if o ∈ l then missingOf s otherView o else [] := by
    intro l hl
    induction l with
    | nil => rfl
    | cons p l ih =>
      obtain ⟨hp, hl⟩ := List.nodup_cons.mp hl
      rw [List.flatMap_cons, List.filter_append, ih hl]
      by_cases hpo : p = o
      · subst hpo
        rw [if_neg hp, if_pos List.mem_cons_self, List.append_nil, List.filter_eq_self]
        intro r hr
        simpa using origin_of_missing hok otherView hr
      · have hnone : (missingOf s otherView p).filter (·.origin = o) = [] := by
          rw [List.filter_eq_nil_iff]
          intro r hr
          rw [origin_of_missing hok otherView hr]
          simpa using hpo
        rw [hnone, List.nil_append]
        simp only [List.mem_cons, Ne.symm hpo, false_or]
  rw [hparts order (order_nodup otherView horder)]
  split_ifs with ho
  · rfl
  · rw [horder.mem_iff] at ho
    rw [missingOf_eq_nil hok otherView ho]

omit horder in
theorem sequences_missingOf (o : String) :
    (missingOf s otherView o).map (·.sequence.toNat) =
      List.range' ((otherView.getD o 0).toNat + 1) (missingOf s otherView o).length := by
  apply List.ext_getElem
  · simp
  · intro i hi hi'
    rw [List.length_map] at hi
    have hr : (s.rumorsOf o)[(otherView.getD o 0).toNat + i]? = some (missingOf s otherView o)[i] := by
      rw [← List.getElem?_drop]
      exact List.getElem?_eq_getElem hi
    rw [List.getElem_map, List.getElem_range', (hok.numbered o _ _ hr).2]
    omega

/-- A full slice sends what it has to. -/
theorem sendsMissing_of_full (hfull : 10 ≤ totalMissing s otherView) :
    SendsMissing s otherView ((order.flatMap (missingOf s otherView)).take 10) := by
  have hlength := length_flatMap_missingOf hok otherView horder
  have hten : ((order.flatMap (missingOf s otherView)).take 10).length = 10 := by
    rw [List.length_take]
    omega
  refine ⟨by omega, by omega, fun r hr => ?_, fun o => ?_, by omega⟩
  · obtain ⟨o, -, hr⟩ := List.mem_flatMap.mp (List.mem_of_mem_take hr)
    have hsequence := List.mem_map_of_mem (f := fun r : Rumor => r.sequence.toNat) hr
    rw [sequences_missingOf hok, List.mem_range'_1] at hsequence
    exact ⟨o, List.mem_of_mem_drop hr, by omega⟩
  · have hpart := (List.take_prefix 10 (order.flatMap (missingOf s otherView))).filter (·.origin = o)
    rw [filter_flatMap_missingOf hok otherView horder] at hpart
    have hall := sequences_missingOf hok otherView o
    obtain ⟨rest, hrest⟩ := hpart
    rw [← hrest, List.map_append, List.length_append, ← List.range'_append_1] at hall
    exact (List.append_inj hall (by simp)).1

/-- Zero values behind the rumors are no rumors of the node. -/
theorem full_of_sendsMissing (h : SendsMissing s otherView (firstTen (order.flatMap (missingOf s otherView)))) :
    10 ≤ totalMissing s otherView := by
  by_contra hshort
  rw [← length_flatMap_missingOf hok otherView horder] at hshort
  have hzero : Rumor.zero ∈ firstTen (order.flatMap (missingOf s otherView)) := by
    unfold firstTen
    rw [List.take_append, List.take_replicate]
    refine List.mem_append_right _ (List.mem_replicate.mpr ⟨by omega, rfl⟩)
  obtain ⟨o, -, hsequence⟩ := h.own _ hzero
  exact absurd hsequence (Nat.not_lt_zero _)

theorem firstTen_sendsMissing_iff :
    SendsMissing s otherView (firstTen (order.flatMap (missingOf s otherView))) ↔ 10 ≤ totalMissing s otherView := by
  constructor
  · exact full_of_sendsMissing hok otherView horder
  · intro hfull
    have hlength := length_flatMap_missingOf hok otherView horder
    rw [firstTen_of_full (hfull.trans hlength.ge)]
    exact sendsMissing_of_full hok otherView horder hfull

end Order

/-! ## The callback -/

section Reply

variable {s : Store} (hok : s.Ok) {otherView : StatusMessage} (order : List String)
include hok

theorem statusReply_of_not_covers (h : ¬ Covers otherView s) :
    statusReply s otherView order = some (.rumors (firstTen (order.flatMap (missingOf s otherView)))) := by
  have hmissing : (fun p => (meExceptOther s otherView).getD p []) = missingOf s otherView :=
    funext (meExceptOther_getD hok otherView)
  unfold statusReply
  dsimp only
  rw [hmissing, if_pos]
  rwa [meExceptOther_isEmpty_iff hok]

theorem statusReply_of_covers (h : Covers otherView s) :
    statusReply s otherView order = if otherExceptMe s otherView then some (.status s.seqs) else none := by
  unfold statusReply
  dsimp only
  rw [if_neg]
  rwa [meExceptOther_isEmpty_iff hok, not_not]

end Reply

/-- A message that can be sent is the last one sent, and another one leaves no trace. -/
theorem unicast_sent_iff (m : Messager) (dest dest' : String) (msg msg' : Sent) :
    ((m.unicast dest msg).getD m).sent = m.sent ++ [(dest', msg')] ↔
      m.nextHop dest ≠ none ∧ dest = dest' ∧ msg = msg' := by
  unfold Messager.unicast
  cases m.nextHop dest with
  | none => simp
  | some next => simp

section Callback

variable {m : Messager} {other : String} {otherView : StatusMessage} {order : List String} {mongers : Option String}
  {msg : List Rumor}

/-- A callback that sends rumors answers a status that does not cover its own. -/
theorem statusMsgCallback_sent_iff (hok : m.store.Ok) :
    (statusMsgCallback m other otherView order mongers).sent = m.sent ++ [(other, .rumors msg)] ↔
      ¬ Covers otherView m.store ∧ m.nextHop other ≠ none ∧
        msg = firstTen (order.flatMap (missingOf m.store otherView)) := by
  unfold statusMsgCallback
  by_cases hcovers : Covers otherView m.store
  · -- A status or nothing goes out.
    rw [statusReply_of_covers hok order hcovers]
    simp only [hcovers, not_true, false_and, iff_false]
    by_cases hother : otherExceptMe m.store otherView
    · simp [hother, unicast_sent_iff]
    · cases mongers with
      | none => simp [hother]
      | some nei =>
        by_cases hnei : nei = other
        · simp [hother, hnei]
        · simp [hother, hnei, unicast_sent_iff]
  · rw [statusReply_of_not_covers hok order hcovers]
    simp only [hcovers, not_false_eq_true, true_and, unicast_sent_iff]
    simp [eq_comm]

/-- `StatusMsgCallback` stays in range, and the rumors that it sends are what the other node lacks exactly if
that is at least ten of them. -/
theorem status_sends_missing_iff (hok : m.store.Ok)
    (horder : order.Perm (meExceptOther m.store otherView).keys) :
    ((∀ msg, (statusMsgCallback m other otherView order mongers).sent = m.sent ++ [(other, .rumors msg)] →
        SendsMissing m.store otherView msg) ↔
      Covers otherView m.store ∨ m.nextHop other = none ∨ 10 ≤ totalMissing m.store otherView) ∧
    (∀ (o : String) (lastSeq otherLastSeq : UInt64), m.store.seqs[o]? = some lastSeq →
      otherView[o]? = some otherLastSeq → otherLastSeq < lastSeq →
        sliceRange (m.store.rumorsOf o) otherLastSeq.toNat lastSeq.toNat ≠ none) ∧
    ∀ grow, collect grow (meExceptOther m.store otherView) order ≠ none := by
  refine ⟨?_, ?_, ?_⟩
  · simp only [statusMsgCallback_sent_iff hok]
    constructor
    · intro h
      by_contra hnot
      simp only [not_or] at hnot
      have hsends := h _ ⟨hnot.1, hnot.2.1, rfl⟩
      exact hnot.2.2 ((firstTen_sendsMissing_iff hok otherView horder).mp hsends)
    · rintro h msg ⟨hcovers, hroute, rfl⟩
      have hfull := (h.resolve_left hcovers).resolve_left hroute
      exact (firstTen_sendsMissing_iff hok otherView horder).mpr hfull
  · intro o lastSeq otherLastSeq hlast _ hlt
    have hlength := hok.length o
    rw [Store.seq_of_getElem? hlast] at hlength
    have hle := UInt64.lt_iff_toNat_lt.mp hlt
    unfold sliceRange
    rw [if_pos (by omega)]
    exact Option.some_ne_none _
  · intro grow
    rw [collect_eq]
    exact Option.some_ne_none _

end Callback

/-! ## Two rumors and twelve -/

/-- A node with `n` rumors of its own and one neighbor, which has none. -/
def rumorMonger (n : Nat) : Messager :=
  { newMessager "A" with neighbors := ["B"], store := sampleStore "A" n }

section Sample

variable {n : Nat} (hn : n < 2 ^ 63)
include hn

theorem seq_rumorMonger : ((sampleStore "A" n).seq "A").toNat = n := by
  rw [seq_sampleStore, if_pos rfl, UInt64.toNat_ofNat', Nat.mod_eq_of_lt (by omega)]

theorem keys_rumorMonger (hpos : 0 < n) :
    (["A"] : List String).Perm (meExceptOther (sampleStore "A" n) ∅).keys := by
  have hget := meExceptOther_of_lt (sampleStore_ok "A" n hn) ∅ (p := "A") (by
    rw [seq_rumorMonger hn]
    simpa using hpos)
  rw [List.perm_ext_iff_of_nodup (by simp) Std.ExtTreeMap.nodup_keys]
  intro o
  rw [List.mem_singleton]
  constructor
  · rintro rfl
    rw [Std.ExtTreeMap.mem_keys, Std.ExtTreeMap.mem_iff_isSome_getElem?, hget]
    rfl
  · intro ho
    have hseqs := keys_meExceptOther ∅ ho
    unfold sampleStore at hseqs
    rw [Std.ExtTreeMap.mem_keys, Std.ExtTreeMap.mem_insert, Std.LawfulEqCmp.compare_eq_iff_eq] at hseqs
    simpa [eq_comm] using hseqs

theorem totalMissing_rumorMonger (hpos : 0 < n) : totalMissing (sampleStore "A" n) ∅ = n := by
  have hok := sampleStore_ok "A" n hn
  rw [← length_flatMap_missingOf hok ∅ (keys_rumorMonger hn hpos), List.flatMap_singleton, length_missingOf hok,
    seq_rumorMonger hn]
  simp

omit hn in
theorem rumorMonger_not_covered : ¬ Covers ∅ (sampleStore "A" n) := by
  intro h
  obtain ⟨_, hother, -⟩ := h "A" (UInt64.ofNat n) (by
    unfold sampleStore
    rw [Std.ExtTreeMap.getElem?_insert_self])
  simp at hother

end Sample

theorem rumorMonger_reaches : (rumorMonger n).nextHop "B" ≠ none := by
  simp [Messager.nextHop, rumorMonger]

theorem rumorMonger_sends_missing :
    ∃ msg, (statusMsgCallback (rumorMonger 12) "B" ∅ ["A"] none).sent =
        (rumorMonger 12).sent ++ [("B", .rumors msg)] ∧ SendsMissing (sampleStore "A" 12) ∅ msg := by
  have hok := sampleStore_ok "A" 12 (by decide)
  have hsent : (statusMsgCallback (rumorMonger 12) "B" ∅ ["A"] none).sent =
      (rumorMonger 12).sent ++ [("B", .rumors (firstTen (["A"].flatMap (missingOf (sampleStore "A" 12) ∅))))] :=
    (statusMsgCallback_sent_iff hok).mpr ⟨rumorMonger_not_covered, rumorMonger_reaches, rfl⟩
  have hten : 10 ≤ totalMissing (sampleStore "A" 12) ∅ := by
    rw [totalMissing_rumorMonger (by decide) (by decide)]
    decide
  exact ⟨_, hsent, (status_sends_missing_iff (m := rumorMonger 12) hok
    (keys_rumorMonger (by decide) (by decide))).1.mpr (.inr (.inr hten)) _ hsent⟩

/-- With two rumors of its own the node sends ten. -/
theorem rumorMonger_sends_zeros :
    ∃ msg, (statusMsgCallback (rumorMonger 2) "B" ∅ ["A"] none).sent =
        (rumorMonger 2).sent ++ [("B", .rumors msg)] ∧ ¬ SendsMissing (sampleStore "A" 2) ∅ msg := by
  have hok := sampleStore_ok "A" 2 (by decide)
  refine ⟨_, (statusMsgCallback_sent_iff (m := rumorMonger 2) hok).mpr
    ⟨rumorMonger_not_covered, rumorMonger_reaches, rfl⟩, fun h => ?_⟩
  have hfull := (firstTen_sendsMissing_iff hok ∅ (keys_rumorMonger (by decide) (by decide))).mp h
  rw [totalMissing_rumorMonger (by decide) (by decide)] at hfull
  omega

end MarketPeer.Gossip

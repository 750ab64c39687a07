import Mathlib.Data.List.ReduceOption
import MarketPeer.Catalog.Model

/-!
# What peers say of files is so

An invariant of the steps: whatever a catalog, an answer on its way or a search that is
under way says of a peer was said by that peer, when it was so.
-/

namespace MarketPeer.Catalog

open Search (Dice)
open Sharing (Key Blob metafileSep)

variable {P : Type}

/-! ## The stores -/

@[simp] theorem mem_set {names : Names} {name : String} {metahash : Key} {b : String × Key} :
    b ∈ names.set name metahash ↔ b = (name, metahash) ∨ b ∈ names ∧ b.1 ≠ name := by
  simp [Names.set]

/-- A name that is set stays so. -/
theorem Names.set_keeps {names : Names} {b : String × Key} (hb : b ∈ names) (name : String) (metahash : Key) :
    ∃ metahash', (b.1, metahash') ∈ names.set name metahash := by
  by_cases hname : b.1 = name
  · exact ⟨metahash, by simp [hname]⟩
  · exact ⟨b.2, mem_set.mpr (.inr ⟨hb, hname⟩)⟩

theorem mem_updateCatalog [DecidableEq P] {catalog : Key → List P} {key key' : Key} {peer q : P} :
    q ∈ updateCatalog catalog key peer key' ↔ q ∈ catalog key' ∨ (key' = key ∧ q = peer) := by
  unfold updateCatalog
  by_cases hkey : key' = key
  · subst hkey
    simp [or_comm]
  · simp [hkey]

theorem mem_updateCatalogs [DecidableEq P] {source q : P} {keys : List Key} {catalog : Key → List P} {key : Key} :
    q ∈ keys.foldl (fun catalog key => updateCatalog catalog key source) catalog key ↔
      q ∈ catalog key ∨ (key ∈ keys ∧ q = source) := by
  induction keys generalizing catalog with
  | nil => simp
  | cons key' keys ih =>
    rw [List.foldl_cons, ih, mem_updateCatalog, List.mem_cons]
    tauto

/-! ## What a peer has -/

def World.Bound (w : World P) (p : P) (name : String) : Prop := ∃ metahash, (name, metahash) ∈ w.naming p

/-- A peer is in the catalog for every part of the file, and its name is known. -/
structure World.Listed (w : World P) (p source : P) (f : FileInfo) : Prop where
  name : w.Bound p f.name
  keys : ∀ key ∈ f.keys, source ∈ w.catalog p key

/-- The peer knows the name, and finds of the file what `f` says. -/
def World.Has (w : World P) (p : P) (f : FileInfo) : Prop :=
  (f.name, f.metahash) ∈ w.naming p ∧
    ∃ ago : Nat → Nat, describe (fun i => w.seen p (ago i)) f.name f.metahash = some f

theorem mem_seen (w : World P) (p : P) (ago : Nat) : w.seen p ago = w.blob p ∨ w.seen p ago ∈ w.past p := by
  rw [← List.mem_cons]
  unfold World.seen
  rw [List.getD_eq_getElem?_getD]
  cases hget : (w.blob p :: w.past p)[ago]? with
  | none => exact List.mem_cons_self
  | some blob => exact List.mem_of_getElem? hget

theorem describe_name {reads : Nat → Blob} {name : String} {metahash : Key} {f : FileInfo}
    (h : describe reads name metahash = some f) : f.name = name ∧ f.metahash = metahash := by
  obtain ⟨metafile, -, rfl⟩ := Option.map_eq_some_iff.mp h
  exact ⟨rfl, rfl⟩

/-- One read has found something under each key of such a file. -/
theorem describe_keys {reads : Nat → Blob} {name : String} {metahash : Key} {f : FileInfo}
    (h : describe reads name metahash = some f) {key : Key} (hkey : key ∈ f.keys) : ∃ i, reads i key ≠ none := by
  obtain ⟨metafile, hmetafile, rfl⟩ := Option.map_eq_some_iff.mp h
  rcases List.mem_cons.mp hkey with rfl | hkey
  · exact ⟨0, by rw [hmetafile]; exact Option.some_ne_none metafile⟩
  · have hchunk := List.reduceOption_mem_iff.mp hkey
    obtain ⟨⟨key', i⟩, -, hkey'⟩ := List.mem_map.mp hchunk
    dsimp only at hkey'
    split at hkey'
    · next hsome =>
      rw [Option.some.injEq] at hkey'
      subst hkey'
      exact ⟨i + 1, Option.isSome_iff_ne_none.mp hsome⟩
    · cases hkey'

/-- A file that is full by what a peer says of it has the keys of its metafile. -/
theorem describe_full {reads : Nat → Blob} {name : String} {metahash : Key} {f : FileInfo}
    (h : describe reads name metahash = some f) (hfull : f.fullKnown) :
    ∃ metafile, reads 0 metahash = some metafile ∧ f.keys = metahash :: metafile.splitOn metafileSep := by
  obtain ⟨metafile, hmetafile, rfl⟩ := Option.map_eq_some_iff.mp h
  refine ⟨metafile, hmetafile, ?_⟩
  simp only [FileInfo.fullKnown, List.all_map, List.all_eq_true, Function.comp] at hfull
  have hchunks : ((metafile.splitOn metafileSep).zipIdx.map fun x =>
      if (reads (x.2 + 1) x.1).isSome then some x.1 else none) = (metafile.splitOn metafileSep).map some := by
    conv_rhs => rw [← List.zipIdx_map_fst 0 (metafile.splitOn metafileSep), List.map_map]
    refine List.map_congr_left fun x hx => ?_
    have hsome := hfull x hx
    split at hsome
    · next hread => rw [if_pos hread, Function.comp]
    · cases hsome
  change metahash :: List.reduceOption ((metafile.splitOn metafileSep).zipIdx.map fun x =>
      if (reads (x.2 + 1) x.1).isSome then some x.1 else none) = _
  rw [hchunks, List.reduceOption, List.filterMap_map, Function.id_comp, List.filterMap_some]

theorem mem_responses {matchString : String → String → Bool} {w : World P} {p : P} {pattern : String}
    {order : Names} (horder : order.Perm (w.naming p)) {moments : Moments} {f : FileInfo}
    (hf : f ∈ w.responses matchString p pattern order moments) : matchString pattern f.name ∧ w.Has p f := by
  obtain ⟨b, hb, hdescribe⟩ := List.mem_filterMap.mp hf
  obtain ⟨hb, hmatch⟩ := List.mem_filter.mp hb
  obtain ⟨hname, hmetahash⟩ := describe_name hdescribe
  rw [← hname, ← hmetahash] at hdescribe
  rw [← hname] at hmatch
  refine ⟨hmatch, ?_, _, hdescribe⟩
  rw [hname, hmetahash]
  exact horder.mem_iff.mp hb

theorem isFull_describe {reads : Nat → Blob} {metahash : Key} (h : isFull reads metahash) (name : String) :
    ∃ f, describe reads name metahash = some f ∧ f.fullKnown := by
  unfold isFull at h
  unfold describe
  split at h
  · next metafile hmetafile =>
    refine ⟨_, by rw [hmetafile, Option.map_some], ?_⟩
    simp only [FileInfo.fullKnown, List.all_map, List.all_eq_true, Function.comp] at h ⊢
    intro x hx
    rw [if_pos (h x hx), Option.isSome_some]
  · cases h

/-! ## What grows -/

def World.AskedBy (w : World P) (id : Nat) (caller : P) (pattern : String) : Prop :=
  ∃ q, w.inquiries[id]? = some q ∧ q.caller = caller ∧ q.pattern = pattern

/-- Names stay bound, and nothing that was said, asked or put into a catalog is forgotten. -/
structure Grows (w w' : World P) : Prop where
  naming : ∀ p name, w.Bound p name → w'.Bound p name
  catalog : ∀ p key, w.catalog p key ⊆ w'.catalog p key
  replies : w.replies ⊆ w'.replies
  asked : ∀ id caller pattern, w.AskedBy id caller pattern → w'.AskedBy id caller pattern

variable (matchString : String → String → Bool) (told : P → FileInfo → Prop) (tagged : String × Key → Prop)
  (held : P → Blob → Prop)

/-- The reply was sent, and its receiver has updated its stores. -/
def World.Learned (w : World P) (r : Reply P) : Prop :=
  r ∈ w.replies ∧ ∀ f ∈ r.responses, w.Listed r.dest r.source f

/-- Some peer has said that it has all of a file with a name that matches, and this peer knows that. -/
def World.Complete (w : World P) (p : P) (pattern name : String) : Prop :=
  ∃ source f, f.name = name ∧ matchString pattern name ∧ f.fullKnown ∧ told source f ∧ w.Bound p name ∧
    (source = p ∨ w.Listed p source f)

section Grow

variable {matchString told} {w w' : World P}

theorem World.Complete.known {p : P} {pattern name : String} (hc : w.Complete matchString told p pattern name) :
    matchString pattern name ∧ w.Bound p name := by
  obtain ⟨source, f, -, hmatch, -, -, hbound, -⟩ := hc
  exact ⟨hmatch, hbound⟩

variable (h : Grows w w')

include h

theorem World.Listed.grows {p source : P} {f : FileInfo} (hlisted : w.Listed p source f) : w'.Listed p source f where
  name := h.naming p f.name hlisted.name
  keys := fun key hkey => h.catalog p key (hlisted.keys key hkey)

theorem World.Learned.grows {r : Reply P} (hr : w.Learned r) : w'.Learned r :=
  ⟨h.replies hr.1, fun f hf => (hr.2 f hf).grows h⟩

theorem World.Complete.grows {p : P} {pattern name : String} (hc : w.Complete matchString told p pattern name) :
    w'.Complete matchString told p pattern name := by
  obtain ⟨source, f, hname, hmatch, hfull, htold, hbound, hsource⟩ := hc
  exact ⟨source, f, hname, hmatch, hfull, htold, h.naming p name hbound, hsource.imp_right (·.grows h)⟩

end Grow

/-! ## The invariant -/

/-- What an inquiry holds is from replies that came for it. -/
structure Inquiry.Sound (w : World P) (id : Nat) (q : Inquiry P) : Prop where
  future : ∀ r ∈ q.future, r.requestID = id ∧ r.dest = q.caller ∧ w.Learned r
  nameSet : ∀ n ∈ q.nameSet, matchString q.pattern n ∧ w.Bound q.caller n
  fullKnownName : ∀ n ∈ q.fullKnownName, w.Complete matchString told q.caller q.pattern n

def Task.matchNames : Task → List String
  | .all _ matchNames => matchNames
  | .first _ _ _ => []

structure Call.Sound (w : World P) (c : Call P) : Prop where
  matchNames : ∀ n ∈ c.task.matchNames, matchString c.pattern n ∧ w.Bound c.caller n
  asked : ∀ id ∈ c.asked, w.AskedBy id c.caller c.pattern

def Answer.Sound (w : World P) (a : Answer P) : Prop :=
  ∀ n ∈ a.names, matchString a.pattern n ∧ w.Bound a.caller n ∧
    (a.first → w.Complete matchString told a.caller a.pattern n)

/-- All that is known anywhere was said by the peer it is about. -/
structure World.Sound (w : World P) : Prop where
  naming : ∀ p, ∀ b ∈ w.naming p, tagged b
  past : ∀ p, ∀ blob ∈ w.past p, held p blob
  catalog : ∀ p key q, q ∈ w.catalog p key → ∃ f, told q f ∧ key ∈ f.keys
  requests : ∀ r ∈ w.requests, w.AskedBy r.requestID r.origin r.pattern
  replies : ∀ r ∈ w.replies, ∃ pattern, w.AskedBy r.requestID r.dest pattern ∧
    ∀ f ∈ r.responses, matchString pattern f.name ∧ told r.source f
  sending : ∀ p, ∀ r ∈ w.sending p, r.dest = p ∧ w.Learned r
  inquiries : ∀ id (q : Inquiry P), w.inquiries[id]? = some q → q.Sound matchString told w id
  calls : ∀ c ∈ w.calls, c.Sound matchString w
  answers : ∀ a ∈ w.answers, a.Sound matchString told w

section Steps

variable {matchString told tagged held} {w w' : World P}

theorem Grows.refl (w : World P) : Grows w w where
  naming := fun _ _ hbound => hbound
  catalog := fun _ _ _ hc => hc
  replies := fun _ hm => hm
  asked := fun _ _ _ hasked => hasked

theorem Grows.trans {w'' : World P} (h : Grows w w') (h' : Grows w' w'') : Grows w w'' where
  naming := fun p name hbound => h'.naming p name (h.naming p name hbound)
  catalog := fun p key => List.Subset.trans (h.catalog p key) (h'.catalog p key)
  replies := List.Subset.trans h.replies h'.replies
  asked := fun id caller pattern hasked => h'.asked id caller pattern (h.asked id caller pattern hasked)

theorem Inquiry.Sound.grows {id : Nat} {q : Inquiry P} (hq : q.Sound matchString told w id) (h : Grows w w') :
    q.Sound matchString told w' id where
  future := fun r hr => ⟨(hq.future r hr).1, (hq.future r hr).2.1, (hq.future r hr).2.2.grows h⟩
  nameSet := fun n hn => ⟨(hq.nameSet n hn).1, h.naming _ _ (hq.nameSet n hn).2⟩
  fullKnownName := fun n hn => (hq.fullKnownName n hn).grows h

theorem Call.Sound.grows {c : Call P} (hc : c.Sound matchString w) (h : Grows w w') : c.Sound matchString w' where
  matchNames := fun n hn => ⟨(hc.matchNames n hn).1, h.naming _ _ (hc.matchNames n hn).2⟩
  asked := fun id hid => h.asked _ _ _ (hc.asked id hid)

theorem Answer.Sound.grows {a : Answer P} (ha : a.Sound matchString told w) (h : Grows w w') :
    a.Sound matchString told w' := by
  intro n hn
  obtain ⟨hmatch, hbound, hfirst⟩ := ha n hn
  exact ⟨hmatch, h.naming _ _ hbound, fun hf => (hfirst hf).grows h⟩

/-! ### One part of the state changes -/

theorem World.Sound.setStores (h : w.Sound matchString told tagged held) {naming : P → Names}
    {catalog : P → Key → List P} (hgrows : Grows w { w with naming, catalog })
    (hnaming : ∀ p, ∀ b ∈ naming p, tagged b)
    (hcatalog : ∀ p key q, q ∈ catalog p key → ∃ f, told q f ∧ key ∈ f.keys) :
    World.Sound matchString told tagged held { w with naming, catalog } where
  naming := hnaming
  past := h.past
  catalog := hcatalog
  requests := h.requests
  replies := h.replies
  sending := fun p r hr => ⟨(h.sending p r hr).1, (h.sending p r hr).2.grows hgrows⟩
  inquiries := fun id q hq => (h.inquiries id q hq).grows hgrows
  calls := fun c hc => (h.calls c hc).grows hgrows
  answers := fun a ha => (h.answers a ha).grows hgrows

theorem World.Sound.setRest (h : w.Sound matchString told tagged held) {neighbors : P → List P}
    {blob : P → Blob} {past : P → List Blob} {searchReqs : P → List Nat} {sending : P → Option (Reply P)}
    {calls : List (Call P)} {answers : List (Answer P)} {requests : List (Request P)}
    (hpast : ∀ p, ∀ blob ∈ past p, held p blob) (hsending : ∀ p, ∀ r ∈ sending p, r.dest = p ∧ w.Learned r)
    (hcalls : ∀ c ∈ calls, c.Sound matchString w) (hanswers : ∀ a ∈ answers, a.Sound matchString told w)
    (hrequests : ∀ r ∈ requests, w.AskedBy r.requestID r.origin r.pattern) :
    World.Sound matchString told tagged held
      { w with neighbors, blob, past, searchReqs, sending, calls, answers, requests } := by
  have hgrows : Grows w { w with neighbors, blob, past, searchReqs, sending, calls, answers, requests } :=
    ⟨fun _ _ hb => hb, fun _ _ _ hc => hc, fun _ hr => hr, fun _ _ _ ha => ha⟩
  refine ⟨h.naming, hpast, h.catalog, hrequests, h.replies, ?_, ?_, ?_, ?_⟩
  · exact fun p r hr => ⟨(hsending p r hr).1, (hsending p r hr).2.grows hgrows⟩
  · exact fun id q hq => (h.inquiries id q hq).grows hgrows
  · exact fun c hc => (hcalls c hc).grows hgrows
  · exact fun a ha => (hanswers a ha).grows hgrows

theorem World.AskedBy.of_set {id : Nat} {q q' : Inquiry P} (hq : w.inquiries[id]? = some q)
    (hcaller : q'.caller = q.caller) (hpattern : q'.pattern = q.pattern) {id' : Nat} {caller : P} {pattern : String}
    (h : w.AskedBy id' caller pattern) : (w.setInquiry id q').AskedBy id' caller pattern := by
  obtain ⟨q₀, hq₀, rfl, rfl⟩ := h
  unfold World.AskedBy World.setInquiry
  rw [List.getElem?_set]
  split
  · next heq =>
    subst heq
    rw [hq, Option.some.injEq] at hq₀
    subst hq₀
    rw [if_pos (List.getElem?_eq_some_iff.mp hq).1]
    exact ⟨q', rfl, hcaller, hpattern⟩
  · exact ⟨q₀, hq₀, rfl, rfl⟩

theorem World.Sound.setInquiry (h : w.Sound matchString told tagged held) {id : Nat} {q q' : Inquiry P}
    (hq : w.inquiries[id]? = some q) (hcaller : q'.caller = q.caller) (hpattern : q'.pattern = q.pattern)
    (hsound : q'.Sound matchString told w id) : (w.setInquiry id q').Sound matchString told tagged held := by
  have hasked {id' caller pattern} (ha : w.AskedBy id' caller pattern) := ha.of_set hq hcaller hpattern
  have hgrows : Grows w (w.setInquiry id q') :=
    ⟨fun _ _ hb => hb, fun _ _ _ hc => hc, fun _ hr => hr, fun _ _ _ ha => hasked ha⟩
  refine ⟨h.naming, h.past, h.catalog, fun r hr => hasked (h.requests r hr), ?_, ?_, ?_, ?_, ?_⟩
  · intro r hr
    obtain ⟨pattern, ha, htold⟩ := h.replies r hr
    exact ⟨pattern, hasked ha, htold⟩
  · exact fun p r hr => ⟨(h.sending p r hr).1, (h.sending p r hr).2.grows hgrows⟩
  · intro id' q₀ hq₀
    rw [World.setInquiry, List.getElem?_set] at hq₀
    split at hq₀
    · next heq =>
      subst heq
      rw [if_pos (List.getElem?_eq_some_iff.mp hq).1, Option.some.injEq] at hq₀
      subst hq₀
      exact hsound.grows hgrows
    · exact (h.inquiries id' q₀ hq₀).grows hgrows
  · exact fun c hc => (h.calls c hc).grows hgrows
  · exact fun a ha => (h.answers a ha).grows hgrows

theorem World.AskedBy.concat {id : Nat} {caller : P} {pattern : String} (h : w.AskedBy id caller pattern)
    (q : Inquiry P) (searchReqs : P → List Nat) :
    World.AskedBy { w with searchReqs, inquiries := w.inquiries ++ [q] } id caller pattern := by
  obtain ⟨q₀, hq₀, hcaller, hpattern⟩ := h
  refine ⟨q₀, ?_, hcaller, hpattern⟩
  rw [List.getElem?_append_left (List.getElem?_eq_some_iff.mp hq₀).1]
  exact hq₀


theorem grows_concat (w : World P) (q : Inquiry P) (searchReqs : P → List Nat) :
    Grows w { w with searchReqs, inquiries := w.inquiries ++ [q] } :=
  ⟨fun _ _ hb => hb, fun _ _ _ hc => hc, fun _ hr => hr, fun _ _ _ ha => ha.concat q searchReqs⟩

theorem World.Sound.concat (h : w.Sound matchString told tagged held) {q : Inquiry P}
    (hq : q.Sound matchString told w w.inquiries.length) (searchReqs : P → List Nat) :
    World.Sound matchString told tagged held { w with searchReqs, inquiries := w.inquiries ++ [q] } := by
  have hgrows := grows_concat w q searchReqs
  refine ⟨h.naming, h.past, h.catalog, fun r hr => hgrows.asked _ _ _ (h.requests r hr), ?_, ?_, ?_, ?_, ?_⟩
  · intro r hr
    obtain ⟨pattern, ha, htold⟩ := h.replies r hr
    exact ⟨pattern, hgrows.asked _ _ _ ha, htold⟩
  · exact fun p r hr => ⟨(h.sending p r hr).1, (h.sending p r hr).2.grows hgrows⟩
  · intro id q₀ hq₀
    obtain ⟨hid, -⟩ := List.getElem?_eq_some_iff.mp hq₀
    rw [List.length_append, List.length_singleton, Nat.lt_succ_iff_lt_or_eq] at hid
    rcases hid with hid | rfl
    · rw [List.getElem?_append_left hid] at hq₀
      exact (h.inquiries id q₀ hq₀).grows hgrows
    · rw [List.getElem?_concat_length, Option.some.injEq] at hq₀
      subst hq₀
      exact hq.grows hgrows
  · exact fun c hc => (h.calls c hc).grows hgrows
  · exact fun a ha => (h.answers a ha).grows hgrows

theorem World.Sound.tell (h : w.Sound matchString told tagged held) {r : Reply P}
    (hr : ∃ pattern, w.AskedBy r.requestID r.dest pattern ∧
      ∀ f ∈ r.responses, matchString pattern f.name ∧ told r.source f) :
    World.Sound matchString told tagged held { w with replies := w.replies ++ [r] } := by
  have hgrows : Grows w { w with replies := w.replies ++ [r] } :=
    ⟨fun _ _ hb => hb, fun _ _ _ hc => hc, List.subset_append_left _ _, fun _ _ _ ha => ha⟩
  refine ⟨h.naming, h.past, h.catalog, h.requests, ?_, ?_, ?_, ?_, ?_⟩
  · intro r' hr'
    rcases List.mem_append.mp hr' with hr' | hr'
    · exact h.replies r' hr'
    · rw [List.mem_singleton] at hr'
      subst hr'
      exact hr
  · exact fun p r hr => ⟨(h.sending p r hr).1, (h.sending p r hr).2.grows hgrows⟩
  · exact fun id q hq => (h.inquiries id q hq).grows hgrows
  · exact fun c hc => (h.calls c hc).grows hgrows
  · exact fun a ha => (h.answers a ha).grows hgrows

variable [DecidableEq P]

/-! ### A peer learns of files -/

theorem World.Bound.setName {p : P} {name : String} (hbound : w.Bound p name) (p' : P) (name' : String)
    (metahash : Key) : (w.setName p' name' metahash).Bound p name := by
  obtain ⟨metahash', hb⟩ := hbound
  simp only [World.Bound, World.setName]
  by_cases hp : p = p'
  · subst hp
    rw [Function.update_self]
    exact Names.set_keeps hb name' metahash
  · rw [Function.update_of_ne hp]
    exact ⟨metahash', hb⟩

theorem mem_setName {p p' : P} {name : String} {metahash : Key} {b : String × Key}
    (hb : b ∈ (w.setName p name metahash).naming p') : b ∈ w.naming p' ∨ b = (name, metahash) := by
  simp only [World.setName] at hb
  by_cases hp : p' = p
  · subst hp
    rw [Function.update_self, mem_set] at hb
    exact hb.symm.imp_left (·.1)
  · rw [Function.update_of_ne hp] at hb
    exact .inl hb

theorem World.Sound.setName (h : w.Sound matchString told tagged held) (p : P) {name : String} {metahash : Key}
    (htag : tagged (name, metahash)) : (w.setName p name metahash).Sound matchString told tagged held := by
  refine h.setStores ⟨fun p' name' hbound => hbound.setName p name metahash, ?_, ?_, ?_⟩ ?_ h.catalog
  · exact fun _ _ _ hq => hq
  · exact fun _ hr => hr
  · exact fun _ _ _ hasked => hasked
  · intro p' b hb
    rcases mem_setName hb with hb | rfl
    · exact h.naming p' b hb
    · exact htag

theorem mem_learn {p p' source q : P} {f : FileInfo} {key : Key} :
    q ∈ (w.learn p source f).catalog p' key ↔ q ∈ w.catalog p' key ∨ (p' = p ∧ key ∈ f.keys ∧ q = source) := by
  simp only [World.learn]
  by_cases hp : p' = p
  · subst hp
    simp [mem_updateCatalogs]
  · simp [hp]

theorem grows_learn (w : World P) (p source : P) (f : FileInfo) : Grows w (w.learn p source f) where
  naming := fun _ _ hbound => hbound.setName p f.name f.metahash
  catalog := fun _ _ _ hq => mem_learn.mpr (.inl hq)
  replies := fun _ hr => hr
  asked := fun _ _ _ hasked => hasked

theorem learn_listed (w : World P) (p source : P) (f : FileInfo) : (w.learn p source f).Listed p source f where
  name := ⟨f.metahash, by simp [World.learn, World.setName]⟩
  keys := fun _ hkey => mem_learn.mpr (.inr ⟨rfl, hkey, rfl⟩)

theorem World.Sound.learn (h : w.Sound matchString told tagged held) (p : P) {source : P} {f : FileInfo}
    (htold : told source f) (htag : tagged (f.name, f.metahash)) :
    (w.learn p source f).Sound matchString told tagged held := by
  refine h.setStores (grows_learn w p source f) ?_ ?_
  · intro p' b hb
    rcases mem_setName hb with hb | rfl
    · exact h.naming p' b hb
    · exact htag
  · intro p' key q hq
    rcases mem_learn.mp hq with hq | ⟨-, hkey, rfl⟩
    · exact h.catalog p' key q hq
    · exact ⟨f, htold, hkey⟩

/-- The loop over the responses. -/
theorem World.Sound.learns (htagged : ∀ q f, told q f → tagged (f.name, f.metahash)) (p source : P)
    (fs : List FileInfo) (hfs : ∀ f ∈ fs, told source f) (h : w.Sound matchString told tagged held) :
    let w' := fs.foldl (fun w f => w.learn p source f) w
    w'.Sound matchString told tagged held ∧ Grows w w' ∧ ∀ f ∈ fs, w'.Listed p source f := by
  induction fs generalizing w with
  | nil => exact ⟨h, .refl w, by simp⟩
  | cons f fs ih =>
    rw [List.forall_mem_cons] at hfs
    obtain ⟨hsound, hgrows, hlisted⟩ := ih hfs.2 (h.learn p hfs.1 (htagged source f hfs.1))
    refine ⟨hsound, (grows_learn w p source f).trans hgrows, ?_⟩
    rw [List.forall_mem_cons]
    exact ⟨(learn_listed w p source f).grows hgrows, hlisted⟩

/-! ### Replies are read -/

theorem World.Sound.notify (h : w.Sound matchString told tagged held) {r : Reply P} (hr : w.Learned r) :
    (w.notify r).Sound matchString told tagged held := by
  unfold World.notify
  split
  · exact h
  · next q hq =>
    split
    · next hown =>
      have hsound := h.inquiries _ q hq
      split
      · refine h.setInquiry hq rfl rfl ⟨?_, hsound.nameSet, hsound.fullKnownName⟩
        intro r' hr'
        rw [Option.mem_def, Option.some.injEq] at hr'
        subst hr'
        exact ⟨rfl, hown.1.symm, hr⟩
      · refine h.setRest h.past ?_ h.calls h.answers h.requests
        intro p r' hr'
        by_cases hp : p = r.dest
        · subst hp
          rw [Function.update_self, Option.mem_def, Option.some.injEq] at hr'
          subst hr'
          exact ⟨rfl, hr⟩
        · rw [Function.update_of_ne hp] at hr'
          exact h.sending p r' hr'
    · exact h

theorem World.Sound.searchReplyMessageCallback (htagged : ∀ q f, told q f → tagged (f.name, f.metahash))
    (h : w.Sound matchString told tagged held) {r : Reply P} (hr : r ∈ w.replies) :
    (w.searchReplyMessageCallback r).Sound matchString told tagged held := by
  obtain ⟨pattern, -, htold⟩ := h.replies r hr
  obtain ⟨hsound, hgrows, hlisted⟩ := h.learns htagged r.dest r.source r.responses fun f hf => (htold f hf).2
  exact hsound.notify ⟨hgrows.replies hr, hlisted⟩

/-! ### Requests are sent -/

omit [DecidableEq P] in
theorem World.Sound.pass (h : w.Sound matchString told tagged held) {id : Nat} {origin : P} {pattern : String}
    (hasked : w.AskedBy id origin pattern) (relayedBy : P) (budgets : List (P × UInt64)) (sent : Nat) :
    (w.pass id origin pattern relayedBy budgets sent).Sound matchString told tagged held := by
  refine h.setRest h.past h.sending h.calls h.answers ?_
  intro r hr
  rcases List.mem_append.mp hr with hr | hr
  · exact h.requests r hr
  · obtain ⟨b, -, rfl⟩ := List.mem_map.mp (List.mem_of_mem_take hr)
    exact hasked

/-- The part of a search that sends the requests. -/
theorem World.Sound.inquire (h : w.Sound matchString told tagged held) {caller : P} {pattern : String}
    {first allSent : Bool} {budget : UInt64} {dice : Dice P} {sent : Nat}
    (hstep : w.inquire caller pattern first budget dice sent = some (w', allSent)) :
    w'.Sound matchString told tagged held ∧ Grows w w' ∧ w'.calls = w.calls ∧
      w'.AskedBy w.inquiries.length caller pattern := by
  unfold World.inquire at hstep
  obtain ⟨budgets, -, hstep⟩ := Option.bind_eq_some_iff.mp hstep
  split at hstep
  · rw [Option.some.injEq, Prod.mk.injEq] at hstep
    obtain ⟨rfl, -⟩ := hstep
    have hlast (q : Inquiry P) : (w.inquiries ++ [q])[w.inquiries.length]? = some q := List.getElem?_concat_length
    refine ⟨World.Sound.pass (h.concat ?_ _) ⟨_, hlast _, rfl, rfl⟩ caller budgets sent, ?_, rfl, _, hlast _, rfl, rfl⟩
    · exact ⟨by simp, by simp, by simp⟩
    · exact ⟨fun _ _ hb => hb, fun _ _ _ hc => hc, fun _ hr => hr, fun _ _ _ ha => ha.concat _ w.searchReqs⟩
  · cases hstep

theorem World.Sound.markRequest (h : w.Sound matchString told tagged held) (p : P) (id : Nat) :
    (w.markRequest p id).Sound matchString told tagged held :=
  h.setRest h.past h.sending h.calls h.answers h.requests

theorem World.Sound.searchRequestMessageCallback (hhas : ∀ p f, w.Has p f → told p f)
    (h : w.Sound matchString told tagged held) {r : Request P} {order : Names} {moments : Moments} {dice : Dice P}
    {sent : Nat} {replied : Bool} (hr : r ∈ w.requests) (horder : order.Perm (w.naming r.dest))
    (hstep : w.searchRequestMessageCallback matchString r order moments dice sent replied = some w') :
    w'.Sound matchString told tagged held := by
  unfold World.searchRequestMessageCallback at hstep
  split at hstep
  · rw [Option.some.injEq] at hstep
    subst hstep
    exact h
  · obtain ⟨budgets, -, rfl⟩ := Option.map_eq_some_iff.mp hstep
    have hasked := h.requests r hr
    have hpassed := (h.markRequest r.dest r.requestID).pass hasked r.dest budgets sent
    dsimp only
    split
    · refine hpassed.tell ⟨r.pattern, hasked, fun f hf => ?_⟩
      obtain ⟨hmatch, hf⟩ := mem_responses horder hf
      exact ⟨hmatch, hhas r.dest f hf⟩
    · exact hpassed

/-! ### Calls go on -/

omit [DecidableEq P] in
theorem World.Sound.answer (h : w.Sound matchString told tagged held) {i : Nat} {c : Call P} {names : List String}
    (hnames : Answer.Sound matchString told w ⟨c.caller, c.pattern, c.task.isFirst, names⟩) :
    (w.answer i c names).Sound matchString told tagged held := by
  refine h.setRest h.past h.sending (fun c' hc' => h.calls c' (List.mem_of_mem_eraseIdx hc')) ?_ h.requests
  intro a ha
  rcases List.mem_append.mp ha with ha | ha
  · exact h.answers a ha
  · rw [List.mem_singleton] at ha
    subst ha
    exact hnames

omit [DecidableEq P] in
theorem World.Sound.setCall (h : w.Sound matchString told tagged held) {c : Call P} (hc : c.Sound matchString w)
    (i : Nat) :
    World.Sound matchString told tagged held { w with calls := w.calls.set i c } := by
  refine h.setRest h.past h.sending ?_ h.answers h.requests
  intro c' hc'
  rcases List.mem_or_eq_of_mem_set hc' with hc' | rfl
  · exact h.calls c' hc'
  · exact hc

theorem World.Sound.stepAsk (h : w.Sound matchString told tagged held) {i : Nat} {c : Call P} {dice : Dice P}
    {sent : Nat} (hc : c.Sound matchString w) (hstep : stepAsk w i c dice sent = some w') :
    w'.Sound matchString told tagged held := by
  have hask {first : Bool} {budget : UInt64} {names : List String}
      (hnames : Answer.Sound matchString told w ⟨c.caller, c.pattern, c.task.isFirst, names⟩) {w'' : World P}
      {allSent : Bool} (hinquire : w.inquire c.caller c.pattern first budget dice sent = some (w'', allSent)) :
      (if allSent then { w'' with calls := w''.calls.set i { c with asked := some w.inquiries.length } }
        else w''.answer i c names).Sound matchString told tagged held := by
    obtain ⟨hsound, hgrows, -, hnew⟩ := h.inquire hinquire
    split
    · have hcall : Call.Sound matchString w'' { c with asked := some w.inquiries.length } := by
        refine ⟨(hc.grows hgrows).matchNames, ?_⟩
        intro id hid
        rw [Option.mem_def, Option.some.injEq] at hid
        subst hid
        exact hnew
      exact hsound.setCall hcall i
    · exact hsound.answer (hnames.grows hgrows)
  have hnothing (first : Bool) : Answer.Sound matchString told w ⟨c.caller, c.pattern, first, []⟩ := by
    intro n hn
    cases hn
  unfold Catalog.stepAsk at hstep
  split at hstep
  · next budget matchNames htask =>
    have hnames : Answer.Sound matchString told w ⟨c.caller, c.pattern, c.task.isFirst, matchNames⟩ := by
      intro n hn
      have hn := hc.matchNames n (by rw [htask]; exact hn)
      exact ⟨hn.1, hn.2, fun hfirst => by simp [htask, Task.isFirst] at hfirst⟩
    split at hstep
    · rw [Option.some.injEq] at hstep
      subst hstep
      exact h.answer hnames
    · obtain ⟨⟨w'', allSent⟩, hinquire, rfl⟩ := Option.map_eq_some_iff.mp hstep
      exact hask hnames hinquire
  · next budget factor left htask =>
    split at hstep
    · rw [Option.some.injEq] at hstep
      subst hstep
      exact h.answer (hnothing _)
    · split at hstep
      · rw [Option.some.injEq] at hstep
        subst hstep
        have hcall : Call.Sound matchString w { c with task := .first (budget * factor) factor (left - 1) } :=
          ⟨by simp [Task.matchNames], hc.asked⟩
        exact h.setCall hcall i
      · obtain ⟨⟨w'', allSent⟩, hinquire, rfl⟩ := Option.map_eq_some_iff.mp hstep
        exact hask (hnothing _) hinquire

omit [DecidableEq P] in
theorem World.Sound.stepFinish (h : w.Sound matchString told tagged held) {i id : Nat} {c : Call P} {q : Inquiry P}
    {order : List String} (hc : c.Sound matchString w) (hid : c.asked = some id) (hq : w.inquiries[id]? = some q)
    (hstep : stepFinish w i c q order = some w') : w'.Sound matchString told tagged held := by
  obtain ⟨q', hq', hcaller, hpattern⟩ := hc.asked id hid
  rw [hq, Option.some.injEq] at hq'
  subst hq'
  unfold Catalog.stepFinish at hstep
  split at hstep
  · next budget matchNames htask =>
    split at hstep
    · next horder =>
      rw [Option.some.injEq] at hstep
      subst hstep
      refine h.answer fun n hn => ?_
      have hsound : matchString c.pattern n ∧ w.Bound c.caller n := by
        rcases List.mem_append.mp hn with hn | hn
        · exact hc.matchNames n (by rw [htask]; exact hn)
        · rw [← hcaller, ← hpattern]
          exact (h.inquiries id q hq).nameSet n (horder.mem_iff.mp hn)
      exact ⟨hsound.1, hsound.2, fun hfirst => by simp [htask, Task.isFirst] at hfirst⟩
    · cases hstep
  · rw [Option.some.injEq] at hstep
    subst hstep
    refine h.setCall ?_ i
    exact ⟨by simp [Task.matchNames], by simp⟩

/-! ### The routine that reads -/

omit [DecidableEq P] in
theorem mem_insertNames {n : String} {fs : List FileInfo} {names : List String} :
    n ∈ fs.foldl (fun names f => names.insert f.name) names ↔ n ∈ names ∨ ∃ f ∈ fs, f.name = n := by
  induction fs generalizing names with
  | nil => simp
  | cons f fs ih =>
    rw [List.foldl_cons, ih, List.mem_insert_iff, List.exists_mem_cons_iff]
    tauto

omit [DecidableEq P] in
/-- A reply that is read leaves only names behind that match, and are known to the caller. -/
theorem read_sound (h : w.Sound matchString told tagged held) {id : Nat} {q q' : Inquiry P} {r : Reply P}
    (hq : w.inquiries[id]? = some q) (hr : r ∈ q.future) (hread : q.read r = some q') :
    q'.caller = q.caller ∧ q'.pattern = q.pattern ∧ q'.Sound matchString told w id := by
  have hsound := h.inquiries id q hq
  obtain ⟨hid, hdest, hreply, hlisted⟩ := hsound.future r hr
  -- The reply is about the pattern of this inquiry.
  obtain ⟨pattern, ⟨q₀, hq₀, -, hpattern⟩, htold⟩ := h.replies r hreply
  rw [hid, hq, Option.some.injEq] at hq₀
  subst hq₀ hpattern
  rw [hdest] at hlisted
  unfold Inquiry.read at hread
  split at hread
  · cases hread
  · rw [Option.some.injEq] at hread
    subst hread
    split
    · unfold Inquiry.check
      split
      · next f hf =>
        refine ⟨rfl, rfl, hsound.future, hsound.nameSet, ?_⟩
        intro n hn
        have hname : f.name = n := Option.some.inj hn
        have hmem := List.mem_of_find?_eq_some hf
        subst hname
        exact ⟨r.source, f, rfl, (htold f hmem).1, List.find?_some hf, (htold f hmem).2, (hlisted f hmem).name,
          .inr (hlisted f hmem)⟩
      · exact ⟨rfl, rfl, hsound.future, hsound.nameSet, hsound.fullKnownName⟩
    · refine ⟨rfl, rfl, hsound.future, ?_, hsound.fullKnownName⟩
      intro n hn
      rcases mem_insertNames.mp hn with hn | ⟨f, hf, rfl⟩
      · exact hsound.nameSet n hn
      · exact ⟨(htold f hf).1, (hlisted f hf).name⟩

theorem World.Sound.stepReceive (h : w.Sound matchString told tagged held) {id : Nat} {q : Inquiry P} {r : Reply P}
    (hq : w.inquiries[id]? = some q) (hr : r ∈ q.future) (hstep : stepReceive w id q r = some w') :
    w'.Sound matchString told tagged held := by
  obtain ⟨q', hread, hstep⟩ := Option.map_eq_some_iff.mp hstep
  obtain ⟨hcaller, hpattern, hsound⟩ := read_sound h hq hr hread
  have hempty : (w.setInquiry id { q' with future := none }).Sound matchString told tagged held :=
    h.setInquiry hq hcaller hpattern ⟨by simp, hsound.nameSet, hsound.fullKnownName⟩
  split at hstep
  · next waiting hwaiting =>
    split at hstep
    · next hid =>
      subst hstep
      obtain ⟨hdest, hlearned⟩ := h.sending q'.caller waiting hwaiting
      have hfull : (w.setInquiry id { q' with future := some waiting }).Sound matchString told tagged held := by
        refine h.setInquiry hq hcaller hpattern ⟨?_, hsound.nameSet, hsound.fullKnownName⟩
        intro r' hr'
        rw [Option.mem_def, Option.some.injEq] at hr'
        subst hr'
        exact ⟨hid, hdest, hlearned⟩
      refine hfull.setRest hfull.past ?_ hfull.calls hfull.answers hfull.requests
      intro p r' hr'
      by_cases hp : p = q'.caller
      · subst hp
        rw [Function.update_self] at hr'
        cases hr'
      · rw [Function.update_of_ne hp] at hr'
        exact hfull.sending p r' hr'
    · subst hstep
      exact hempty
  · subst hstep
    exact hempty

/-! ### Any step -/

theorem World.Sound.step (hhas : ∀ p f, w.Has p f → told p f) (hheld : ∀ p, held p (w.blob p))
    (htagged : ∀ p f, told p f → tagged (f.name, f.metahash))
    (h : w.Sound matchString told tagged held) {e : Event P} (htag : ∀ p name metahash, e = .tag p name metahash →
      tagged (name, metahash)) (hstep : step matchString w e = some w') : w'.Sound matchString told tagged held := by
  cases e with
  | tag p name metahash =>
    cases hstep
    exact h.setName p (htag p name metahash rfl)
  | store p key value =>
    cases hstep
    refine h.setRest ?_ h.sending h.calls h.answers h.requests
    intro q blob hblob
    by_cases hq : q = p
    · subst hq
      rw [Function.update_self, List.mem_cons] at hblob
      rcases hblob with rfl | hblob
      · exact hheld q
      · exact h.past q blob hblob
    · rw [Function.update_of_ne hq] at hblob
      exact h.past q blob hblob
  | addNeighbor p nei =>
    cases hstep
    exact h.setRest h.past h.sending h.calls h.answers h.requests
  | packet p =>
    simp only [Catalog.step, Option.ite_none_right_eq_some, Option.some.injEq] at hstep
    obtain ⟨-, rfl⟩ := hstep
    exact h
  | searchAll p pattern budget order =>
    simp only [Catalog.step, Option.ite_none_right_eq_some, Option.some.injEq] at hstep
    obtain ⟨horder, rfl⟩ := hstep
    refine h.setRest h.past h.sending ?_ h.answers h.requests
    intro c hc
    rcases List.mem_append.mp hc with hc | hc
    · exact h.calls c hc
    · rw [List.mem_singleton] at hc
      subst hc
      refine ⟨?_, by simp⟩
      intro n hn
      obtain ⟨hn, hmatch⟩ := List.mem_filter.mp hn
      obtain ⟨b, hb, rfl⟩ := List.mem_map.mp hn
      exact ⟨hmatch, b.2, horder.mem_iff.mp hb⟩
  | searchFirst p pattern conf order moments =>
    simp only [Catalog.step, Option.ite_none_right_eq_some] at hstep
    obtain ⟨horder, hstep⟩ := hstep
    split at hstep
    · next b hb =>
      cases hstep
      refine h.setRest h.past h.sending h.calls ?_ h.requests
      intro a ha
      rcases List.mem_append.mp ha with ha | ha
      · exact h.answers a ha
      · rw [List.mem_singleton] at ha
        subst ha
        intro n hn
        rw [List.mem_singleton] at hn
        subst hn
        have hmem := horder.mem_iff.mp (List.mem_of_find?_eq_some hb)
        have hmatch := List.find?_some hb
        rw [Bool.and_eq_true] at hmatch
        obtain ⟨f, hdescribe, hfull⟩ := isFull_describe hmatch.2 b.1
        obtain ⟨hname, hmetahash⟩ := describe_name hdescribe
        have hf : w.Has p f := by
          refine ⟨?_, ?_⟩
          · rw [hname, hmetahash]
            exact hmem
          · rw [hname, hmetahash]
            exact ⟨_, hdescribe⟩
        exact ⟨hmatch.1, ⟨b.2, hmem⟩, fun _ => ⟨p, f, hname, hmatch.1, hfull, hhas p f hf, ⟨b.2, hmem⟩, .inl rfl⟩⟩
    · cases hstep
      refine h.setRest h.past h.sending ?_ h.answers h.requests
      intro c hc
      rcases List.mem_append.mp hc with hc | hc
      · exact h.calls c hc
      · rw [List.mem_singleton] at hc
        subst hc
        exact ⟨by simp [Task.matchNames], by simp⟩
  | ask i dice sent =>
    obtain ⟨c, hc, hstep⟩ := Option.bind_eq_some_iff.mp hstep
    rw [Option.ite_none_right_eq_some] at hstep
    exact h.stepAsk (h.calls c (List.mem_of_getElem? hc)) hstep.2
  | finish i order =>
    obtain ⟨c, hc, hstep⟩ := Option.bind_eq_some_iff.mp hstep
    obtain ⟨id, hid, hstep⟩ := Option.bind_eq_some_iff.mp hstep
    obtain ⟨q, hq, hstep⟩ := Option.bind_eq_some_iff.mp hstep
    exact h.stepFinish (h.calls c (List.mem_of_getElem? hc)) hid hq hstep
  | found i =>
    obtain ⟨c, hc, hstep⟩ := Option.bind_eq_some_iff.mp hstep
    obtain ⟨id, hid, hstep⟩ := Option.bind_eq_some_iff.mp hstep
    obtain ⟨q, hq, hstep⟩ := Option.bind_eq_some_iff.mp hstep
    obtain ⟨name, hname, rfl⟩ := Option.map_eq_some_iff.mp hstep
    obtain ⟨q', hq', hcaller, hpattern⟩ := (h.calls c (List.mem_of_getElem? hc)).asked id hid
    rw [hq, Option.some.injEq] at hq'
    subst hq'
    refine h.answer fun n hn => ?_
    rw [List.mem_singleton] at hn
    subst hn
    have hcomplete := (h.inquiries id q hq).fullKnownName n hname
    rw [hcaller, hpattern] at hcomplete
    exact ⟨hcomplete.known.1, hcomplete.known.2, fun _ => hcomplete⟩
  | request r order moments dice sent replied =>
    simp only [Catalog.step, Option.ite_none_right_eq_some] at hstep
    obtain ⟨⟨hr, -, horder⟩, hstep⟩ := hstep
    exact h.searchRequestMessageCallback hhas hr horder hstep
  | requestPanics r =>
    simp only [Catalog.step, Option.ite_none_right_eq_some, Option.some.injEq] at hstep
    obtain ⟨-, rfl⟩ := hstep
    exact h.markRequest r.dest r.requestID
  | reply r =>
    simp only [Catalog.step, Option.ite_none_right_eq_some, Option.some.injEq] at hstep
    obtain ⟨⟨hr, -⟩, rfl⟩ := hstep
    exact h.searchReplyMessageCallback htagged hr
  | receive id =>
    obtain ⟨q, hq, hstep⟩ := Option.bind_eq_some_iff.mp hstep
    rw [Option.ite_none_right_eq_some] at hstep
    obtain ⟨r, hr, hstep⟩ := Option.bind_eq_some_iff.mp hstep.2
    exact h.stepReceive hq hr hstep
  | timeout id =>
    obtain ⟨q, hq, hstep⟩ := Option.bind_eq_some_iff.mp hstep
    simp only [Option.ite_none_right_eq_some, Option.some.injEq] at hstep
    obtain ⟨-, rfl⟩ := hstep
    have hsound := h.inquiries id q hq
    exact h.setInquiry hq rfl rfl ⟨hsound.future, hsound.nameSet, hsound.fullKnownName⟩

end Steps

end MarketPeer.Catalog

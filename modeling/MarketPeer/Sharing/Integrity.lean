import Mathlib.Data.List.Forall2
import MarketPeer.Sharing.Readers
import MarketPeer.Sharing.Replies

/-!
# What a download returns

A peer stores whatever a reply brings it and checks no hash. Each content in the network
still belongs to its key, so that a `Download` returns the data of the uploads of its
metahash, from whichever peers the parts came.
-/

namespace MarketPeer.Sharing

variable {P : Type} [DecidableEq P] {sha256 : Bytes → Bytes} {conf : P → Config}

/-! ## Downloads with the contents that have come -/

/-- A call of `Upload` that has read its data. -/
structure Call (P : Type) where
  peer : P
  data : Bytes
deriving DecidableEq

/-- The argument of a `Download` and its `chunks`. -/
structure Collected where
  metahash : Key
  chunks : List Bytes

/-- A `Download` that has returned without an error. -/
structure Fetched (P : Type) where
  caller : P
  metahash : Key
  data : Bytes
deriving DecidableEq

/-- `collected` has an entry for each download, in their order. -/
structure Tracked (P : Type) where
  world : World P
  collected : List Collected
  uploads : List (Call P)
  fetched : List (Fetched P)

def Tracked.start (P : Type) : Tracked P := ⟨.start P, [], [], []⟩

/-- What a move of a download comes to: the content of its key, or an error. -/
inductive Outcome where
  | goesOn
  | fails
  | got (content : Bytes)

def Download.outcome (w : World P) (d : Download P) : Move P → Outcome
  | .lookup peer =>
    match w.blob d.caller d.key with
    | some content => .got content
    | none => if peer.isSome then .goesOn else .fails
  | .round sent =>
    match d.phase with
    | .round _ (_ + 1) => if sent then .goesOn else .fails
    | _ => .fails
  | .timeout => .goesOn
  | .receive =>
    match d.phase with
    | .wait _ _ requestID =>
      let content := ((w.channel requestID).getD none).getD []
      if content = [] then .fails else .got content
    | _ => .fails

/-- `append(chunks, chunkContent)`, unless it is the metafile that has come. -/
def Download.collect (d : Download P) (c : Collected) (content : Bytes) : List Bytes :=
  if d.rest.isSome then c.chunks ++ [content] else c.chunks

/-- The download goes on, or `chunks` are joined at its end. -/
def Tracked.settle (t : Tracked P) (i : Nat) (d : Download P) (c : Collected) (world : World P) :
    Outcome → Tracked P
  | .goesOn => { t with world }
  | .fails => { t with world, collected := t.collected.eraseIdx i }
  | .got content =>
    let chunks := d.collect c content
    match d.next content with
    | some _ => { t with world, collected := t.collected.set i { c with chunks } }
    | none =>
      { t with
        world
        collected := t.collected.eraseIdx i
        fetched := t.fetched ++ [⟨d.caller, c.metahash, chunks.flatten⟩] }

variable (sha256 conf) in
/-- The call of `Upload` that an event has come to the end of the reader with. -/
def Event.reads : Event P → Option (Call P)
  | .upload peer reads =>
    match Assembly.assemble sha256 (conf peer).chunkSize (.start (conf peer).chunkSize) reads with
    | some (.ok _) => some ⟨peer, reads.flatMap (·.bytes)⟩
    | _ => none
  | _ => none

variable (sha256 conf) in
def Tracked.record (t : Tracked P) (world : World P) : Event P → Tracked P
  | .upload peer reads =>
    { t with world, uploads := t.uploads ++ ((Event.upload peer reads).reads sha256 conf).toList }
  | .download _ metahash => { t with world, collected := t.collected ++ [⟨metahash, []⟩] }
  | .move i m =>
    match t.world.downloads[i]?, t.collected[i]? with
    | some d, some c => t.settle i d c world (d.outcome t.world m)
    | _, _ => { t with world }
  | _ => { t with world }

variable (sha256 conf) in
def trackedStep (t : Tracked P) (e : Event P) : Option (Tracked P) :=
  (step sha256 conf t.world e).map fun world => t.record sha256 conf world e

/-! ## Contents and their keys -/

variable (conf) in
def Call.chunks (u : Call P) : List Bytes := chunksOf (conf u.peer).chunkSize u.data

variable (sha256 conf) in
/-- `Upload` returns it. -/
def Call.metahash (u : Call P) : Key := hexHash sha256 (digests sha256 (u.chunks conf))

variable (sha256 conf) in
/-- The content is a chunk under its hash or a metafile under its own key, of one of the uploads. -/
def Genuine (us : List (Call P)) (key : Key) (content : Bytes) : Prop :=
  ∃ u ∈ us, (∃ chunk ∈ u.chunks conf, key = hexHash sha256 chunk ∧ content = chunk) ∨
    key = u.metahash sha256 conf ∧ content = metafile sha256 (u.chunks conf)

omit [DecidableEq P] in
theorem Genuine.mono {us us' : List (Call P)} {key : Key} {content : Bytes} (h : Genuine sha256 conf us key content)
    (hsub : ∀ u ∈ us, u ∈ us') : Genuine sha256 conf us' key content := by
  obtain ⟨u, hu, hcontent⟩ := h
  exact ⟨u, hsub u hu, hcontent⟩

variable (sha256) in
/-- What is still to be stored of an upload. -/
structure Remains (a : Assembly) (chunks : List Bytes) : Prop where
  metafileKey : a.metafileKey sha256 = hexHash sha256 (digests sha256 chunks)
  metafileValue : a.metafileValue = metafile sha256 chunks
  sound : ∀ key chunk, a.chunks key = some chunk → chunk ∈ chunks ∧ key = hexHash sha256 chunk

variable (sha256 conf) in
/-- `keyOf` is the key of each request. -/
structure World.Sound (us : List (Call P)) (keyOf : Nat → Key) (w : World P) : Prop where
  storing : ∀ s ∈ w.storing, ∃ u ∈ us, Remains sha256 s.assembly (u.chunks conf)
  blob : ∀ p key, ∀ c ∈ w.blob p key, Genuine sha256 conf us key c
  requests : ∀ r ∈ w.requests, r.requestID < w.nextID ∧ r.key = keyOf r.requestID
  replies : ∀ r ∈ w.replies, r.requestID < w.nextID ∧ r.key = keyOf r.requestID ∧
    ∀ c ∈ r.value, Genuine sha256 conf us r.key c
  channel : ∀ id v, w.channel id = some v → id < w.nextID ∧ ∀ c ∈ v, Genuine sha256 conf us (keyOf id) c
  sending : ∀ p id v, w.sending p = some (id, v) → id < w.nextID ∧ ∀ c ∈ v, Genuine sha256 conf us (keyOf id) c
  waiting : ∀ d ∈ w.downloads, ∀ peer left id, d.phase = .wait peer left id → id < w.nextID ∧ d.key = keyOf id

section Steps

variable {us us' : List (Call P)} {keyOf : Nat → Key} {w w' : World P} {i : Nat} {d : Download P}

omit [DecidableEq P] in
theorem sound_start : (World.start P).Sound sha256 conf us keyOf where
  storing := by simp [World.start]
  blob := by simp [World.start]
  requests := by simp [World.start]
  replies := by simp [World.start]
  channel := by simp [World.start]
  sending := by simp [World.start]
  waiting := by simp [World.start]

omit [DecidableEq P] in
theorem World.Sound.mono (h : w.Sound sha256 conf us keyOf) (hsub : ∀ u ∈ us, u ∈ us') :
    w.Sound sha256 conf us' keyOf where
  storing s hs := (h.storing s hs).imp fun u hu => ⟨hsub u hu.1, hu.2⟩
  blob p key c hc := (h.blob p key c hc).mono hsub
  requests := h.requests
  replies r hr := ⟨(h.replies r hr).1, (h.replies r hr).2.1, fun c hc => ((h.replies r hr).2.2 c hc).mono hsub⟩
  channel id v hv := ⟨(h.channel id v hv).1, fun c hc => ((h.channel id v hv).2 c hc).mono hsub⟩
  sending p id v hv := ⟨(h.sending p id v hv).1, fun c hc => ((h.sending p id v hv).2 c hc).mono hsub⟩
  waiting := h.waiting

theorem World.Sound.set (h : w.Sound sha256 conf us keyOf) {p : P} {key : Key} {value : Option Bytes}
    (hvalue : ∀ c ∈ value, Genuine sha256 conf us key c) : (w.set p key value).Sound sha256 conf us keyOf := by
  refine { h with blob := ?_ }
  intro q key' c hc
  rw [World.set_apply] at hc
  split at hc
  · next heq =>
    rw [heq.2]
    exact hvalue c hc
  · exact h.blob q key' c hc

omit [DecidableEq P] in
theorem World.Sound.setDownload (h : w.Sound sha256 conf us keyOf) {o : Option (Download P)}
    (ho : ∀ d ∈ o, ∀ peer left id, d.phase = .wait peer left id → id < w.nextID ∧ d.key = keyOf id) :
    (w.setDownload i o).Sound sha256 conf us keyOf := by
  cases o with
  | none => exact { h with waiting := fun d hd => h.waiting d (List.mem_of_mem_eraseIdx hd) }
  | some d =>
    refine { h with waiting := ?_ }
    intro d' hd'
    rcases List.mem_or_eq_of_mem_set hd' with hd' | rfl
    · exact h.waiting d' hd'
    · exact ho _ rfl

/-- The request has an identifier that is new. -/
theorem World.Sound.ask (h : w.Sound sha256 conf us keyOf) (i : Nat) (d : Download P) (peer : P) (left : Nat) :
    (w.ask i d peer left).Sound sha256 conf us (Function.update keyOf w.nextID d.key) := by
  have hold {id : Nat} (hid : id < w.nextID) : Function.update keyOf w.nextID d.key id = keyOf id :=
    Function.update_of_ne (Nat.ne_of_lt hid) ..
  have hlt {id : Nat} (hid : id < w.nextID) : id < w.nextID + 1 := Nat.lt_succ_of_lt hid
  refine ⟨h.storing, h.blob, ?_, ?_, ?_, ?_, ?_⟩
  · intro r hr
    rcases List.mem_append.mp hr with hr | hr
    · obtain ⟨hid, hkey⟩ := h.requests r hr
      exact ⟨hlt hid, by rw [hold hid, hkey]⟩
    · rw [List.mem_singleton.mp hr]
      exact ⟨Nat.lt_succ_self w.nextID, (Function.update_self w.nextID d.key keyOf).symm⟩
  · intro r hr
    obtain ⟨hid, hkey, hvalue⟩ := h.replies r hr
    exact ⟨hlt hid, by rw [hold hid, hkey], hvalue⟩
  · intro id v hv
    obtain ⟨hid, hvalue⟩ := h.channel id v hv
    exact ⟨hlt hid, by rwa [hold hid]⟩
  · intro p id v hv
    obtain ⟨hid, hvalue⟩ := h.sending p id v hv
    exact ⟨hlt hid, by rwa [hold hid]⟩
  · intro d' hd' peer' left' id hphase
    rcases List.mem_or_eq_of_mem_set hd' with hd' | rfl
    · obtain ⟨hid, hkey⟩ := h.waiting d' hd' peer' left' id hphase
      exact ⟨hlt hid, by rw [hold hid, hkey]⟩
    · cases hphase
      exact ⟨Nat.lt_succ_self w.nextID, (Function.update_self w.nextID d.key keyOf).symm⟩

omit [DecidableEq P] in
theorem World.Sound.setChannel (h : w.Sound sha256 conf us keyOf) (requestID : Nat) {o : Option (Option Bytes)}
    (ho : ∀ v ∈ o, requestID < w.nextID ∧ ∀ c ∈ v, Genuine sha256 conf us (keyOf requestID) c) :
    World.Sound sha256 conf us keyOf { w with channel := Function.update w.channel requestID o } := by
  refine { h with channel := ?_ }
  intro id v hv
  dsimp only at hv
  rw [Function.update_apply] at hv
  split_ifs at hv with heq
  · rw [heq]
    exact ho v hv
  · exact h.channel id v hv

theorem World.Sound.setSending (h : w.Sound sha256 conf us keyOf) (p : P) {o : Option (Nat × Option Bytes)}
    (ho : ∀ x ∈ o, x.1 < w.nextID ∧ ∀ c ∈ x.2, Genuine sha256 conf us (keyOf x.1) c) :
    World.Sound sha256 conf us keyOf { w with sending := Function.update w.sending p o } := by
  refine { h with sending := ?_ }
  intro q id v hv
  dsimp only at hv
  rw [Function.update_apply] at hv
  split_ifs at hv
  · exact ho (id, v) hv
  · exact h.sending q id v hv

theorem World.Sound.complete (h : w.Sound sha256 conf us keyOf) {p : P} {requestID : Nat} {value : Option Bytes}
    (hid : requestID < w.nextID) (hvalue : ∀ c ∈ value, Genuine sha256 conf us (keyOf requestID) c) :
    (w.complete p requestID value).Sound sha256 conf us keyOf := by
  unfold World.complete
  split_ifs
  · split
    · exact h.setChannel requestID (by simpa using ⟨hid, hvalue⟩)
    · exact h.setSending p (by simpa using ⟨hid, hvalue⟩)
  · exact h

/-- The channel is empty, or it has the value of the handler that waited. -/
theorem World.Sound.takeFuture (h : w.Sound sha256 conf us keyOf) (p : P) (requestID : Nat) :
    (w.takeFuture p requestID).Sound sha256 conf us keyOf := by
  unfold World.takeFuture
  split
  · next waiting value hsending =>
    split_ifs with heq
    · subst heq
      obtain ⟨hid, hvalue⟩ := h.sending p waiting value hsending
      exact (h.setChannel waiting (by simpa using ⟨hid, hvalue⟩)).setSending p (by simp)
    · exact h.setChannel requestID (by simp)
  · exact h.setChannel requestID (by simp)

/-! ## What a step of a download does -/

theorem stepDownload_sound (h : w.Sound sha256 conf us keyOf) {m : Move P}
    (hstep : stepDownload conf w i d m = some w') : ∃ keyOf', w'.Sound sha256 conf us keyOf' := by
  have hnext (content : Bytes) : ∀ d' ∈ d.next content, ∀ peer left id, d'.phase = .wait peer left id →
      id < w.nextID ∧ d'.key = keyOf id := by
    intro d' hd' peer left id hphase
    unfold Download.next at hd'
    split at hd'
    · cases hd'
    · cases hd'
      cases hphase
  cases m with
  | lookup peer =>
    simp only [stepDownload] at hstep
    split_ifs at hstep
    split at hstep
    · cases hstep
      exact ⟨keyOf, h.setDownload (hnext _)⟩
    · cases hstep
      refine ⟨keyOf, h.setDownload ?_⟩
      intro d' hd'
      obtain ⟨peer, -, rfl⟩ := Option.map_eq_some_iff.mp hd'
      simp
  | round sent =>
    simp only [stepDownload] at hstep
    split at hstep
    · cases hstep
      split_ifs
      · exact ⟨_, h.ask i d _ _⟩
      · exact ⟨keyOf, h.setDownload (by simp)⟩
    · cases hstep
      exact ⟨keyOf, h.setDownload (by simp)⟩
    · cases hstep
  | timeout =>
    simp only [stepDownload] at hstep
    split at hstep
    · next peer left requestID hphase =>
      cases hstep
      have hset := h.setDownload (i := i) (o := some { d with phase := .round peer left }) (by simp)
      exact ⟨keyOf, { hset with }⟩
    · cases hstep
  | receive =>
    simp only [stepDownload] at hstep
    split at hstep
    · obtain ⟨content, -, rfl⟩ := Option.map_eq_some_iff.mp hstep
      refine ⟨keyOf, (h.setDownload ?_).takeFuture d.caller _⟩
      split_ifs
      · simp
      · exact hnext _
    · cases hstep

theorem stepDownload_downloads {m : Move P} (hstep : stepDownload conf w i d m = some w') :
    match d.outcome w m with
    | .goesOn => ∃ phase, w'.downloads = w.downloads.set i { d with phase }
    | .fails => w'.downloads = w.downloads.eraseIdx i
    | .got content =>
      w'.downloads = match d.next content with
        | some d' => w.downloads.set i d'
        | none => w.downloads.eraseIdx i := by
  have htake (w : World P) (p : P) (requestID : Nat) : (w.takeFuture p requestID).downloads = w.downloads := by
    unfold World.takeFuture
    split
    · split_ifs <;> rfl
    · rfl
  have hnext (w : World P) (content : Bytes) : (w.setDownload i (d.next content)).downloads =
      match d.next content with
      | some d' => w.downloads.set i d'
      | none => w.downloads.eraseIdx i := by
    cases d.next content <;> rfl
  cases m with
  | lookup peer =>
    simp only [stepDownload] at hstep
    split_ifs at hstep
    unfold Download.outcome
    cases hblob : w.blob d.caller d.key with
    | some content =>
      simp only [hblob, Option.some.injEq] at hstep ⊢
      rw [← hstep, hnext]
    | none =>
      simp only [hblob, Option.some.injEq] at hstep ⊢
      subst hstep
      cases peer with
      | none => rfl
      | some peer => exact ⟨_, rfl⟩
  | round sent =>
    simp only [stepDownload] at hstep
    unfold Download.outcome
    split at hstep
    · next peer left hphase =>
      cases hstep
      cases sent with
      | false => simp [hphase, World.setDownload]
      | true =>
        simp only [hphase, if_true]
        exact ⟨_, rfl⟩
    · next peer hphase =>
      cases hstep
      simp [hphase, World.setDownload]
    · cases hstep
  | timeout =>
    simp only [stepDownload] at hstep
    split at hstep
    · cases hstep
      exact ⟨_, rfl⟩
    · cases hstep
  | receive =>
    simp only [stepDownload] at hstep
    split at hstep
    · next peer left requestID hphase =>
      obtain ⟨content, hcontent, rfl⟩ := Option.map_eq_some_iff.mp hstep
      unfold Download.outcome
      simp only [hphase, hcontent, Option.getD_some]
      split_ifs with hempty
      · rw [htake]
        rfl
      · simp only [htake]
        rw [hnext]
    · cases hstep

omit [DecidableEq P] in
theorem outcome_genuine (h : w.Sound sha256 conf us keyOf) (hd : w.downloads[i]? = some d) {m : Move P}
    {content : Bytes} (hgot : d.outcome w m = .got content) : Genuine sha256 conf us d.key content := by
  unfold Download.outcome at hgot
  split at hgot
  · split at hgot
    · next hblob =>
      cases hgot
      exact h.blob d.caller d.key content hblob
    · split_ifs at hgot
  · split at hgot
    · split_ifs at hgot
    · cases hgot
  · cases hgot
  · split at hgot
    · next peer left requestID hphase =>
      obtain ⟨-, hkey⟩ := h.waiting d (List.mem_of_getElem? hd) peer left requestID hphase
      dsimp only at hgot
      split_ifs at hgot with hne
      cases hgot
      cases hchannel : w.channel requestID with
      | none => simp [hchannel] at hne
      | some v =>
        cases v with
        | none => simp [hchannel] at hne
        | some content =>
          rw [hkey]
          exact (h.channel requestID _ hchannel).2 _ rfl
    · cases hgot

/-! ## What a step of the network does -/

theorem step_sound (hsize : ∀ p, 1 ≤ (conf p).chunkSize) (h : w.Sound sha256 conf us keyOf) {e : Event P}
    (hstep : step sha256 conf w e = some w') :
    ∃ keyOf', w'.Sound sha256 conf (us ++ (e.reads sha256 conf).toList) keyOf' := by
  have hmore : w.Sound sha256 conf (us ++ (e.reads sha256 conf).toList) keyOf :=
    h.mono fun u hu => List.mem_append_left _ hu
  cases e with
  | upload peer reads =>
    obtain ⟨result, hresult, rfl⟩ := Option.map_eq_some_iff.mp hstep
    refine ⟨keyOf, ?_⟩
    cases result with
    | error e => exact hmore
    | ok a =>
      refine { hmore with storing := ?_ }
      intro s hs
      rcases List.mem_append.mp hs with hs | hs
      · exact hmore.storing s hs
      · rw [List.mem_singleton.mp hs]
        have hroom : (Assembly.start (conf peer).chunkSize).HasRoom (conf peer).chunkSize :=
          ⟨hsize peer, by simp [Assembly.start]⟩
        have hholds := Assembly.holds_start.assemble reads hroom hresult
        refine ⟨⟨peer, reads.flatMap (·.bytes)⟩, by simp [Event.reads, hresult], ?_⟩
        exact ⟨hholds.metafileKey_eq, hholds.metafileValue_eq, hholds.sound⟩
  | storeChunk i key =>
    obtain ⟨⟨p, key', chunk⟩, hwrite, rfl⟩ := Option.map_eq_some_iff.mp hstep
    obtain ⟨s, hs, hchunk⟩ := Option.bind_eq_some_iff.mp hwrite
    obtain ⟨chunk', hchunk, heq⟩ := Option.map_eq_some_iff.mp hchunk
    cases heq
    refine ⟨keyOf, World.Sound.set ?_ ?_⟩
    · refine { hmore with storing := ?_ }
      intro s' hs'
      obtain ⟨j, hj⟩ := List.mem_iff_getElem?.mp hs'
      rw [List.getElem?_modify] at hj
      obtain ⟨s₀, hs₀, rfl⟩ := Option.map_eq_some_iff.mp hj
      obtain ⟨u, hu, hremains⟩ := hmore.storing s₀ (List.mem_of_getElem? hs₀)
      refine ⟨u, hu, ?_⟩
      split_ifs
      · refine ⟨hremains.metafileKey, hremains.metafileValue, ?_⟩
        intro key' chunk' hkey'
        dsimp only at hkey'
        rw [Function.update_apply] at hkey'
        split_ifs at hkey'
        exact hremains.sound key' chunk' hkey'
      · exact hremains
    · obtain ⟨u, hu, hremains⟩ := hmore.storing s (List.mem_of_getElem? hs)
      obtain ⟨hmem, hkey⟩ := hremains.sound key chunk hchunk
      rintro c ⟨⟩
      exact ⟨u, hu, .inl ⟨chunk, hmem, hkey, rfl⟩⟩
  | storeMetafile i =>
    obtain ⟨⟨p, key, value⟩, hwrite, rfl⟩ := Option.map_eq_some_iff.mp hstep
    obtain ⟨s, hs, hmeta⟩ := Option.bind_eq_some_iff.mp hwrite
    rw [Option.ite_none_right_eq_some, Option.some.injEq] at hmeta
    obtain ⟨-, heq⟩ := hmeta
    cases heq
    refine ⟨keyOf, World.Sound.set ?_ ?_⟩
    · exact { hmore with storing := fun s hs => hmore.storing s (List.mem_of_mem_eraseIdx hs) }
    · obtain ⟨u, hu, hremains⟩ := hmore.storing s (List.mem_of_getElem? hs)
      rintro c ⟨⟩
      exact ⟨u, hu, .inr ⟨hremains.metafileKey, hremains.metafileValue⟩⟩
  | download caller metahash =>
    cases hstep
    refine ⟨keyOf, { hmore with waiting := ?_ }⟩
    intro d hd peer left id hphase
    rcases List.mem_append.mp hd with hd | hd
    · exact hmore.waiting d hd peer left id hphase
    · rw [List.mem_singleton.mp hd] at hphase
      cases hphase
  | move i m =>
    obtain ⟨d, -, hstep⟩ := Option.bind_eq_some_iff.mp hstep
    exact stepDownload_sound hmore hstep
  | request r =>
    rw [step, Option.ite_none_right_eq_some, Option.some.injEq] at hstep
    obtain ⟨⟨hr, -⟩, rfl⟩ := hstep
    refine ⟨keyOf, { hmore with replies := ?_ }⟩
    intro r' hr'
    rcases List.mem_append.mp hr' with hr' | hr'
    · exact hmore.replies r' hr'
    · rw [List.mem_singleton.mp hr']
      obtain ⟨hid, hkey⟩ := hmore.requests r hr
      exact ⟨hid, hkey, hmore.blob r.dest r.key⟩
  | reply r =>
    rw [step, Option.ite_none_right_eq_some, Option.some.injEq] at hstep
    obtain ⟨⟨hr, -⟩, rfl⟩ := hstep
    obtain ⟨hid, hkey, hvalue⟩ := hmore.replies r hr
    exact ⟨keyOf, (hmore.set hvalue).complete hid (by rwa [← hkey])⟩

end Steps

/-! ## How far a download is -/

variable (sha256 conf) in
/-- The metafile of the metahash has come, and of its keys the first ones have. -/
def Gathered (us : List (Call P)) (metahash : Key) (keys : List Key) (chunks : List Bytes) : Prop :=
  ∃ metafileValue done, Genuine sha256 conf us metahash metafileValue ∧
    metafileValue.splitOn metafileSep = done ++ keys ∧ List.Forall₂ (Genuine sha256 conf us) done chunks

variable (sha256 conf) in
def Progress (us : List (Call P)) (d : Download P) (c : Collected) : Prop :=
  match d.rest with
  | none => d.key = c.metahash ∧ c.chunks = []
  | some rest => Gathered sha256 conf us c.metahash (d.key :: rest) c.chunks

section Progress

variable {us us' : List (Call P)} {d : Download P} {c : Collected} {content : Bytes}

omit [DecidableEq P] in
theorem Gathered.mono {metahash : Key} {keys : List Key} {chunks : List Bytes}
    (h : Gathered sha256 conf us metahash keys chunks) (hsub : ∀ u ∈ us, u ∈ us') :
    Gathered sha256 conf us' metahash keys chunks := by
  obtain ⟨value, done, hvalue, hsplit, hdone⟩ := h
  exact ⟨value, done, hvalue.mono hsub, hsplit, hdone.imp fun _ _ hc => hc.mono hsub⟩

omit [DecidableEq P] in
theorem Progress.mono (h : Progress sha256 conf us d c) (hsub : ∀ u ∈ us, u ∈ us') :
    Progress sha256 conf us' d c := by
  unfold Progress at h ⊢
  split at h
  · exact h
  · exact Gathered.mono h hsub

omit [DecidableEq P] in
/-- The content of the key has come: what is left are the keys that `next` goes on with. -/
theorem Progress.gathered (h : Progress sha256 conf us d c) (hcontent : Genuine sha256 conf us d.key content) :
    Gathered sha256 conf us c.metahash (d.rest.getD (content.splitOn metafileSep)) (d.collect c content) := by
  unfold Progress at h
  unfold Download.collect
  cases hrest : d.rest with
  | none =>
    rw [hrest] at h
    obtain ⟨hkey, hchunks⟩ := h
    rw [hkey] at hcontent
    exact ⟨content, [], hcontent, rfl, by simp [hchunks]⟩
  | some rest =>
    rw [hrest] at h
    obtain ⟨value, done, hvalue, hsplit, hdone⟩ := h
    refine ⟨value, done ++ [d.key], hvalue, by simpa using hsplit, ?_⟩
    simpa using List.rel_append hdone (.cons hcontent .nil)

omit [DecidableEq P] in
theorem Progress.next (h : Progress sha256 conf us d c) (hcontent : Genuine sha256 conf us d.key content)
    {d' : Download P} (hnext : d.next content = some d') :
    Progress sha256 conf us d' { c with chunks := d.collect c content } := by
  have hgathered := h.gathered hcontent
  unfold Download.next at hnext
  split at hnext
  · cases hnext
  · next key rest heq =>
    cases hnext
    rw [heq] at hgathered
    exact hgathered

omit [DecidableEq P] in
theorem Progress.last (h : Progress sha256 conf us d c) (hcontent : Genuine sha256 conf us d.key content)
    (hnext : d.next content = none) : Gathered sha256 conf us c.metahash [] (d.collect c content) := by
  have hgathered := h.gathered hcontent
  unfold Download.next at hnext
  split at hnext
  · next heq => rwa [heq] at hgathered
  · cases hnext

end Progress

/-! ## Two lists side by side -/

section Beside

variable {α β : Type} {R : α → β → Prop} {xs : List α} {ys : List β} {x : α} {y : β}

theorem beside_getElem? (h : List.Forall₂ R xs ys) {i : Nat} (hx : xs[i]? = some x) (hy : ys[i]? = some y) :
    R x y := by
  induction h generalizing i with
  | nil => cases hx
  | cons hxy _ ih =>
    cases i with
    | zero =>
      cases hx
      cases hy
      exact hxy
    | succ i => exact ih hx hy

theorem beside_set (h : List.Forall₂ R xs ys) (i : Nat) (hxy : R x y) :
    List.Forall₂ R (xs.set i x) (ys.set i y) := by
  induction h generalizing i with
  | nil => exact .nil
  | cons hold hrest ih =>
    cases i with
    | zero => exact .cons hxy hrest
    | succ i => exact .cons hold (ih i)

theorem beside_eraseIdx (h : List.Forall₂ R xs ys) (i : Nat) : List.Forall₂ R (xs.eraseIdx i) (ys.eraseIdx i) := by
  induction h generalizing i with
  | nil => exact .nil
  | cons hold hrest ih =>
    cases i with
    | zero => exact hrest
    | succ i => exact .cons hold (ih i)

end Beside

/-! ## Every run -/

variable (sha256 conf) in
structure Tracked.Sound (t : Tracked P) : Prop where
  world : ∃ keyOf, t.world.Sound sha256 conf t.uploads keyOf
  progress : List.Forall₂ (Progress sha256 conf t.uploads) t.world.downloads t.collected
  fetched : ∀ f ∈ t.fetched, ∃ chunks, Gathered sha256 conf t.uploads f.metahash [] chunks ∧ f.data = chunks.flatten

section Runs

variable {t t' : Tracked P} {world : World P} {i : Nat} {d : Download P} {c : Collected}

theorem settle_sound (h : t.Sound sha256 conf) (hd : t.world.downloads[i]? = some d) (hc : t.collected[i]? = some c)
    {m : Move P} (hstep : stepDownload conf t.world i d m = some world) :
    (t.settle i d c world (d.outcome t.world m)).Sound sha256 conf := by
  obtain ⟨keyOf, hsound⟩ := h.world
  have hworld := stepDownload_sound hsound hstep
  have hdownloads := stepDownload_downloads hstep
  have hprogress := beside_getElem? h.progress hd hc
  cases houtcome : d.outcome t.world m with
  | goesOn =>
    simp only [houtcome] at hdownloads
    obtain ⟨phase, hphase⟩ := hdownloads
    refine ⟨hworld, ?_, h.fetched⟩
    have hsame : t.collected.set i c = t.collected := by
      obtain ⟨hi, rfl⟩ := List.getElem?_eq_some_iff.mp hc
      exact List.set_getElem_self hi
    have hset := beside_set h.progress i (x := { d with phase }) hprogress
    rw [hsame] at hset
    rwa [Tracked.settle, hphase]
  | fails =>
    simp only [houtcome] at hdownloads
    refine ⟨hworld, ?_, h.fetched⟩
    rw [Tracked.settle, hdownloads]
    exact beside_eraseIdx h.progress i
  | got content =>
    simp only [houtcome] at hdownloads
    have hcontent := outcome_genuine hsound hd houtcome
    unfold Tracked.settle
    cases hnext : d.next content with
    | some d' =>
      simp only [hnext] at hdownloads ⊢
      refine ⟨hworld, ?_, h.fetched⟩
      rw [hdownloads]
      exact beside_set h.progress i (hprogress.next hcontent hnext)
    | none =>
      simp only [hnext] at hdownloads ⊢
      refine ⟨hworld, ?_, ?_⟩
      · rw [hdownloads]
        exact beside_eraseIdx h.progress i
      · intro f hf
        rcases List.mem_append.mp hf with hf | hf
        · exact h.fetched f hf
        · rw [List.mem_singleton.mp hf]
          exact ⟨d.collect c content, hprogress.last hcontent hnext, rfl⟩

/-- Only the calls themselves change what they have collected. -/
theorem step_downloads {w w' : World P} {e : Event P} (hstep : step sha256 conf w e = some w')
    (hdownload : ∀ caller metahash, e ≠ .download caller metahash) (hmove : ∀ i m, e ≠ .move i m) :
    w'.downloads = w.downloads := by
  cases e with
  | upload peer reads =>
    obtain ⟨result, -, rfl⟩ := Option.map_eq_some_iff.mp hstep
    cases result <;> rfl
  | storeChunk i key =>
    obtain ⟨x, -, rfl⟩ := Option.map_eq_some_iff.mp hstep
    rfl
  | storeMetafile i =>
    obtain ⟨x, -, rfl⟩ := Option.map_eq_some_iff.mp hstep
    rfl
  | download caller metahash => exact (hdownload _ _ rfl).elim
  | move i m => exact (hmove _ _ rfl).elim
  | request r =>
    rw [step, Option.ite_none_right_eq_some, Option.some.injEq] at hstep
    rw [← hstep.2]
    rfl
  | reply r =>
    rw [step, Option.ite_none_right_eq_some, Option.some.injEq] at hstep
    rw [← hstep.2, World.dataReplyMessageCallback, World.complete]
    split_ifs
    · split <;> rfl
    · rfl

theorem trackedStep_sound (hsize : ∀ p, 1 ≤ (conf p).chunkSize) (h : t.Sound sha256 conf) {e : Event P}
    (htracked : trackedStep sha256 conf t e = some t') : t'.Sound sha256 conf := by
  obtain ⟨world, hstep, rfl⟩ := Option.map_eq_some_iff.mp htracked
  obtain ⟨keyOf, hsound⟩ := h.world
  have hworld := step_sound hsize hsound hstep
  have hquiet (hdownload : ∀ caller metahash, e ≠ .download caller metahash) (hmove : ∀ i m, e ≠ .move i m)
      (us : List (Call P)) (hus : t.uploads ++ (e.reads sha256 conf).toList = us) :
      Tracked.Sound sha256 conf { t with world, uploads := us } := by
    have hsub : ∀ u ∈ t.uploads, u ∈ us := fun u hu => hus ▸ List.mem_append_left _ hu
    refine ⟨hus ▸ hworld, ?_, ?_⟩
    · dsimp only
      rw [step_downloads hstep hdownload hmove]
      exact h.progress.imp fun _ _ hp => hp.mono hsub
    · intro f hf
      obtain ⟨chunks, hgathered, hdata⟩ := h.fetched f hf
      exact ⟨chunks, hgathered.mono hsub, hdata⟩
  cases e with
  | upload peer reads => exact hquiet nofun nofun _ rfl
  | storeChunk i key => exact hquiet nofun nofun _ (List.append_nil _)
  | storeMetafile i => exact hquiet nofun nofun _ (List.append_nil _)
  | download caller metahash =>
    cases hstep
    refine ⟨by simpa [Event.reads, Tracked.record] using hworld, ?_, h.fetched⟩
    exact List.rel_append h.progress (.cons ⟨rfl, rfl⟩ .nil)
  | move i m =>
    obtain ⟨d, hd, hstep⟩ := Option.bind_eq_some_iff.mp hstep
    have hlength := h.progress.length_eq
    obtain ⟨hi, -⟩ := List.getElem?_eq_some_iff.mp hd
    have hi' : i < t.collected.length := hlength ▸ hi
    have hc : t.collected[i]? = some t.collected[i] := List.getElem?_eq_getElem hi'
    simp only [Tracked.record, hd, hc]
    exact settle_sound h hd hc hstep
  | request r => exact hquiet nofun nofun _ (List.append_nil _)
  | reply r => exact hquiet nofun nofun _ (List.append_nil _)

theorem tracked_sound (hsize : ∀ p, 1 ≤ (conf p).chunkSize) {es : List (Event P)}
    (hrun : run (trackedStep sha256 conf) (.start P) es = some t) : t.Sound sha256 conf := by
  refine run_preserves (Tracked.Sound sha256 conf) (fun _ _ _ h hstep => trackedStep_sound hsize h hstep) es ?_ hrun
  exact ⟨⟨fun _ => [], sound_start⟩, .nil, by simp [Tracked.start]⟩

end Runs

/-! ## Contents that are the same everywhere -/

variable (sha256 conf) in
/-- Everything that the uploads have hashed. -/
def hashed (us : List (Call P)) : List Bytes := us.flatMap fun u => digests sha256 (u.chunks conf) :: u.chunks conf

variable (sha256 conf) in
/-- No chunk is the text of digests that a metafile is stored under. -/
def AllApart (us : List (Call P)) : Prop := ∀ u ∈ us, ∀ v ∈ us, digests sha256 (u.chunks conf) ∉ v.chunks conf

section Unique

variable {us : List (Call P)} {u : Call P} {content : Bytes}

omit [DecidableEq P] in
theorem mem_hashed (hu : u ∈ us) : digests sha256 (u.chunks conf) ∈ hashed sha256 conf us ∧
    ∀ chunk ∈ u.chunks conf, chunk ∈ hashed sha256 conf us :=
  ⟨List.mem_flatMap.mpr ⟨u, hu, List.mem_cons_self⟩,
    fun _ hchunk => List.mem_flatMap.mpr ⟨u, hu, List.mem_cons_of_mem _ hchunk⟩⟩

variable (hfree : CollisionFree sha256 (hashed sha256 conf us)) (hapart : AllApart sha256 conf us)

include hfree hapart

omit [DecidableEq P] in
theorem genuine_metahash (hlen : ∀ bs, (sha256 bs).length = 32) (hu : u ∈ us)
    (h : Genuine sha256 conf us (u.metahash sha256 conf) content) : content = metafile sha256 (u.chunks conf) := by
  obtain ⟨v, hv, ⟨chunk, hchunk, hkey, -⟩ | ⟨hkey, rfl⟩⟩ := h
  · have heq := hfree _ (mem_hashed hu).1 _ ((mem_hashed hv).2 chunk hchunk) (hexHash_inj.mp hkey)
    rw [← heq] at hchunk
    exact (hapart u hu v hv hchunk).elim
  · have heq := hfree _ (mem_hashed hu).1 _ (mem_hashed hv).1 (hexHash_inj.mp hkey)
    exact metafile_eq_of_digests_eq hlen heq.symm

omit [DecidableEq P] in
theorem genuine_chunk (hu : u ∈ us) {chunk : Bytes} (hchunk : chunk ∈ u.chunks conf)
    (h : Genuine sha256 conf us (hexHash sha256 chunk) content) : content = chunk := by
  obtain ⟨v, hv, ⟨chunk', hchunk', hkey, rfl⟩ | ⟨hkey, -⟩⟩ := h
  · exact (hfree _ ((mem_hashed hu).2 chunk hchunk) _ ((mem_hashed hv).2 _ hchunk') (hexHash_inj.mp hkey)).symm
  · have heq := hfree _ ((mem_hashed hu).2 chunk hchunk) _ (mem_hashed hv).1 (hexHash_inj.mp hkey)
    rw [heq] at hchunk
    exact (hapart v hv u hu hchunk).elim

omit [DecidableEq P] in
/-- Whatever contents have come for the keys of a metafile, they are its chunks. -/
theorem gathered_chunks (hlen : ∀ bs, (sha256 bs).length = 32) (hu : u ∈ us) (hne : u.data ≠ [])
    {chunks : List Bytes} (h : Gathered sha256 conf us (u.metahash sha256 conf) [] chunks) : chunks = u.chunks conf := by
  obtain ⟨value, done, hvalue, hsplit, hdone⟩ := h
  rw [genuine_metahash hfree hapart hlen hu hvalue, metafile, List.append_nil, List.splitOn_intercalate] at hsplit
  · rw [← hsplit, List.forall₂_map_left_iff] at hdone
    have hall : ∀ chunk ∈ u.chunks conf, ∀ content,
        Genuine sha256 conf us (hexHash sha256 chunk) content → chunk = content :=
      fun chunk hchunk _ hc => (genuine_chunk hfree hapart hu hchunk hc).symm
    generalize u.chunks conf = parts at hdone hall
    induction hdone with
    | nil => rfl
    | cons hc _ ih =>
      rw [List.forall_mem_cons] at hall
      rw [← hall.1 _ hc, ← ih hall.2]
  · intro key hkey
    obtain ⟨chunk, -, rfl⟩ := List.mem_map.mp hkey
    exact metafileSep_not_mem_hexHash chunk
  · rw [Ne, List.map_eq_nil_iff]
    exact chunksOf_ne_nil hne

omit [DecidableEq P] in
/-- The metafile of an empty upload is read as one empty key, under which nothing is stored. -/
theorem not_gathered_empty (hlen : ∀ bs, (sha256 bs).length = 32) (hu : u ∈ us) (hempty : u.data = [])
    {chunks : List Bytes} (h : Gathered sha256 conf us (u.metahash sha256 conf) [] chunks) : False := by
  obtain ⟨value, done, hvalue, hsplit, hdone⟩ := h
  rw [genuine_metahash hfree hapart hlen hu hvalue, Call.chunks, hempty, List.append_nil] at hsplit
  obtain rfl : [[]] = done := hsplit
  cases hdone with
  | cons hkey _ =>
    obtain ⟨v, -, ⟨chunk, -, hnil, -⟩ | ⟨hnil, -⟩⟩ := hkey
    · have hge := length_hexHash_ge hlen chunk
      rw [← hnil] at hge
      exact absurd hge (by decide)
    · have hge := length_hexHash_ge hlen (digests sha256 (v.chunks conf))
      rw [Call.metahash] at hnil
      rw [← hnil] at hge
      exact absurd hge (by decide)

end Unique

/-- Downloads return what was uploaded. Any peers, with chunks of any sizes, any interleaving of uploads, downloads,
retries and late replies: the data of a `Download` is that of every `Upload` with the same metahash, unless hashes
collide or a chunk is the text of digests of a metafile. -/
theorem downloads_return_uploads (sha256 : Bytes → Bytes) (hlen : ∀ bs, (sha256 bs).length = 32)
    (conf : P → Config) (hsize : ∀ p, 1 ≤ (conf p).chunkSize) (es : List (Event P)) (t : Tracked P)
    (hrun : run (trackedStep sha256 conf) (.start P) es = some t)
    (hfree : CollisionFree sha256 (hashed sha256 conf t.uploads)) (hapart : AllApart sha256 conf t.uploads) :
    ∀ f ∈ t.fetched, ∀ u ∈ t.uploads, f.metahash = u.metahash sha256 conf → f.data = u.data := by
  intro f hf u hu hmetahash
  obtain ⟨chunks, hgathered, hdata⟩ := (tracked_sound hsize hrun).fetched f hf
  rw [hmetahash] at hgathered
  have hne : u.data ≠ [] := fun hempty => not_gathered_empty hfree hapart hlen hu hempty hgathered
  rw [hdata, gathered_chunks hfree hapart hlen hu hne hgathered, Call.chunks, flatten_chunksOf]

/-! ## A file of two chunks -/

def twoChunks (_ : Bool) : Config := ⟨2, 2⟩

def firstKey : Key := hexHash sampleSha [1, 2]
def lastKey : Key := hexHash sampleSha [3]
def twoMetahash : Key := hexHash sampleSha (digests sampleSha [[1, 2], [3]])
def twoMetafile : Bytes := metafile sampleSha [[1, 2], [3]]

/-- One key comes from the other peer. -/
def fetchKey (id : Nat) (key : Key) (content : Bytes) : List (Event Bool) :=
  [.move 0 (.lookup (some false)), .move 0 (.round true), .request ⟨id, true, false, key⟩,
    .reply ⟨id, true, key, some content⟩, .move 0 .receive]

/-- One peer uploads the file, and the other one downloads it, with a second request for the last chunk. -/
def shareTwo : List (Event Bool) :=
  [.upload false [⟨[1, 2], none⟩, ⟨[3], some .eof⟩], .storeChunk 0 firstKey, .storeChunk 0 lastKey,
    .storeMetafile 0, .download true twoMetahash] ++
  fetchKey 0 twoMetahash twoMetafile ++ fetchKey 1 firstKey [1, 2] ++
  [.move 0 (.lookup (some false)), .move 0 (.round true), .move 0 .timeout, .move 0 (.round true),
    .request ⟨2, true, false, lastKey⟩, .request ⟨3, true, false, lastKey⟩, .reply ⟨2, true, lastKey, some [3]⟩,
    .reply ⟨3, true, lastKey, some [3]⟩, .move 0 .receive]

theorem shareTwo_returns : ∃ t, run (trackedStep sampleSha twoChunks) (.start Bool) shareTwo = some t ∧
    t.uploads = [⟨false, [1, 2, 3]⟩] ∧ t.fetched = [⟨true, twoMetahash, [1, 2, 3]⟩] ∧
      ∀ f ∈ t.fetched, ∀ u ∈ t.uploads, f.metahash = u.metahash sampleSha twoChunks → f.data = u.data := by
  have hcheck : (run (trackedStep sampleSha twoChunks) (.start Bool) shareTwo).any (fun t =>
      decide (t.uploads = [⟨false, [1, 2, 3]⟩] ∧ t.fetched = [⟨true, twoMetahash, [1, 2, 3]⟩])) = true := by
    decide +kernel
  obtain ⟨t, hrun, ht⟩ := (Option.any_eq_true _ _).mp hcheck
  obtain ⟨huploads, hfetched⟩ := of_decide_eq_true ht
  refine ⟨t, hrun, huploads, hfetched, ?_⟩
  refine downloads_return_uploads sampleSha length_sampleSha twoChunks (by decide) shareTwo t hrun ?_ ?_
  · rw [huploads]
    unfold CollisionFree
    decide +kernel
  · rw [huploads]
    unfold AllApart
    decide +kernel

end MarketPeer.Sharing

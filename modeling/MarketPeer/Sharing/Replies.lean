import MarketPeer.Sharing.Exchange
import MarketPeer.Sharing.Uploads

/-!
# Replies and what is stored already

`DataReplyMessageCallback` stores the value of every reply, also the nil of a peer that
lacks the key. Contents of one key agree through the whole network as long as uploads
agree, and then the empty replies are the only ones that can do harm.
-/

namespace MarketPeer.Sharing

variable {P : Type} [DecidableEq P] {sha256 : Bytes → Bytes} {conf : P → Config} {w w' : World P}

/-! ## What a step does to the stores -/

omit [DecidableEq P] in
theorem World.setDownload_stores (w : World P) (i : Nat) (d : Option (Download P)) :
    (w.setDownload i d).blob = w.blob ∧ (w.setDownload i d).replies = w.replies := by
  cases d with
  | none => exact ⟨rfl, rfl⟩
  | some d => exact ⟨rfl, rfl⟩

theorem World.takeFuture_stores (w : World P) (p : P) (requestID : Nat) :
    (w.takeFuture p requestID).blob = w.blob ∧ (w.takeFuture p requestID).replies = w.replies := by
  unfold World.takeFuture
  split
  · split
    · exact ⟨rfl, rfl⟩
    · exact ⟨rfl, rfl⟩
  · exact ⟨rfl, rfl⟩

theorem World.complete_stores (w : World P) (p : P) (requestID : Nat) (value : Option Bytes) :
    (w.complete p requestID value).blob = w.blob ∧ (w.complete p requestID value).replies = w.replies := by
  unfold World.complete
  split
  · split
    · exact ⟨rfl, rfl⟩
    · exact ⟨rfl, rfl⟩
  · exact ⟨rfl, rfl⟩

theorem stepDownload_stores {i : Nat} {d : Download P} {m : Move P} (h : stepDownload conf w i d m = some w') :
    w'.blob = w.blob ∧ w'.replies = w.replies := by
  cases m with
  | lookup peer =>
    simp only [stepDownload] at h
    split at h
    · split at h
      · cases h
        exact w.setDownload_stores i _
      · cases h
        exact w.setDownload_stores i _
    · cases h
  | round sent =>
    simp only [stepDownload] at h
    split at h
    · cases h
      split
      · exact ⟨rfl, rfl⟩
      · exact ⟨rfl, rfl⟩
    · cases h
      exact w.setDownload_stores i none
    · cases h
  | timeout =>
    simp only [stepDownload] at h
    split at h
    · cases h
      exact ⟨rfl, rfl⟩
    · cases h
  | receive =>
    simp only [stepDownload] at h
    split at h
    · obtain ⟨content, -, rfl⟩ := Option.map_eq_some_iff.mp h
      have hset := w.setDownload_stores i (if content.getD [] = [] then none else d.next (content.getD []))
      have htake := World.takeFuture_stores (w.setDownload i
        (if content.getD [] = [] then none else d.next (content.getD []))) d.caller
      exact ⟨(htake _).1.trans hset.1, (htake _).2.trans hset.2⟩
    · cases h

/-- A step stores a chunk or a metafile of an upload, handles a reply, answers a request from a store,
or has nothing to do with them. -/
theorem step_cases {e : Event P} (h : step sha256 conf w e = some w') :
    (∃ p key content, w.write sha256 e = some (p, key, content) ∧
      w'.blob = (w.set p key (some content)).blob ∧ w'.replies = w.replies) ∨
    (∃ r, e = .reply r ∧ r ∈ w.replies ∧ w'.blob = (w.set r.dest r.key r.value).blob ∧ w'.replies = w.replies) ∨
    (w'.blob = w.blob ∧ ∀ r ∈ w'.replies, r ∈ w.replies ∨ ∃ p, r.value = w.blob p r.key) := by
  have hold (heq : w'.replies = w.replies) : ∀ r ∈ w'.replies, r ∈ w.replies ∨ ∃ p, r.value = w.blob p r.key := by
    intro r hr
    rw [heq] at hr
    exact .inl hr
  cases e with
  | upload peer reads =>
    obtain ⟨result, -, rfl⟩ := Option.map_eq_some_iff.mp h
    cases result with
    | ok assembly => exact .inr (.inr ⟨rfl, hold rfl⟩)
    | error e => exact .inr (.inr ⟨rfl, hold rfl⟩)
  | storeChunk i key =>
    obtain ⟨⟨p, key, chunk⟩, hwrite, rfl⟩ := Option.map_eq_some_iff.mp h
    exact .inl ⟨p, key, chunk, hwrite, rfl, rfl⟩
  | storeMetafile i =>
    obtain ⟨⟨p, key, value⟩, hwrite, rfl⟩ := Option.map_eq_some_iff.mp h
    exact .inl ⟨p, key, value, hwrite, rfl, rfl⟩
  | download caller metahash =>
    cases h
    exact .inr (.inr ⟨rfl, hold rfl⟩)
  | move i m =>
    obtain ⟨d, -, h⟩ := Option.bind_eq_some_iff.mp h
    obtain ⟨hblob, hreplies⟩ := stepDownload_stores h
    exact .inr (.inr ⟨hblob, hold hreplies⟩)
  | request r =>
    rw [step, Option.ite_none_right_eq_some, Option.some.injEq] at h
    obtain ⟨-, rfl⟩ := h
    refine .inr (.inr ⟨rfl, ?_⟩)
    intro r' hr'
    rw [World.dataRequestMessageCallback, List.mem_append, List.mem_singleton] at hr'
    obtain hr' | rfl := hr'
    · exact .inl hr'
    · exact .inr ⟨r.dest, rfl⟩
  | reply r =>
    rw [step, Option.ite_none_right_eq_some, Option.some.injEq] at h
    obtain ⟨⟨hr, -⟩, rfl⟩ := h
    obtain ⟨hblob, hreplies⟩ := (w.set r.dest r.key r.value).complete_stores r.dest r.requestID r.value
    exact .inr (.inl ⟨r, rfl, hr, hblob, hreplies⟩)

/-! ## An upload, chunk by chunk -/

section Chunks

variable {i : Nat} {p : P} {a : Assembly}

theorem step_storeChunk {key : Key} {chunk : Bytes} (hi : w.storing[i]? = some ⟨p, a⟩) (hchunk : a.chunks key = some chunk) :
    ∃ w', step sha256 conf w (.storeChunk i key) = some w' ∧
      w'.storing[i]? = some ⟨p, { a with chunks := Function.update a.chunks key none }⟩ ∧
      w'.blob p = Function.update (w.blob p) key (some chunk) := by
  have hwrite : w.write sha256 (.storeChunk i key) = some (p, key, chunk) := by
    simp [World.write, hi, hchunk]
  rw [step, hwrite]
  exact ⟨_, rfl, by simp [World.set, hi], by simp [World.set]⟩

/-- Some of the chunks are stored, one after the other. -/
theorem run_storeChunks (keys : List Key) (hnodup : keys.Nodup) (hsome : ∀ key ∈ keys, (a.chunks key).isSome)
    (hi : w.storing[i]? = some ⟨p, a⟩) :
    ∃ w', run (step sha256 conf) w (keys.map (.storeChunk i)) = some w' ∧
      w'.storing[i]? = some ⟨p, { a with chunks := fun key => if key ∈ keys then none else a.chunks key }⟩ ∧
      w'.blob p = fun key => if key ∈ keys then a.chunks key else w.blob p key := by
  induction keys generalizing w a with
  | nil => exact ⟨w, rfl, by simpa using hi, by simp⟩
  | cons key keys ih =>
    rw [List.nodup_cons] at hnodup
    obtain ⟨chunk, hchunk⟩ := Option.isSome_iff_exists.mp (hsome key List.mem_cons_self)
    obtain ⟨w₁, hfirst, hi₁, hblob₁⟩ := step_storeChunk hi hchunk
    have hsome₁ : ∀ key' ∈ keys, (Function.update a.chunks key none key').isSome := by
      intro key' hkey'
      rw [Function.update_of_ne (by rintro rfl; exact hnodup.1 hkey')]
      exact hsome key' (List.mem_cons_of_mem key hkey')
    obtain ⟨w', hrun, hi', hblob'⟩ := ih hnodup.2 hsome₁ hi₁
    refine ⟨w', ?_, ?_, ?_⟩
    · rw [List.map_cons, run_cons hfirst]
      exact hrun
    · rw [hi']
      congr 3
      funext key'
      by_cases hkey : key' = key
      · simp [hkey]
      · simp [hkey]
    · rw [hblob', hblob₁]
      funext key'
      by_cases hkey : key' = key
      · subst hkey
        simp [hnodup.1, hchunk]
      · simp [hkey]

/-- In whatever order the chunks are stored: when nobody comes in between, the store is the one of
`Assembly.store`. -/
theorem run_store {chunks : List Bytes} (h : a.Holds sha256 chunks) (keys : List Key) (hnodup : keys.Nodup)
    (hkeys : ∀ key, key ∈ keys ↔ (a.chunks key).isSome) (hi : w.storing[i]? = some ⟨p, a⟩) :
    ∃ w', run (step sha256 conf) w (keys.map (.storeChunk i) ++ [.storeMetafile i]) = some w' ∧
      w'.blob p = a.store sha256 (w.blob p) := by
  obtain ⟨w₁, hrun, hi₁, hblob₁⟩ := run_storeChunks keys hnodup (fun key hkey => (hkeys key).mp hkey) hi
  have hall : ∀ key ∈ a.chunkHexKeys, key ∈ keys := by
    intro key hkey
    rw [h.chunkHexKeys, List.mem_map] at hkey
    obtain ⟨chunk, hchunk, rfl⟩ := hkey
    exact (hkeys _).mpr (h.complete chunk hchunk)
  have hwrite : w₁.write sha256 (.storeMetafile i) = some (p, a.metafileKey sha256, a.metafileValue) := by
    simp only [World.write, hi₁, Option.bind_some]
    rw [if_pos (by simpa using fun key hkey hnone => (hnone (hall key hkey)).elim)]
    rfl
  have hlast : step sha256 conf w₁ (.storeMetafile i) =
      some (World.set { w₁ with storing := w₁.storing.eraseIdx i } p (a.metafileKey sha256) (some a.metafileValue)) := by
    rw [step, hwrite]
    rfl
  refine ⟨_, run_append _ _ hrun (by rw [run_cons hlast]; rfl), ?_⟩
  funext key
  simp only [World.set, Function.update_self, hblob₁, Assembly.store, Function.update_apply]
  split
  · rfl
  · by_cases hkey : key ∈ keys
    · obtain ⟨chunk, hchunk⟩ := Option.isSome_iff_exists.mp ((hkeys key).mp hkey)
      simp [hkey, hchunk]
    · have hnone : a.chunks key = none := by simpa using fun hsome => hkey ((hkeys key).mpr hsome)
      simp [hkey, hnone]

end Chunks

/-! ## Contents of one key -/

/-- A peer stores this content, or a reply carries it. -/
def World.Seen (w : World P) (key : Key) (content : Bytes) : Prop :=
  content ≠ [] ∧ ((∃ p, w.blob p key = some content) ∨ ∃ r ∈ w.replies, r.key = key ∧ r.value = some content)

/-- Nobody has two contents of one key. -/
def Agree (w : World P) : Prop := ∀ key c c', w.Seen key c → w.Seen key c' → c = c'

/-- The value is the content, or there is nothing in it. -/
def Fits (content : Bytes) (value : Option Bytes) : Prop := ∀ c ∈ value, c = [] ∨ c = content

def Event.handled : Event P → Option (Reply P)
  | .reply r => some r
  | _ => none

variable (sha256) in
/-- What a step must not do: an upload does not store a second content of a key, and a reply without
content does not come where there is one. -/
def Harmless (w : World P) (e : Event P) : Prop :=
  (∀ x ∈ w.write sha256 e, (∀ p, Fits x.2.2 (w.blob p x.2.1)) ∧ ∀ r ∈ w.replies, r.key = x.2.1 → Fits x.2.2 r.value) ∧
    ∀ r ∈ e.handled, r.value.getD [] = [] → (w.blob r.dest r.key).getD [] = []

instance (content : Bytes) (value : Option Bytes) : Decidable (Fits content value) := by
  unfold Fits; infer_instance

instance (w : World Bool) (e : Event Bool) : Decidable (Harmless sha256 w e) := by
  unfold Harmless; infer_instance

omit [DecidableEq P] in
theorem World.Seen.fits {key : Key} {c content : Bytes} (h : w.Seen key c) (hblob : ∀ p, Fits content (w.blob p key))
    (hreplies : ∀ r ∈ w.replies, r.key = key → Fits content r.value) : c = content := by
  obtain ⟨hne, ⟨p, hp⟩ | ⟨r, hr, hkey, hvalue⟩⟩ := h
  · exact (hblob p c hp).resolve_left hne
  · exact (hreplies r hr hkey c hvalue).resolve_left hne

theorem World.set_apply (w : World P) (p q : P) (key key' : Key) (value : Option Bytes) :
    (w.set p key value).blob q key' = if q = p ∧ key' = key then value else w.blob q key' := by
  simp only [World.set, Function.update_apply]
  by_cases hq : q = p
  · subst hq
    by_cases hkey : key' = key
    · simp [hkey]
    · simp [hkey]
  · simp [hq]

/-- Where `Seen` of the next state comes from. -/
theorem seen_step {e : Event P} (hstep : step sha256 conf w e = some w') {key : Key} {c : Bytes} (h : w'.Seen key c) :
    w.Seen key c ∨ ∃ p, w.write sha256 e = some (p, key, c) := by
  obtain ⟨hne, h⟩ := h
  have hstored (hp : ∃ p, w.blob p key = some c) : w.Seen key c := ⟨hne, .inl hp⟩
  have hcarried (hr : ∃ r ∈ w.replies, r.key = key ∧ r.value = some c) : w.Seen key c := ⟨hne, .inr hr⟩
  obtain ⟨p, key', content, hwrite, hblob, hreplies⟩ | ⟨r, -, hr, hblob, hreplies⟩ | ⟨hblob, hreplies⟩ := step_cases hstep
  · rw [hblob, hreplies] at h
    obtain ⟨q, hq⟩ | hr := h
    · rw [World.set_apply] at hq
      split at hq
      · rename_i heq
        obtain ⟨rfl, rfl⟩ := heq
        cases hq
        exact .inr ⟨q, hwrite⟩
      · exact .inl (hstored ⟨q, hq⟩)
    · exact .inl (hcarried hr)
  · rw [hblob, hreplies] at h
    obtain ⟨q, hq⟩ | hr := h
    · rw [World.set_apply] at hq
      split at hq
      · rename_i heq
        exact .inl (hcarried ⟨r, hr, heq.2.symm, hq⟩)
      · exact .inl (hstored ⟨q, hq⟩)
    · exact .inl (hcarried hr)
  · rw [hblob] at h
    obtain hp | ⟨r, hr, rfl, hvalue⟩ := h
    · exact .inl (hstored hp)
    · obtain hr | ⟨p, hp⟩ := hreplies r hr
      · exact .inl (hcarried ⟨r, hr, rfl, hvalue⟩)
      · rw [hvalue] at hp
        exact .inl (hstored ⟨p, hp.symm⟩)

theorem step_agree {e : Event P} (h : Agree w) (hharmless : Harmless sha256 w e)
    (hstep : step sha256 conf w e = some w') : Agree w' := by
  have hwritten {p : P} {key : Key} {content c : Bytes} (hwrite : w.write sha256 e = some (p, key, content))
      (hc : w'.Seen key c) : c = content := by
    obtain ⟨hblob, hreplies⟩ := hharmless.1 _ hwrite
    obtain hc | ⟨q, hq⟩ := seen_step hstep hc
    · exact hc.fits hblob hreplies
    · rw [hwrite] at hq
      cases hq
      rfl
  intro key c c' hc hc'
  obtain hold | ⟨p, hwrite⟩ := seen_step hstep hc
  · obtain hold' | ⟨p, hwrite⟩ := seen_step hstep hc'
    · exact h key c c' hold hold'
    · exact hwritten hwrite hc
  · exact (hwritten hwrite hc').symm

/-- One step: no content is lost. -/
theorem step_keeps {e : Event P} (h : Agree w) (hharmless : Harmless sha256 w e)
    (hstep : step sha256 conf w e = some w') {p : P} {key : Key} {c : Bytes} (hne : c ≠ [])
    (hc : w.blob p key = some c) : w'.blob p key = some c := by
  have hseen : w.Seen key c := ⟨hne, .inl ⟨p, hc⟩⟩
  obtain ⟨q, key', content, hwrite, hblob, -⟩ | ⟨r, rfl, hr, hblob, -⟩ | ⟨hblob, -⟩ := step_cases hstep
  · rw [hblob, World.set_apply]
    split
    · rename_i heq
      obtain ⟨rfl, rfl⟩ := heq
      obtain ⟨hfits, hreplies⟩ := hharmless.1 _ hwrite
      rw [hseen.fits hfits hreplies]
    · exact hc
  · rw [hblob, World.set_apply]
    split
    · rename_i heq
      obtain ⟨rfl, rfl⟩ := heq
      -- The reply has something in it, and all that is seen of the key is the same.
      cases hvalue : r.value with
      | none =>
        have hempty := hharmless.2 r rfl (by rw [hvalue]; rfl)
        rw [hc] at hempty
        exact (hne hempty).elim
      | some c' =>
        by_cases hc' : c' = []
        · have hempty := hharmless.2 r rfl (by rw [hvalue]; exact hc')
          rw [hc] at hempty
          exact (hne hempty).elim
        · rw [h r.key c' c ⟨hc', .inr ⟨r, hr, rfl, hvalue⟩⟩ hseen]
    · exact hc
  · rw [hblob]
    exact hc

/-- A whole run. -/
theorem run_keeps (es : List (Event P)) (h : Agree w) (hharmless : Meets (step sha256 conf) (Harmless sha256) w es)
    (hrun : run (step sha256 conf) w es = some w') {p : P} {key : Key} {c : Bytes} (hne : c ≠ [])
    (hc : w.blob p key = some c) : w'.blob p key = some c := by
  refine (run_invariant (C := Harmless sha256) (fun w => Agree w ∧ w.blob p key = some c) ?_ es ⟨h, hc⟩ hharmless hrun).2
  rintro s e s' ⟨hagree, hs⟩ hharmless hstep
  exact ⟨step_agree hagree hharmless hstep, step_keeps hagree hharmless hstep hne hs⟩

omit [DecidableEq P] in
theorem agree_start : Agree (World.start P) := by
  rintro key c c' ⟨-, ⟨p, hp⟩ | ⟨r, hr, -⟩⟩ -
  · cases hp
  · cases hr

/-- Replies do not erase data: in every run whose steps are harmless, once a peer has a content that is
not empty, no reply that it handles later changes what it has under this key. -/
theorem replies_keep_contents_when_harmless (sha256 : Bytes → Bytes) (conf : P → Config) (earlier later : List (Event P))
    (r : Reply P) (w w' w'' : World P)
    (hharmless : Meets (step sha256 conf) (Harmless sha256) (.start P) (earlier ++ (later ++ [.reply r])))
    (hearlier : run (step sha256 conf) (.start P) earlier = some w) (p : P) (key : Key) (c : Bytes) (hne : c ≠ [])
    (hc : w.blob p key = some c) (hlater : run (step sha256 conf) w later = some w')
    (hreply : step sha256 conf w' (.reply r) = some w'') : w''.blob p key = w'.blob p key := by
  have hagree : Agree w :=
    run_invariant (C := Harmless sha256) Agree (fun _ _ _ h hharmless hstep => step_agree h hharmless hstep) earlier
      agree_start (meets_left earlier _ hharmless) hearlier
  have hrest := meets_append earlier _ hharmless hearlier
  have hlast : run (step sha256 conf) w (later ++ [.reply r]) = some w'' := by
    apply run_append later [.reply r] hlater
    rw [run_cons hreply]
    rfl
  have hbefore := run_keeps later hagree (meets_left later _ hrest) hlater hne hc
  have hafter := run_keeps _ hagree hrest hlast hne hc
  rw [hafter, hbefore]

/-! ## Two peers -/

def sampleConf (_ : Bool) : Config := ⟨64, 2⟩

def sampleChunkKey : Key := hexHash sampleSha [7]
def sampleMetahash : Key := hexHash sampleSha (sampleSha [7])

def uploadAt (p : Bool) : List (Event Bool) :=
  [.upload p (wholeReader [7]), .storeChunk 0 sampleChunkKey, .storeMetafile 0]

/-- One peer uploads the file, and the other one asks twice for it. -/
def askTwice : List (Event Bool) :=
  uploadAt false ++ [.download true sampleMetahash, .move 0 (.lookup (some false)), .move 0 (.round true),
    .move 0 .timeout, .move 0 (.round true), .request ⟨0, true, false, sampleMetahash⟩,
    .request ⟨1, true, false, sampleMetahash⟩, .reply ⟨1, true, sampleMetahash, some sampleChunkKey⟩]

def askedTwice : World Bool := (run (step sampleSha sampleConf) (.start Bool) askTwice).getD (.start Bool)

def receivedOnce : World Bool := (step sampleSha sampleConf askedTwice (.move 0 .receive)).getD (.start Bool)

/-- The answer to the first request, which comes late. -/
def lateAnswer : Reply Bool := ⟨0, true, sampleMetahash, some sampleChunkKey⟩

theorem lateAnswer_keeps_content :
    askedTwice.blob true sampleMetahash = some sampleChunkKey ∧
      (World.dataReplyMessageCallback receivedOnce lateAnswer).blob true sampleMetahash =
        receivedOnce.blob true sampleMetahash := by
  refine ⟨by decide, ?_⟩
  exact replies_keep_contents_when_harmless sampleSha sampleConf askTwice [.move 0 .receive] lateAnswer askedTwice
    receivedOnce _ (by decide) rfl true sampleMetahash sampleChunkKey (by decide) (by decide)
    rfl rfl

/-- A peer asks for a file that the other one lacks, and uploads it before the answer is there. -/
def askAndUpload : List (Event Bool) :=
  [.download true sampleMetahash, .move 0 (.lookup (some false)), .move 0 (.round true),
    .request ⟨0, true, false, sampleMetahash⟩] ++ uploadAt true

def uploadedMeanwhile : World Bool := (run (step sampleSha sampleConf) (.start Bool) askAndUpload).getD (.start Bool)

/-- The answer of the peer that lacks the file. -/
def emptyAnswer : Reply Bool := ⟨0, true, sampleMetahash, none⟩

theorem emptyAnswer_erases_content :
    run (step sampleSha sampleConf) (.start Bool) askAndUpload = some uploadedMeanwhile ∧
      uploadedMeanwhile.blob true sampleMetahash = some sampleChunkKey ∧ sampleChunkKey ≠ [] ∧
      step sampleSha sampleConf uploadedMeanwhile (.reply emptyAnswer) =
        some (uploadedMeanwhile.dataReplyMessageCallback emptyAnswer) ∧
      (uploadedMeanwhile.dataReplyMessageCallback emptyAnswer).blob true sampleMetahash = none := by
  refine ⟨rfl, by decide, by decide, rfl, by decide⟩

end MarketPeer.Sharing

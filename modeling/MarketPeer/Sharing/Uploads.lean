import MarketPeer.Lib.Chunks
import MarketPeer.Sharing.Model

/-!
# Uploads share one key space

`Upload` cuts the data every `chunkSize` bytes, however the reader hands it over. What it
stores stays there through later uploads unless a chunk is, byte for byte, the digests
that some metafile is stored under.
-/

namespace MarketPeer.Sharing

variable {sha256 : Bytes → Bytes} {size : Nat}

/-! ## Keys -/

theorem metafileSep_not_mem_hexDigit : ∀ n < 16, metafileSep ∉ String.utf8EncodeChar (hexDigit n) := by decide

theorem metafileSep_not_mem_hexHash (bs : Bytes) : metafileSep ∉ hexHash sha256 bs := by
  unfold hexHash hexEncode
  rw [stringBytes_eq, String.toList_ofList, List.flatMap_assoc, List.mem_flatMap]
  rintro ⟨b, -, hb⟩
  have hlt := b.toNat_lt
  rw [hexByte, List.flatMap_cons, List.flatMap_singleton, List.mem_append] at hb
  obtain hhigh | hlow := hb
  · exact metafileSep_not_mem_hexDigit (b.toNat / 16) (by omega) hhigh
  · exact metafileSep_not_mem_hexDigit (b.toNat % 16) (by omega) hlow

theorem hexHash_inj {x y : Bytes} : hexHash sha256 x = hexHash sha256 y ↔ sha256 x = sha256 y := by
  constructor
  · intro h
    exact hexEncode_injective (stringBytes_injective h)
  · intro h
    unfold hexHash
    rw [h]

/-! ## What `Upload` assembles -/

variable (sha256) in
/-- The text under which the metafile of these chunks is stored. -/
def digests (chunks : List Bytes) : Bytes := chunks.flatMap sha256

variable (sha256) in
def metafile (chunks : List Bytes) : Bytes := [metafileSep].intercalate (chunks.map (hexHash sha256))

namespace Assembly

variable {a : Assembly} {done : List Bytes}

variable (sha256) in
/-- The chunks that are done. -/
structure Holds (a : Assembly) (done : List Bytes) : Prop where
  chunkShaKeys : a.chunkShaKeys = done.map sha256
  chunkHexKeys : a.chunkHexKeys = done.map (hexHash sha256)
  sound : ∀ key chunk, a.chunks key = some chunk → chunk ∈ done ∧ key = hexHash sha256 chunk
  complete : ∀ chunk ∈ done, (a.chunks (hexHash sha256 chunk)).isSome

theorem holds_start : (start size).Holds sha256 [] where
  chunkShaKeys := rfl
  chunkHexKeys := rfl
  sound := by intro key chunk h; cases h
  complete := by intro chunk h; cases h

theorem Holds.flush (h : a.Holds sha256 done) : (a.flush sha256).Holds sha256 (done ++ [a.chunkBuf]) where
  chunkShaKeys := by rw [Assembly.flush, h.chunkShaKeys, List.map_append, List.map_singleton]
  chunkHexKeys := by rw [Assembly.flush, h.chunkHexKeys, List.map_append, List.map_singleton]
  sound := by
    intro key chunk hkey
    simp only [Assembly.flush, Function.update_apply] at hkey
    split at hkey
    · rename_i heq
      cases hkey
      exact ⟨List.mem_append_right _ (List.mem_singleton_self _), heq⟩
    · obtain ⟨hmem, heq⟩ := h.sound key chunk hkey
      exact ⟨List.mem_append_left _ hmem, heq⟩
  complete := by
    intro chunk hchunk
    simp only [Assembly.flush, Function.update_apply]
    split
    · rfl
    · rename_i hne
      rw [List.mem_append, List.mem_singleton] at hchunk
      obtain hold | rfl := hchunk
      · exact h.complete chunk hold
      · exact (hne rfl).elim

/-- A chunk always has room. -/
def HasRoom (size : Nat) (a : Assembly) : Prop := 0 < a.budget ∧ a.chunkBuf.length + a.budget = size

variable (sha256) in
theorem HasRoom.take (h : a.HasRoom size) {bytes : Bytes} (hbytes : bytes.length ≤ a.budget) :
    (a.take sha256 size bytes).HasRoom size := by
  obtain ⟨hpos, hsum⟩ := h
  unfold Assembly.take
  by_cases hfull : (a.chunkBuf ++ bytes).length = size
  · simp only [hfull, if_true]
    rw [List.length_append] at hfull
    exact ⟨by simp only; omega, by simp [Assembly.flush]⟩
  · simp only [hfull, if_false]
    rw [List.length_append] at hfull
    exact ⟨by simp only; omega, by simp only [List.length_append]; omega⟩

/-- One read: the same chunks come out of what is left. -/
theorem Holds.take (h : a.Holds sha256 done) (hroom : a.HasRoom size) (bytes : Bytes)
    (hbytes : bytes.length ≤ a.budget) : ∃ done', (a.take sha256 size bytes).Holds sha256 done' ∧
      ∀ rest, done' ++ chunksFrom size (a.take sha256 size bytes).chunkBuf rest =
        done ++ chunksFrom size a.chunkBuf (bytes ++ rest) := by
  obtain ⟨hpos, hsum⟩ := hroom
  unfold Assembly.take
  by_cases hfull : (a.chunkBuf ++ bytes).length = size
  · simp only [hfull, if_true]
    rw [List.length_append] at hfull
    have hne : bytes ≠ [] := by
      rintro rfl
      rw [List.length_nil] at hfull
      omega
    have hholds : Holds sha256 { a with chunkBuf := a.chunkBuf ++ bytes } done :=
      ⟨h.chunkShaKeys, h.chunkHexKeys, h.sound, h.complete⟩
    refine ⟨done ++ [a.chunkBuf ++ bytes], ?_, ?_⟩
    · exact ⟨hholds.flush.chunkShaKeys, hholds.flush.chunkHexKeys, hholds.flush.sound, hholds.flush.complete⟩
    · intro rest
      rw [chunksFrom_append_of_eq a.chunkBuf bytes rest hne hfull, List.append_assoc, List.singleton_append]
      rfl
  · simp only [hfull, if_false]
    rw [List.length_append] at hfull
    refine ⟨done, ⟨h.chunkShaKeys, h.chunkHexKeys, h.sound, h.complete⟩, ?_⟩
    intro rest
    rw [chunksFrom_append_of_lt a.chunkBuf bytes rest (by omega)]

theorem Holds.finish (h : a.Holds sha256 done) :
    (a.finish sha256).Holds sha256 (done ++ chunksFrom size a.chunkBuf []) := by
  unfold Assembly.finish
  by_cases hempty : a.chunkBuf = []
  · rw [if_neg (by simp [hempty]), hempty]
    simpa [chunksFrom] using h
  · rw [if_pos (List.length_pos_iff.mpr hempty), chunksFrom, if_neg (by simpa using hempty)]
    exact h.flush

/-- The whole loop, whatever portions the reader gives. -/
theorem Holds.assemble (reads : List Read) (h : a.Holds sha256 done) (hroom : a.HasRoom size) {a' : Assembly}
    (hend : a.assemble sha256 size reads = some (.ok a')) :
    a'.Holds sha256 (done ++ chunksFrom size a.chunkBuf (reads.flatMap (·.bytes))) := by
  induction reads generalizing a done with
  | nil => cases hend
  | cons r rs ih =>
    rw [Assembly.assemble] at hend
    split at hend
    · rename_i hbytes
      have hroom' := hroom.take sha256 hbytes
      obtain ⟨done', hholds, hrest⟩ := h.take hroom r.bytes hbytes
      rw [List.flatMap_cons, ← hrest]
      split at hend
      · exact ih hholds hroom' hend
      · cases hend
        exact hholds.finish
      all_goals cases hend
    · cases hend

theorem no_read_fails (reads : List Read) {a' : Assembly} (h : a.assemble sha256 size reads = some (.ok a')) :
    ∀ r ∈ reads, r.err ≠ some .other := by
  induction reads generalizing a with
  | nil => cases h
  | cons r rs ih =>
    rw [Assembly.assemble] at h
    rw [List.forall_mem_cons]
    split at h
    · split at h
      · rename_i herr
        exact ⟨by rw [herr]; exact nofun, ih h⟩
      · rename_i herr
        exact ⟨by rw [herr]; decide, by simp⟩
      all_goals cases h
    · cases h

end Assembly

theorem upload_cases (hsize : 1 ≤ size) {n n' : Node} {reads : List Read} (h : upload sha256 size n reads = some n') :
    n' = n ∨ ∃ a : Assembly, (∀ r ∈ reads, r.err ≠ some .other) ∧
      a.Holds sha256 (chunksOf size (reads.flatMap (·.bytes))) ∧
      n' = ⟨a.store sha256 n.blob, n.uploads ++ [⟨reads.flatMap (·.bytes), a.metafileKey sha256⟩]⟩ := by
  unfold upload at h
  rw [Option.map_eq_some_iff] at h
  obtain ⟨r, hr, h⟩ := h
  cases r with
  | error e => exact .inl h.symm
  | ok a =>
    refine .inr ⟨a, Assembly.no_read_fails reads hr, ?_, h.symm⟩
    have hroom : (Assembly.start size).HasRoom size := ⟨hsize, by simp [Assembly.start]⟩
    exact Assembly.holds_start.assemble reads hroom hr

/-! ## What is stored -/

variable (sha256 size) in
/-- Everything that the uploads have hashed. -/
def Node.hashed (n : Node) : List Bytes :=
  n.uploads.flatMap fun u => digests sha256 (chunksOf size u.data) :: chunksOf size u.data

variable (sha256) in
def CollisionFree (texts : List Bytes) : Prop := ∀ x ∈ texts, ∀ y ∈ texts, sha256 x = sha256 y → x = y

variable (sha256 size) in
/-- The metafile of an upload and its chunks are where `Download` looks for them. -/
structure Stored (blob : Blob) (u : Uploaded) : Prop where
  metahash : u.metahash = hexHash sha256 (digests sha256 (chunksOf size u.data))
  atMetahash : blob u.metahash = some (metafile sha256 (chunksOf size u.data))
  atChunks : ∀ chunk ∈ chunksOf size u.data, blob (hexHash sha256 chunk) = some chunk

theorem mapM_download {blob : Blob} (fetch : Key → Except DownloadError Bytes) {content : Bytes → Bytes}
    {chunks : List Bytes} (h : ∀ chunk ∈ chunks, blob (hexHash sha256 chunk) = some (content chunk)) :
    (chunks.map (hexHash sha256)).mapM (blob.download fetch) = .ok (chunks.map content) := by
  induction chunks with
  | nil => rfl
  | cons chunk chunks ih =>
    rw [List.forall_mem_cons] at h
    rw [List.map_cons, List.mapM_cons, ih h.2, Blob.download, h.1]
    rfl

/-- `Download` joins what it finds under the keys of the metafile. -/
theorem downloadFile_metafile {blob : Blob} {metahash : Key} {chunks : List Bytes} (hne : chunks ≠ [])
    (hmeta : blob metahash = some (metafile sha256 chunks)) {content : Bytes → Bytes}
    (h : ∀ chunk ∈ chunks, blob (hexHash sha256 chunk) = some (content chunk))
    (fetch : Key → Except DownloadError Bytes) :
    blob.downloadFile fetch metahash = .ok (chunks.map content).flatten := by
  have hkeys : (metafile sha256 chunks).splitOn metafileSep = chunks.map (hexHash sha256) := by
    apply List.splitOn_intercalate
    · intro key hkey
      obtain ⟨chunk, -, rfl⟩ := List.mem_map.mp hkey
      exact metafileSep_not_mem_hexHash chunk
    · exact fun hnil => hne (List.map_eq_nil_iff.mp hnil)
  have hmetafile : blob.download fetch metahash = .ok (metafile sha256 chunks) := by
    rw [Blob.download, hmeta]
  have hchunks := mapM_download fetch h
  simp only [Blob.downloadFile, hmetafile, bind, Except.bind, hkeys, hchunks, pure, Except.pure]

theorem Stored.downloadFile {blob : Blob} {u : Uploaded} (h : Stored sha256 size blob u) (hne : u.data ≠ [])
    (fetch : Key → Except DownloadError Bytes) : blob.downloadFile fetch u.metahash = .ok u.data := by
  have hall := downloadFile_metafile (chunksOf_ne_nil hne) h.atMetahash h.atChunks fetch
  rw [List.map_id', flatten_chunksOf] at hall
  exact hall

/-- With digests of one length, the same text of digests gives the same metafile. -/
theorem metafile_eq_of_digests_eq (hlen : ∀ bs, (sha256 bs).length = 32) {chunks chunks' : List Bytes}
    (h : digests sha256 chunks = digests sha256 chunks') : metafile sha256 chunks = metafile sha256 chunks' := by
  have hmap := map_eq_of_flatMap_eq (by decide) hlen h
  have hkey : hexHash sha256 = (fun digest => stringBytes (hexEncode digest)) ∘ sha256 := rfl
  rw [metafile, metafile, hkey, ← List.map_map, ← List.map_map, hmap]

/-! ## One upload and the ones before it -/

variable (sha256 size) in
/-- What the uploads must not do: no chunk is the text of digests of a metafile, be it of the same call
or of another one. A call whose reader fails stores nothing. -/
def Apart (n : Node) (reads : List Read) : Prop :=
  (∀ r ∈ reads, r.err ≠ some .other) →
    let chunks := chunksOf size (reads.flatMap (·.bytes))
    digests sha256 chunks ∉ chunks ∧
      ∀ u ∈ n.uploads, digests sha256 (chunksOf size u.data) ∉ chunks ∧
        digests sha256 chunks ∉ chunksOf size u.data

instance (n : Node) (reads : List Read) : Decidable (Apart sha256 size n reads) := by
  unfold Apart; infer_instance

section Store

variable {a : Assembly} {chunks texts : List Bytes} {blob : Blob} {text : Bytes}

theorem Assembly.Holds.metafileKey_eq (h : a.Holds sha256 chunks) :
    a.metafileKey sha256 = hexHash sha256 (digests sha256 chunks) := by
  rw [Assembly.metafileKey, h.chunkShaKeys, ← List.flatMap_def, digests]

theorem Assembly.Holds.metafileValue_eq (h : a.Holds sha256 chunks) : a.metafileValue = metafile sha256 chunks := by
  rw [Assembly.metafileValue, h.chunkHexKeys, metafile]

theorem Assembly.Holds.store_metafileKey (h : a.Holds sha256 chunks) :
    a.store sha256 blob (hexHash sha256 (digests sha256 chunks)) = some (metafile sha256 chunks) := by
  rw [Assembly.store, h.metafileKey_eq, h.metafileValue_eq, Function.update_self]

/-- Elsewhere, a key is written only for a chunk, and with this chunk. -/
theorem Assembly.Holds.store_of_ne (h : a.Holds sha256 chunks) (hfree : CollisionFree sha256 texts)
    (hchunks : ∀ chunk ∈ chunks, chunk ∈ texts) (hdigests : digests sha256 chunks ∈ texts) (htext : text ∈ texts)
    (hne : text ≠ digests sha256 chunks) :
    a.store sha256 blob (hexHash sha256 text) = if text ∈ chunks then some text else blob (hexHash sha256 text) := by
  have hkey : hexHash sha256 text ≠ hexHash sha256 (digests sha256 chunks) := by
    intro heq
    exact hne (hfree _ htext _ hdigests (hexHash_inj.mp heq))
  have hchunk : ∀ chunk, a.chunks (hexHash sha256 text) = some chunk → chunk ∈ chunks ∧ chunk = text := by
    intro chunk hchunk
    obtain ⟨hmem, heq⟩ := h.sound _ _ hchunk
    exact ⟨hmem, (hfree _ htext _ (hchunks _ hmem) (hexHash_inj.mp heq)).symm⟩
  rw [Assembly.store, h.metafileKey_eq, Function.update_of_ne hkey]
  split
  · rename_i hmem
    obtain ⟨chunk, hsome⟩ := Option.isSome_iff_exists.mp (h.complete text hmem)
    obtain ⟨-, rfl⟩ := hchunk chunk hsome
    rw [hsome, Option.some_or]
  · rename_i hmem
    have hnone : a.chunks (hexHash sha256 text) = none := by
      cases hsome : a.chunks (hexHash sha256 text) with
      | none => rfl
      | some chunk =>
        obtain ⟨hin, rfl⟩ := hchunk chunk hsome
        exact (hmem hin).elim
    rw [hnone, Option.none_or]

end Store

variable (sha256 size) in
/-- As long as no two of the hashed texts collide, all that was uploaded can be read. -/
def AllStored (n : Node) : Prop :=
  CollisionFree sha256 (n.hashed sha256 size) → ∀ u ∈ n.uploads, Stored sha256 size n.blob u

section Upload

variable {n : Node} {a : Assembly} {data : Bytes} {texts : List Bytes}

theorem stored_new (h : a.Holds sha256 (chunksOf size data)) (hfree : CollisionFree sha256 texts)
    (hchunks : ∀ chunk ∈ chunksOf size data, chunk ∈ texts) (hdigests : digests sha256 (chunksOf size data) ∈ texts)
    (hapart : digests sha256 (chunksOf size data) ∉ chunksOf size data) (blob : Blob) :
    Stored sha256 size (a.store sha256 blob) ⟨data, a.metafileKey sha256⟩ where
  metahash := h.metafileKey_eq
  atMetahash := by
    rw [h.metafileKey_eq]
    exact h.store_metafileKey
  atChunks := by
    intro chunk hchunk
    have hne : chunk ≠ digests sha256 (chunksOf size data) := by
      rintro rfl
      exact hapart hchunk
    rw [h.store_of_ne hfree hchunks hdigests (hchunks chunk hchunk) hne, if_pos hchunk]

/-- An earlier upload is still there. -/
theorem Stored.store {blob : Blob} {u : Uploaded} (hu : Stored sha256 size blob u) {chunks : List Bytes}
    (hlen : ∀ bs, (sha256 bs).length = 32) (h : a.Holds sha256 chunks) (hfree : CollisionFree sha256 texts)
    (hchunks : ∀ chunk ∈ chunks, chunk ∈ texts) (hdigests : digests sha256 chunks ∈ texts)
    (huchunks : ∀ chunk ∈ chunksOf size u.data, chunk ∈ texts)
    (hudigests : digests sha256 (chunksOf size u.data) ∈ texts)
    (hmeta : digests sha256 (chunksOf size u.data) ∉ chunks) (hchunk : digests sha256 chunks ∉ chunksOf size u.data) :
    Stored sha256 size (a.store sha256 blob) u where
  metahash := hu.metahash
  atMetahash := by
    rw [hu.metahash]
    by_cases heq : digests sha256 (chunksOf size u.data) = digests sha256 chunks
    · rw [heq, h.store_metafileKey, metafile_eq_of_digests_eq hlen heq]
    · rw [h.store_of_ne hfree hchunks hdigests hudigests heq, if_neg hmeta, ← hu.metahash]
      exact hu.atMetahash
  atChunks := by
    intro chunk hin
    have hne : chunk ≠ digests sha256 chunks := by
      rintro rfl
      exact hchunk hin
    rw [h.store_of_ne hfree hchunks hdigests (huchunks chunk hin) hne, hu.atChunks chunk hin, ite_self]

theorem Node.mem_hashed {u : Uploaded} (hu : u ∈ n.uploads) :
    digests sha256 (chunksOf size u.data) ∈ n.hashed sha256 size ∧
      ∀ chunk ∈ chunksOf size u.data, chunk ∈ n.hashed sha256 size := by
  constructor
  · exact List.mem_flatMap.mpr ⟨u, hu, List.mem_cons_self⟩
  · intro chunk hchunk
    exact List.mem_flatMap.mpr ⟨u, hu, List.mem_cons_of_mem _ hchunk⟩

theorem CollisionFree.mono {texts' : List Bytes} (h : CollisionFree sha256 texts) (hsub : ∀ x ∈ texts', x ∈ texts) :
    CollisionFree sha256 texts' :=
  fun x hx y hy => h x (hsub x hx) y (hsub y hy)

/-- One call of `Upload`. -/
theorem upload_allStored (hsize : 1 ≤ size) (hlen : ∀ bs, (sha256 bs).length = 32) {n' : Node} {reads : List Read}
    (hall : AllStored sha256 size n) (hapart : Apart sha256 size n reads)
    (hstep : upload sha256 size n reads = some n') : AllStored sha256 size n' := by
  obtain rfl | ⟨a, hreads, hholds, hn'⟩ := upload_cases hsize hstep
  · exact hall
  obtain ⟨hown, hothers⟩ := hapart hreads
  intro hfree
  -- The texts of the new upload are among the hashed ones, and so are those of each earlier one.
  have htexts : ∀ u ∈ n'.uploads, digests sha256 (chunksOf size u.data) ∈ n'.hashed sha256 size ∧
      ∀ chunk ∈ chunksOf size u.data, chunk ∈ n'.hashed sha256 size := fun u hu => Node.mem_hashed hu
  subst hn'
  have hold : ∀ u ∈ n.uploads, Stored sha256 size n.blob u := by
    apply hall
    apply hfree.mono
    intro x hx
    rw [Node.hashed, List.flatMap_append]
    exact List.mem_append_left _ hx
  obtain ⟨hdigests, hchunks⟩ := htexts _ (List.mem_append_right _ (List.mem_singleton_self _))
  intro u hu
  obtain ⟨hudigests, huchunks⟩ := htexts u hu
  obtain hu | hu := List.mem_append.mp hu
  · obtain ⟨hmeta, hchunk⟩ := hothers u hu
    exact (hold u hu).store hlen hholds hfree hchunks hdigests huchunks hudigests hmeta hchunk
  · obtain rfl := List.mem_singleton.mp hu
    exact stored_new hholds hfree hchunks hdigests hown n.blob

end Upload

/-- Uploads that keep apart do not damage each other: whatever the sequence of calls and the portions
of their readers, every file is read back from this node. -/
theorem uploads_read_back_when_apart (sha256 : Bytes → Bytes) (size : Nat) (hsize : 1 ≤ size)
    (hlen : ∀ bs, (sha256 bs).length = 32) (calls : List (List Read)) (n : Node)
    (hapart : Meets (upload sha256 size) (Apart sha256 size) newNode calls)
    (hrun : run (upload sha256 size) newNode calls = some n) (hfree : CollisionFree sha256 (n.hashed sha256 size))
    (fetch : Key → Except DownloadError Bytes) :
    ∀ u ∈ n.uploads, u.data ≠ [] → n.blob.downloadFile fetch u.metahash = .ok u.data := by
  have hinit : AllStored sha256 size newNode := by
    intro _ u hu
    cases hu
  have hall := run_invariant (C := Apart sha256 size) (AllStored sha256 size)
    (fun _ _ _ hall hapart hstep => upload_allStored hsize hlen hall hapart hstep) calls hinit hapart hrun
  intro u hu hne
  exact (hall hfree u hu).downloadFile hne fetch

/-! ## Samples -/

/-- A reader that has all of the data at once. -/
def wholeReader (data : Bytes) : List Read := [⟨data, none⟩, ⟨[], some .eof⟩]

/-- Two files, the second one in three portions and with a chunk of the first one in it. -/
def sampleCalls : List (List Read) :=
  [wholeReader [1, 2], [⟨[1], none⟩, ⟨[2], none⟩, ⟨[3], some .eof⟩]]

def sampleNode : Node := (run (upload sampleSha 2) newNode sampleCalls).getD newNode

theorem sampleCalls_read_back :
    run (upload sampleSha 2) newNode sampleCalls = some sampleNode ∧ sampleNode.uploads.length = 2 ∧
      ∀ u ∈ sampleNode.uploads, u.data ≠ [] →
        sampleNode.blob.downloadFile (fun _ => .error .noOneHas) u.metahash = .ok u.data := by
  refine ⟨rfl, rfl, ?_⟩
  exact uploads_read_back_when_apart sampleSha 2 (by decide) length_sampleSha sampleCalls _ (by decide) rfl
    (by unfold CollisionFree; decide) _

/-- The digest of the first file, uploaded as a file. -/
def digestCalls : List (List Read) := [wholeReader [7], wholeReader (sampleSha [7])]

def damagedNode : Node := (run (upload sampleSha 64) newNode digestCalls).getD newNode

/-- The second upload puts its chunk where the metafile of the first one is, although no two of the
hashed texts collide. -/
theorem digestCalls_damage :
    run (upload sampleSha 64) newNode digestCalls = some damagedNode ∧
      CollisionFree sampleSha (damagedNode.hashed sampleSha 64) ∧
      ∃ u ∈ damagedNode.uploads, u.data = [7] ∧
        (damagedNode.blob.downloadFile (fun _ => .error .noOneHas) u.metahash).toOption = none := by
  refine ⟨rfl, by unfold CollisionFree; decide +kernel, ?_⟩
  decide +kernel

end MarketPeer.Sharing

import Mathlib.Algebra.Order.BigOperators.Group.List
import Mathlib.Algebra.Order.Group.Nat
import MarketPeer.Sharing.Uploads

/-!
# Readers

`Upload` with the reader that it is given: every call of `Read` gets a buffer and may
fill any part of it. What is stored depends on the data alone, and so does whether
`Download` gives it back.
-/

namespace MarketPeer.Sharing

variable {sha256 : Bytes → Bytes} {size : Nat} {σ : Type}

/-! ## Upload with its reader -/

/-- `read len s` is a call of `Read` with a buffer of `len` bytes, from the state `s` of the reader. -/
abbrev Reader (σ : Type) := Nat → σ → Read × σ

variable (sha256) in
/-- The loop of `Upload`; `none`: the fuel does not suffice. -/
def Assembly.loop (chunkSize : Nat) (read : Reader σ) : Nat → Assembly → σ → Option (Except ReadError Assembly)
  | 0, _, _ => none
  | fuel + 1, a, s =>
    let (r, s') := read a.budget s
    let a := a.take sha256 chunkSize r.bytes
    match r.err with
    | none => loop chunkSize read fuel a s'
    | some .eof => some (.ok (a.finish sha256))
    | some .other => some (.error .other)

variable (sha256) in
/-- `Upload` returns the metahash or the error of the reader, and leaves a blob store. -/
def uploadFrom (chunkSize : Nat) (read : Reader σ) (fuel : Nat) (blob : Blob) (s : σ) :
    Option (Except ReadError Key × Blob) :=
  (Assembly.loop sha256 chunkSize read fuel (.start chunkSize) s).map fun
    | .ok a => (.ok (a.metafileKey sha256), a.store sha256 blob)
    | .error e => (.error e, blob)

/-- The reader gives `data` and then `io.EOF`, in whatever portions, be they empty and whatever the buffers;
the last bytes may come with the error. -/
inductive Delivers (read : Reader σ) : σ → Bytes → Prop
  | mk (s : σ) (data : Bytes)
      (hlen : ∀ len, 0 < len → (read len s).1.bytes.length ≤ len)
      (hstart : ∀ len, 0 < len → (read len s).1.bytes <+: data)
      (heof : ∀ len, 0 < len → (read len s).1.err = some .eof → (read len s).1.bytes = data)
      (hother : ∀ len, 0 < len → (read len s).1.err ≠ some .other)
      (hrest : ∀ len, 0 < len → (read len s).1.err = none →
        Delivers read (read len s).2 (data.drop (read len s).1.bytes.length)) : Delivers read s data

/-- The reader gives some bytes and then another error. -/
inductive Fails (read : Reader σ) : σ → Prop
  | mk (s : σ)
      (hlen : ∀ len, 0 < len → (read len s).1.bytes.length ≤ len)
      (heof : ∀ len, 0 < len → (read len s).1.err ≠ some .eof)
      (hrest : ∀ len, 0 < len → (read len s).1.err = none → Fails read (read len s).2) : Fails read s

namespace Assembly

variable {read : Reader σ} {s : σ} {data : Bytes} {a : Assembly} {fuel : Nat}

theorem loop_succ (fuel : Nat) (a : Assembly) (s : σ) :
    loop sha256 size read (fuel + 1) a s =
      match (read a.budget s).1.err with
      | none => loop sha256 size read fuel (a.take sha256 size (read a.budget s).1.bytes) (read a.budget s).2
      | some .eof => some (.ok ((a.take sha256 size (read a.budget s).1.bytes).finish sha256))
      | some .other => some (.error .other) := rfl

/-- More fuel changes nothing. -/
theorem loop_mono {res : Except ReadError Assembly} (h : loop sha256 size read fuel a s = some res) (more : Nat) :
    loop sha256 size read (fuel + more) a s = some res := by
  induction fuel generalizing a s with
  | zero => cases h
  | succ fuel ih =>
    rw [Nat.add_right_comm, loop_succ]
    rw [loop_succ] at h
    cases herr : (read a.budget s).1.err with
    | none =>
      rw [herr] at h
      exact ih h
    | some e =>
      rw [herr] at h
      cases e with
      | eof => exact h
      | other => exact h

variable (sha256) in
/-- The loop comes to its end, and the reads that it makes are the whole data. -/
theorem loop_of_delivers (hd : Delivers read s data) (hroom : a.HasRoom size) :
    ∃ fuel reads a', loop sha256 size read fuel a s = some (.ok a') ∧
      a.assemble sha256 size reads = some (.ok a') ∧ reads.flatMap (·.bytes) = data := by
  induction hd generalizing a with
  | mk s data hlen hstart heof hother hrest ih =>
    have hbytes := hlen a.budget hroom.1
    cases herr : (read a.budget s).1.err with
    | none =>
      obtain ⟨fuel, reads, a', hloop, hassemble, hdata⟩ := ih a.budget hroom.1 herr (hroom.take sha256 hbytes)
      refine ⟨fuel + 1, (read a.budget s).1 :: reads, a', ?_, ?_, ?_⟩
      · rw [loop_succ, herr]
        exact hloop
      · rw [assemble, if_pos hbytes, herr]
        exact hassemble
      · obtain ⟨rest, hsplit⟩ := hstart a.budget hroom.1
        rw [List.flatMap_cons, hdata]
        conv_rhs => rw [← hsplit]
        rw [← hsplit, List.drop_left]
    | some e =>
      cases e with
      | other => exact absurd herr (hother a.budget hroom.1)
      | eof =>
        refine ⟨1, [(read a.budget s).1], (a.take sha256 size (read a.budget s).1.bytes).finish sha256, ?_, ?_, ?_⟩
        · rw [loop_succ, herr]
        · rw [assemble, if_pos hbytes, herr]
        · simpa using heof a.budget hroom.1 herr

variable (sha256) in
theorem loop_of_fails (hf : Fails read s) (hroom : a.HasRoom size) :
    ∃ fuel, loop sha256 size read fuel a s = some (.error .other) := by
  induction hf generalizing a with
  | mk s hlen heof hrest ih =>
    cases herr : (read a.budget s).1.err with
    | none =>
      obtain ⟨fuel, hloop⟩ := ih a.budget hroom.1 herr (hroom.take sha256 (hlen a.budget hroom.1))
      refine ⟨fuel + 1, ?_⟩
      rw [loop_succ, herr]
      exact hloop
    | some e =>
      cases e with
      | eof => exact absurd herr (heof a.budget hroom.1)
      | other =>
        refine ⟨1, ?_⟩
        rw [loop_succ, herr]

end Assembly

/-- A reader that answers every second call with nothing and the other calls with one byte, the last one
together with `io.EOF`. -/
def trickle : Reader (Bytes × Bool)
  | _, (bs, false) => (⟨[], none⟩, (bs, true))
  | _, ([], true) => (⟨[], some .eof⟩, ([], true))
  | _, ([b], true) => (⟨[b], some .eof⟩, ([], true))
  | _, (b :: bs, true) => (⟨[b], none⟩, (bs, false))

theorem trickle_delivers (data : Bytes) : Delivers trickle (data, false) data := by
  have hpause (bs : Bytes) (h : Delivers trickle (bs, true) bs) : Delivers trickle (bs, false) bs :=
    .mk _ _ (by simp [trickle]) (by simp [trickle]) (by simp [trickle]) (by simp [trickle])
      (by simpa [trickle] using fun _ _ => h)
  apply hpause
  induction data with
  | nil =>
    exact .mk _ _ (by simp [trickle]) (by simp [trickle]) (by simp [trickle]) (by simp [trickle]) (by simp [trickle])
  | cons b bs ih =>
    cases bs with
    | nil =>
      refine .mk _ _ ?_ (by simp [trickle]) (by simp [trickle]) (by simp [trickle]) (by simp [trickle])
      intro len hpos
      simpa [trickle] using Nat.succ_le_of_lt hpos
    | cons c bs =>
      refine .mk _ _ ?_ (by simp [trickle]) (by simp [trickle]) (by simp [trickle]) ?_
      · intro len hpos
        simpa [trickle] using Nat.succ_le_of_lt hpos
      · intro len hpos hnone
        exact hpause _ ih

theorem start_hasRoom (hsize : 1 ≤ size) : (Assembly.start size).HasRoom size := ⟨hsize, by simp [Assembly.start]⟩

theorem uploadFrom_mono {read : Reader σ} {s : σ} {fuel : Nat} {blob : Blob} {res : Except ReadError Key × Blob}
    (h : uploadFrom sha256 size read fuel blob s = some res) (more : Nat) :
    uploadFrom sha256 size read (fuel + more) blob s = some res := by
  unfold uploadFrom at h ⊢
  obtain ⟨res', hloop, hres⟩ := Option.map_eq_some_iff.mp h
  rw [Assembly.loop_mono hloop more, Option.map_some, hres]

variable (sha256) in
/-- An upload from a reader ends with the chunks of what the reader gives. -/
theorem uploadFrom_of_delivers (hsize : 1 ≤ size) {read : Reader σ} {s : σ} {data : Bytes} (hd : Delivers read s data)
    (blob : Blob) :
    ∃ (fuel : Nat) (a : Assembly), (∀ more, uploadFrom sha256 size read (fuel + more) blob s =
      some (.ok (a.metafileKey sha256), a.store sha256 blob)) ∧ a.Holds sha256 (chunksOf size data) := by
  have hroom := start_hasRoom hsize
  obtain ⟨fuel, reads, a, hloop, hassemble, hdata⟩ := Assembly.loop_of_delivers sha256 hd hroom
  have hholds := Assembly.holds_start.assemble reads hroom hassemble
  refine ⟨fuel, a, fun more => ?_, ?_⟩
  · rw [uploadFrom, Assembly.loop_mono hloop more]
    rfl
  · rw [List.nil_append, hdata] at hholds
    exact hholds

/-! ## What is stored -/

/-- What is stored after an upload of these chunks: each one under the hash of its bytes, the metafile
under the hash of the digests, and all other keys as before. -/
structure Writes (sha256 : Bytes → Bytes) (chunks : List Bytes) (blob blob' : Blob) : Prop where
  chunk : ∀ chunk ∈ chunks, blob' (hexHash sha256 chunk) = some chunk
  metafile : blob' (hexHash sha256 (digests sha256 chunks)) = some (metafile sha256 chunks)
  rest : ∀ key, (∀ chunk ∈ chunks, key ≠ hexHash sha256 chunk) → key ≠ hexHash sha256 (digests sha256 chunks) →
    blob' key = blob key

theorem Assembly.Holds.writes {a : Assembly} {chunks : List Bytes} (h : a.Holds sha256 chunks)
    (hfree : CollisionFree sha256 (digests sha256 chunks :: chunks)) (hapart : digests sha256 chunks ∉ chunks)
    (blob : Blob) : Writes sha256 chunks blob (a.store sha256 blob) where
  chunk chunk hchunk := by
    have hne : chunk ≠ digests sha256 chunks := by
      rintro rfl
      exact hapart hchunk
    rw [h.store_of_ne hfree (fun c hc => List.mem_cons_of_mem _ hc) List.mem_cons_self
      (List.mem_cons_of_mem _ hchunk) hne, if_pos hchunk]
  metafile := h.store_metafileKey
  rest key hother hmeta := by
    have hnone : a.chunks key = none := by
      apply Option.eq_none_iff_forall_ne_some.mpr
      intro chunk hsome
      obtain ⟨hmem, hkey⟩ := h.sound _ _ hsome
      exact hother chunk hmem hkey
    rw [Assembly.store, h.metafileKey_eq, Function.update_of_ne hmeta]
    simp only [hnone, Option.none_or]

theorem uploadFrom_error {read : Reader σ} {s : σ} {fuel : Nat} {blob blob' : Blob} {e : ReadError}
    (h : uploadFrom sha256 size read fuel blob s = some (.error e, blob')) : blob' = blob := by
  unfold uploadFrom at h
  obtain ⟨res, -, hres⟩ := Option.map_eq_some_iff.mp h
  cases res with
  | ok a => cases hres
  | error e =>
    cases hres
    rfl

/-- However the reader hands the data over, `Upload` ends, and its metahash is that of the one way to cut
the data; so is what is stored then, when no two texts collide and no chunk is the text of the digests.
After another error of the reader the blob store is as before. -/
theorem upload_independent_of_reads (sha256 : Bytes → Bytes) (size : Nat) (hsize : 1 ≤ size) (blob : Blob) :
    (∀ data : Bytes, ∃ pieces, Split size data pieces) ∧
    (∀ (data : Bytes) (pieces : List Bytes), Split size data pieces →
      ∀ (σ : Type) (read : Reader σ) (s : σ), Delivers read s data →
        ∃ fuel blob', (∀ more, uploadFrom sha256 size read (fuel + more) blob s =
          some (.ok (hexHash sha256 (digests sha256 pieces)), blob')) ∧
        (CollisionFree sha256 (digests sha256 pieces :: pieces) → digests sha256 pieces ∉ pieces →
          Writes sha256 pieces blob blob')) ∧
    (∀ (σ : Type) (read : Reader σ) (s : σ), Fails read s →
      ∃ fuel, ∀ more, uploadFrom sha256 size read (fuel + more) blob s = some (.error .other, blob)) ∧
    ∀ (σ : Type) (read : Reader σ) (s : σ) fuel e blob',
      uploadFrom sha256 size read fuel blob s = some (.error e, blob') → blob' = blob := by
  refine ⟨fun data => ⟨_, chunksOf_split hsize data⟩, ?_, ?_, ?_⟩
  · intro data pieces hsplit σ read s hd
    obtain rfl := hsplit.eq_chunksOf hsize
    obtain ⟨fuel, a, hupload, hholds⟩ := uploadFrom_of_delivers sha256 hsize hd blob
    refine ⟨fuel, a.store sha256 blob, fun more => ?_, fun hfree hapart => hholds.writes hfree hapart blob⟩
    rw [hupload more, hholds.metafileKey_eq]
  · intro σ read s hf
    obtain ⟨fuel, hloop⟩ := Assembly.loop_of_fails sha256 hf (start_hasRoom hsize)
    refine ⟨fuel, fun more => ?_⟩
    rw [uploadFrom, Assembly.loop_mono hloop more]
    rfl
  · intro σ read s fuel e blob' h
    exact uploadFrom_error h

theorem trickle_upload : ∃ fuel blob, (∀ more, uploadFrom sampleSha 2 trickle (fuel + more) (fun _ => none)
      ([1, 2, 3], false) = some (.ok (hexHash sampleSha (digests sampleSha [[1, 2], [3]])), blob)) ∧
    Writes sampleSha [[1, 2], [3]] (fun _ => none) blob := by
  have hsplit : Split 2 ([1, 2, 3] : Bytes) [[1, 2], [3]] := ⟨rfl, by decide, by simp⟩
  obtain ⟨fuel, blob, hupload, hwrites⟩ := (upload_independent_of_reads sampleSha 2 (by decide) fun _ => none).2.1
    [1, 2, 3] _ hsplit _ trickle _ (trickle_delivers _)
  exact ⟨fuel, blob, hupload, hwrites (by unfold CollisionFree; decide +kernel) (by decide)⟩

/-- The first 32 bytes, filled up with zeros: a text of this length is its own hash. -/
def headSha (bs : Bytes) : Bytes := (bs ++ List.replicate 32 0).take 32

/-- The text of the digests of one chunk is the chunk, and the metafile takes its place. -/
theorem digestChunk_overwritten : ∃ (chunk : Bytes) (fuel : Nat) (blob : Blob), Split 64 chunk [chunk] ∧
    uploadFrom headSha 64 trickle fuel (fun _ => none) (chunk, false) =
      some (.ok (hexHash headSha (digests headSha [chunk])), blob) ∧
    blob (hexHash headSha chunk) = some (metafile headSha [chunk]) ∧ blob (hexHash headSha chunk) ≠ some chunk := by
  let chunk : Bytes := List.replicate 32 7
  have hsplit : Split 64 chunk [chunk] := ⟨rfl, by decide, by simp [chunk]⟩
  have hself : digests headSha [chunk] = chunk := by decide
  obtain ⟨fuel, a, hupload, hholds⟩ := uploadFrom_of_delivers headSha (show 1 ≤ 64 by decide)
    (trickle_delivers chunk) (fun _ => none)
  rw [← hsplit.eq_chunksOf (by decide)] at hholds
  have hstored : a.store headSha (fun _ => none) (hexHash headSha (digests headSha [chunk])) =
      some (metafile headSha [chunk]) := hholds.store_metafileKey
  rw [hself] at hstored
  refine ⟨chunk, fuel, _, hsplit, ?_, hstored, ?_⟩
  · rw [← hholds.metafileKey_eq]
    exact hupload 0
  · rw [hstored, ne_eq, Option.some.injEq]
    decide +kernel

/-! ## Download after Upload -/

theorem length_le_length_stringBytes (s : String) : s.length ≤ (stringBytes s).length := by
  rw [stringBytes_eq, ← String.length_toList]
  induction s.toList with
  | nil => exact Nat.le_refl 0
  | cons c cs ih =>
    have hpos := c.utf8Size_pos
    rw [List.flatMap_cons, List.length_append, List.length_cons, String.length_utf8EncodeChar]
    omega

theorem length_hexHash_ge (hlen : ∀ bs, (sha256 bs).length = 32) (bs : Bytes) : 64 ≤ (hexHash sha256 bs).length := by
  have hle := length_le_length_stringBytes (hexEncode (sha256 bs))
  rw [length_hexEncode, hlen] at hle
  exact hle

/-- The metafile is longer than the digests whose hash it is stored under. -/
theorem length_digests_lt (hlen : ∀ bs, (sha256 bs).length = 32) {chunks : List Bytes} (hne : chunks ≠ []) :
    (digests sha256 chunks).length < (metafile sha256 chunks).length := by
  unfold digests metafile
  induction chunks with
  | nil => exact (hne rfl).elim
  | cons chunk chunks ih =>
    have hkey := length_hexHash_ge hlen chunk
    rw [List.flatMap_cons, List.length_append, hlen]
    cases chunks with
    | nil =>
      simp only [List.map_cons, List.map_nil, List.intercalate_singleton, List.flatMap_nil, List.length_nil]
      omega
    | cons next chunks =>
      have hrest := ih (List.cons_ne_nil next chunks)
      simp only [List.map_cons, List.intercalate_cons_cons, List.length_append, List.length_singleton] at hrest ⊢
      omega

variable (sha256) in
/-- What is under the key of a chunk after the upload of `chunks`. -/
def found (chunks : List Bytes) (chunk : Bytes) : Bytes :=
  if chunk = digests sha256 chunks then metafile sha256 chunks else chunk

theorem Assembly.Holds.store_chunk {a : Assembly} {chunks : List Bytes} (h : a.Holds sha256 chunks)
    (hfree : CollisionFree sha256 (digests sha256 chunks :: chunks)) (blob : Blob) :
    ∀ chunk ∈ chunks, a.store sha256 blob (hexHash sha256 chunk) = some (found sha256 chunks chunk) := by
  intro chunk hchunk
  unfold found
  by_cases heq : chunk = digests sha256 chunks
  · rw [if_pos heq, heq, h.store_metafileKey]
  · rw [if_neg heq, h.store_of_ne hfree (fun c hc => List.mem_cons_of_mem _ hc) List.mem_cons_self
      (List.mem_cons_of_mem _ hchunk) heq, if_pos hchunk]

/-- With one chunk that is the text of the digests, more is found than was stored. -/
theorem flatten_found_iff (hlen : ∀ bs, (sha256 bs).length = 32) (chunks : List Bytes) :
    (chunks.map (found sha256 chunks)).flatten = chunks.flatten ↔ digests sha256 chunks ∉ chunks := by
  constructor
  · intro hall hmem
    have hlt := length_digests_lt hlen (List.ne_nil_of_mem hmem)
    have hmore : (chunks.map List.length).sum < (chunks.map (List.length ∘ found sha256 chunks)).sum := by
      apply List.sum_lt_sum
      · intro chunk _
        simp only [Function.comp, found]
        split
        · rename_i heq
          rw [heq]
          exact hlt.le
        · exact Nat.le_refl _
      · refine ⟨_, hmem, ?_⟩
        rw [Function.comp, found, if_pos rfl]
        exact hlt
    have hlength := congrArg List.length hall
    rw [List.length_flatten, List.length_flatten, List.map_map] at hlength
    exact absurd hlength (Nat.ne_of_gt hmore)
  · intro hapart
    have hid : chunks.map (found sha256 chunks) = chunks.map id := by
      apply List.map_congr_left
      intro chunk hchunk
      rw [found, if_neg (by rintro rfl; exact hapart hchunk)]
      rfl
    rw [hid, List.map_id]

/-- An empty file has an empty metafile, and this is read as one key, which is empty. -/
theorem downloadFile_empty (hlen : ∀ bs, (sha256 bs).length = 32) {a : Assembly} (h : a.Holds sha256 []) :
    (a.store sha256 fun _ => none).downloadFile (fun _ => .error .noOneHas) (a.metafileKey sha256) =
      .error .noOneHas := by
  have hmeta : (a.store sha256 fun _ => none) (a.metafileKey sha256) = some [] := by
    rw [h.metafileKey_eq, h.store_metafileKey]
    rfl
  have hkey : ([] : Key) ≠ a.metafileKey sha256 := by
    intro heq
    have hge := length_hexHash_ge hlen (digests sha256 [])
    rw [← h.metafileKey_eq, ← heq] at hge
    exact absurd hge (by decide)
  have hchunk : a.chunks [] = none := by
    apply Option.eq_none_iff_forall_ne_some.mpr
    intro chunk hsome
    exact absurd (h.sound _ _ hsome).1 List.not_mem_nil
  have hnone : (a.store sha256 fun _ => none) [] = none := by
    rw [Assembly.store, Function.update_of_ne hkey, hchunk]
    rfl
  simp [Blob.downloadFile, Blob.download, hmeta, bind, Except.bind, hnone]

/-- `Download` gives back what `Upload` read, unless there was nothing to read or one chunk is the text of
the digests. -/
theorem download_inverts_upload_iff (sha256 : Bytes → Bytes) (hlen : ∀ bs, (sha256 bs).length = 32) (size : Nat)
    (hsize : 1 ≤ size) (data : Bytes) (σ : Type) (read : Reader σ) (s : σ) (hd : Delivers read s data)
    (hfree : CollisionFree sha256 (digests sha256 (chunksOf size data) :: chunksOf size data)) (fuel : Nat) (h : Key)
    (blob : Blob) (hup : uploadFrom sha256 size read fuel (fun _ => none) s = some (.ok h, blob)) :
    blob.downloadFile (fun _ => .error .noOneHas) h = .ok data ↔
      data ≠ [] ∧ digests sha256 (chunksOf size data) ∉ chunksOf size data := by
  obtain ⟨enough, a, hupload, hholds⟩ := uploadFrom_of_delivers sha256 hsize hd (fun _ => none)
  have hsame := hupload fuel
  rw [Nat.add_comm, uploadFrom_mono hup enough] at hsame
  cases hsame
  by_cases hnil : data = []
  · subst hnil
    rw [downloadFile_empty hlen hholds]
    simp
  · have hmeta : a.store sha256 (fun _ => none) (a.metafileKey sha256) =
        some (metafile sha256 (chunksOf size data)) := by
      rw [hholds.metafileKey_eq]
      exact hholds.store_metafileKey
    have hchunks := hholds.store_chunk hfree fun _ => none
    have hflatten := flatten_found_iff hlen (chunksOf size data)
    rw [flatten_chunksOf] at hflatten
    rw [downloadFile_metafile (chunksOf_ne_nil hnil) hmeta hchunks, Except.ok.injEq, hflatten]
    exact (and_iff_right hnil).symm

theorem trickle_round_trip : ∃ fuel h blob,
    uploadFrom sampleSha 2 trickle fuel (fun _ => none) ([1, 2, 3], false) = some (.ok h, blob) ∧
      blob.downloadFile (fun _ => .error .noOneHas) h = .ok [1, 2, 3] := by
  obtain ⟨fuel, a, hupload, -⟩ := uploadFrom_of_delivers sampleSha (show 1 ≤ 2 by decide)
    (trickle_delivers [1, 2, 3]) (fun _ => none)
  refine ⟨fuel, _, _, hupload 0, ?_⟩
  exact (download_inverts_upload_iff sampleSha length_sampleSha 2 (by decide) [1, 2, 3] _ trickle _ (trickle_delivers _)
    (by unfold CollisionFree; decide +kernel) fuel _ _ (hupload 0)).mpr ⟨by decide, by decide⟩

/-- `Upload` of nothing returns a metahash that cannot be downloaded. -/
theorem emptyFile_not_downloaded : ∃ fuel h blob,
    uploadFrom sampleSha 2 trickle fuel (fun _ => none) ([], false) = some (.ok h, blob) ∧
      blob.downloadFile (fun _ => .error .noOneHas) h = .error .noOneHas := by
  obtain ⟨fuel, a, hupload, hholds⟩ := uploadFrom_of_delivers sampleSha (show 1 ≤ 2 by decide)
    (trickle_delivers []) (fun _ => none)
  exact ⟨fuel, _, _, hupload 0, downloadFile_empty length_sampleSha hholds⟩

end MarketPeer.Sharing

import MarketPeer.Go.Encoding
import MarketPeer.Lib.Runs
import Mathlib.Logic.Function.Basic

/-!
# Sharing files

`Upload` and `Download` of `peer/impl` over the blob store. A file is cut into chunks, a
chunk is stored under the hash of its bytes, and the metafile, which lists these keys,
under the hash of all their digests.
-/

namespace MarketPeer.Sharing

/-- A Go string is any bytes, and the contents of a metafile are read as keys. -/
abbrev Key := Bytes

/-- What `blob.Get` returns; `none` is a nil slice. -/
abbrev Blob := Key → Option Bytes

/-- `peer.MetafileSep`. -/
def metafileSep : UInt8 := 10

variable (sha256 : Bytes → Bytes)

/-- `hex.EncodeToString` of the digest. -/
def hexHash (bs : Bytes) : Key := stringBytes (hexEncode (sha256 bs))

/-! ## Upload -/

inductive ReadError where
  | eof
  | other
deriving DecidableEq

/-- What one `data.Read(readBuf)` returns. -/
structure Read where
  bytes : Bytes
  err : Option ReadError

/-- The variables of the loop of `Upload`. The length of `readBuf` is `budget`. -/
structure Assembly where
  chunks : Key → Option Bytes
  chunkShaKeys : List Bytes
  chunkHexKeys : List Key
  chunkBuf : Bytes
  budget : Nat

namespace Assembly

def start (chunkSize : Nat) : Assembly where
  chunks := fun _ => none
  chunkShaKeys := []
  chunkHexKeys := []
  chunkBuf := []
  budget := chunkSize

/-- The buffer becomes a chunk. -/
def flush (a : Assembly) : Assembly where
  chunks := Function.update a.chunks (hexHash sha256 a.chunkBuf) (some a.chunkBuf)
  chunkShaKeys := a.chunkShaKeys ++ [sha256 a.chunkBuf]
  chunkHexKeys := a.chunkHexKeys ++ [hexHash sha256 a.chunkBuf]
  chunkBuf := []
  budget := a.budget

/-- What the loop does with the bytes of one read. -/
def take (chunkSize : Nat) (a : Assembly) (bytes : Bytes) : Assembly :=
  let a := { a with chunkBuf := a.chunkBuf ++ bytes }
  if a.chunkBuf.length = chunkSize then { a.flush sha256 with budget := chunkSize }
  else { a with budget := a.budget - bytes.length }

def finish (a : Assembly) : Assembly := if 0 < a.chunkBuf.length then a.flush sha256 else a

/-- The loop over the reads. `none`: the reader gives more than the buffer holds, or it does not end
here. An error of the reader other than `io.EOF` is the error of `Upload`. -/
def assemble (chunkSize : Nat) : Assembly → List Read → Option (Except ReadError Assembly)
  | _, [] => none
  | a, r :: rs =>
    if r.bytes.length ≤ a.budget then
      let a := a.take sha256 chunkSize r.bytes
      match r.err, rs with
      | none, rs => assemble chunkSize a rs
      | some .eof, [] => some (.ok (a.finish sha256))
      | some .other, [] => some (.error .other)
      | some _, _ :: _ => none
    else none

def metafileValue (a : Assembly) : Bytes := [metafileSep].intercalate a.chunkHexKeys

def metafileKey (a : Assembly) : Key := hexHash sha256 a.chunkShaKeys.flatten

/-- The last lines of `Upload`. The chunks have keys of their own, so their order does not matter. -/
def store (a : Assembly) (blob : Blob) : Blob :=
  Function.update (fun key => (a.chunks key).or (blob key)) (a.metafileKey sha256) (some a.metafileValue)

end Assembly

/-! ## Download -/

inductive DownloadError where
  | noOneHas
  | backoffTimeout
  | neighborLacks (peer : String)
  | unicast
deriving DecidableEq

/-- `download`; `fetch` is what asking another peer comes to. -/
def Blob.download (blob : Blob) (fetch : Key → Except DownloadError Bytes) (hexhash : Key) : Except DownloadError Bytes :=
  match blob hexhash with
  | some content => .ok content
  | none => fetch hexhash

/-- `Download` of the whole file. -/
def Blob.downloadFile (blob : Blob) (fetch : Key → Except DownloadError Bytes) (metahash : Key) :
    Except DownloadError Bytes := do
  let metaContent ← blob.download fetch metahash
  let chunks ← (metaContent.splitOn metafileSep).mapM (blob.download fetch)
  return chunks.flatten

/-! ## Uploads on one node -/

/-- An `Upload` that has returned: the data it read and the metahash. -/
structure Uploaded where
  data : Bytes
  metahash : Key
deriving DecidableEq

structure Node where
  blob : Blob
  uploads : List Uploaded

def newNode : Node := ⟨fun _ => none, []⟩

/-- A call of `Upload`, given what its reader returns. -/
def upload (chunkSize : Nat) (n : Node) (reads : List Read) : Option Node :=
  (Assembly.assemble sha256 chunkSize (.start chunkSize) reads).map fun
    | .ok a => ⟨a.store sha256 n.blob, n.uploads ++ [⟨reads.flatMap (·.bytes), a.metafileKey sha256⟩]⟩
    | .error _ => n

end MarketPeer.Sharing

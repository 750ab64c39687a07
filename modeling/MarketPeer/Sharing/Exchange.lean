import MarketPeer.Sharing.Model

/-!
# Peers that ask each other for data

A network of peers that upload and download. A routine stops anywhere between two uses
of what it shares with the others, so one `blob.Set` of an `Upload`, one round of the back
off loop of `download` and one packet are a step each. A packet that was sent can come at
any later time, more than once, or never.
-/

namespace MarketPeer.Sharing

/-! ## Messages -/

/-- A `DataRequestMessage`, with the source and the destination of its packet. -/
structure Request (P : Type) where
  requestID : Nat
  source : P
  dest : P
  key : Key
deriving DecidableEq

/-- A `DataReplyMessage`; a nil value stays one through JSON. -/
structure Reply (P : Type) where
  requestID : Nat
  dest : P
  key : Key
  value : Option Bytes
deriving DecidableEq

/-! ## Routines -/

/-- An `Upload` that has assembled its chunks. `assembly.chunks` has those that are still to be stored. -/
structure Storing (P : Type) where
  peer : P
  assembly : Assembly

/-- Where `download` is: at `blob.Get`, at the head of a round with so many left, or at the select. -/
inductive Phase (P : Type) where
  | lookup
  | round (peer : P) (left : Nat)
  | wait (peer : P) (left requestID : Nat)
deriving DecidableEq

/-- A `Download`, which is in the `download` of `key`. `rest` are the chunks that come after it, and
`none` while `key` is the metafile. -/
structure Download (P : Type) where
  caller : P
  key : Key
  rest : Option (List Key)
  phase : Phase P

/-- The content of `key` has come: what `Download` asks for next. -/
def Download.next {P : Type} (d : Download P) (content : Bytes) : Option (Download P) :=
  match d.rest.getD (content.splitOn metafileSep) with
  | [] => none
  | key :: rest => some { d with key, rest := some rest, phase := .lookup }

/-! ## The network -/

structure Config where
  chunkSize : Nat
  retry : Nat

/-- `blob` is a store of `storage/inmemory`, where setting nil removes the key. `futures` are the entries of
`replyFutures`, `channel` is what the channel of a request holds, and `sending` is a handler that waits for
room in one. `xid` never gives the same id twice. -/
structure World (P : Type) where
  blob : P → Blob
  storing : List (Storing P)
  downloads : List (Download P)
  requests : List (Request P)
  replies : List (Reply P)
  futures : P → Nat → Bool
  channel : Nat → Option (Option Bytes)
  sending : P → Option (Nat × Option Bytes)
  nextID : Nat

def World.start (P : Type) : World P where
  blob := fun _ _ => none
  storing := []
  downloads := []
  requests := []
  replies := []
  futures := fun _ _ => false
  channel := fun _ => none
  sending := fun _ => none
  nextID := 0

namespace World

variable {P : Type} [DecidableEq P]

/-- `blob.Set` at a peer. -/
def set (w : World P) (p : P) (key : Key) (value : Option Bytes) : World P :=
  { w with blob := Function.update w.blob p (Function.update (w.blob p) key value) }

/-- The routine goes on, or it has returned. -/
def setDownload (w : World P) (i : Nat) (d : Option (Download P)) : World P :=
  match d with
  | some d => { w with downloads := w.downloads.set i d }
  | none => { w with downloads := w.downloads.eraseIdx i }

/-- `dataReplyFuture` and the request. -/
def ask (w : World P) (i : Nat) (d : Download P) (peer : P) (left : Nat) : World P :=
  let w := w.setDownload i (some { d with phase := .wait peer left w.nextID })
  { w with
    futures := Function.update w.futures d.caller (Function.update (w.futures d.caller) w.nextID true)
    requests := w.requests ++ [⟨w.nextID, d.caller, peer, d.key⟩]
    nextID := w.nextID + 1 }

def deleteReplyFuture (w : World P) (p : P) (requestID : Nat) : World P :=
  { w with futures := Function.update w.futures p (Function.update (w.futures p) requestID false) }

/-- A value is taken out of the channel, and the handler that waits for that can go on. -/
def takeFuture (w : World P) (p : P) (requestID : Nat) : World P :=
  match w.sending p with
  | some (waiting, value) =>
    if waiting = requestID then
      { w with channel := Function.update w.channel requestID (some value), sending := Function.update w.sending p none }
    else { w with channel := Function.update w.channel requestID none }
  | none => { w with channel := Function.update w.channel requestID none }

/-- `future <- value`. A full channel stops the handler, and with it the listen daemon. -/
def complete (w : World P) (p : P) (requestID : Nat) (value : Option Bytes) : World P :=
  if w.futures p requestID then
    match w.channel requestID with
    | none => { w with channel := Function.update w.channel requestID (some value) }
    | some _ => { w with sending := Function.update w.sending p (some (requestID, value)) }
  else w

def dataRequestMessageCallback (w : World P) (r : Request P) : World P :=
  { w with replies := w.replies ++ [⟨r.requestID, r.source, r.key, w.blob r.dest r.key⟩] }

def dataReplyMessageCallback (w : World P) (r : Reply P) : World P :=
  (w.set r.dest r.key r.value).complete r.dest r.requestID r.value

end World

/-! ## Steps -/

/-- What a routine in `download` does next. The peer of `lookup` is the one that was drawn from the
catalog, if the key is in it. -/
inductive Move (P : Type) where
  | lookup (peer : Option P)
  | round (sent : Bool)
  | timeout
  | receive

inductive Event (P : Type) where
  | upload (peer : P) (reads : List Read)
  | storeChunk (i : Nat) (key : Key)
  | storeMetafile (i : Nat)
  | download (caller : P) (metahash : Key)
  | move (i : Nat) (m : Move P)
  | request (r : Request P)
  | reply (r : Reply P)

variable {P : Type} [DecidableEq P] (sha256 : Bytes → Bytes) (conf : P → Config)

/-- `download`, step by step. An answer without any content is an error, and so is a request that
cannot be sent. -/
def stepDownload (w : World P) (i : Nat) (d : Download P) : Move P → Option (World P)
  | .lookup peer =>
    if d.phase = .lookup then
      match w.blob d.caller d.key with
      | some content => some (w.setDownload i (d.next content))
      | none => some (w.setDownload i (peer.map fun peer => { d with phase := .round peer (conf d.caller).retry }))
    else none
  | .round sent =>
    match d.phase with
    | .round peer (left + 1) => some (if sent then w.ask i d peer left else w.setDownload i none)
    | .round _ 0 => some (w.setDownload i none)
    | _ => none
  | .timeout =>
    match d.phase with
    | .wait peer left requestID =>
      some ((w.setDownload i (some { d with phase := .round peer left })).deleteReplyFuture d.caller requestID)
    | _ => none
  | .receive =>
    match d.phase with
    | .wait _ _ requestID =>
      (w.channel requestID).map fun content =>
        (w.setDownload i (if content.getD [] = [] then none else d.next (content.getD []))).takeFuture d.caller requestID
    | _ => none

/-- What an `Upload` stores next. -/
def World.write (w : World P) : Event P → Option (P × Key × Bytes)
  | .storeChunk i key =>
    w.storing[i]?.bind fun u => (u.assembly.chunks key).map fun chunk => (u.peer, key, chunk)
  | .storeMetafile i =>
    w.storing[i]?.bind fun u =>
      if u.assembly.chunkHexKeys.all fun key => (u.assembly.chunks key).isNone then
        some (u.peer, u.assembly.metafileKey sha256, u.assembly.metafileValue)
      else none
  | _ => none

/-- `none`: the event cannot happen now. -/
def step (w : World P) : Event P → Option (World P)
  | .upload peer reads =>
    (Assembly.assemble sha256 (conf peer).chunkSize (.start (conf peer).chunkSize) reads).map fun
      | .ok assembly => { w with storing := w.storing ++ [⟨peer, assembly⟩] }
      | .error _ => w
  | .storeChunk i key =>
    (w.write sha256 (.storeChunk i key)).map fun (peer, key, chunk) =>
      let w := { w with storing := w.storing.modify i fun u =>
        { u with assembly := { u.assembly with chunks := Function.update u.assembly.chunks key none } } }
      w.set peer key (some chunk)
  | .storeMetafile i =>
    (w.write sha256 (.storeMetafile i)).map fun (peer, key, value) =>
      let w := { w with storing := w.storing.eraseIdx i }
      w.set peer key (some value)
  | .download caller metahash => some { w with downloads := w.downloads ++ [⟨caller, metahash, none, .lookup⟩] }
  | .move i m => w.downloads[i]?.bind fun d => stepDownload conf w i d m
  | .request r => if r ∈ w.requests ∧ w.sending r.dest = none then some (w.dataRequestMessageCallback r) else none
  | .reply r => if r ∈ w.replies ∧ w.sending r.dest = none then some (w.dataReplyMessageCallback r) else none

end MarketPeer.Sharing

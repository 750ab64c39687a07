import MarketPeer.Lib.RWLock
import MarketPeer.Lib.Runs

/-!
# The message registry

`registry/standard` with `registry/global.go`: the calls of `ProcessPacket` and
`RegisterMessageCallback` of one node, step by step, and the table of message types that
all nodes of the process share. The critical sections of that table end by themselves and
are one step each.
-/

namespace MarketPeer.Dispatch

/-- `M` are the empty messages, `μ` the messages, `P` the payloads. -/
structure Types (M μ P : Type) where
  name : M → String
  unmarshal : M → P → Except String μ

structure Packet (P : Type) where
  type : String
  payload : P

/-- The errors of `ProcessPacket`. -/
inductive Failure where
  | notRegistered (type : String)
  | unmarshal (err : String)
  | handlerNotFound (type : String)
  | handler (err : String)
  | notifications
  deriving DecidableEq

def Failure.text : Failure → String
  | .notRegistered type => "failed to get message: message not registered: " ++ type
  | .unmarshal err => "failed to get message: failed to unmarshal payload: " ++ err
  | .handlerNotFound type => "handler not found for " ++ type
  | .handler err => "failed to call handler: " ++ err
  | .notifications => "notification handlers took too long"

variable {M μ P H : Type}

/-- How far a call has come. -/
inductive Call (M μ P H : Type) where
  | getMessage (pkt : Packet P)
  | rLock (pkt : Packet P) (msg : μ)
  | reading (pkt : Packet P) (msg : μ)
  | found (pkt : Packet P) (msg : μ) (h : H)
  | handling (pkt : Packet P) (msg : μ) (h : H)
  | notifying (pkt : Packet P) (msg : μ)
  | returned (err : Option Failure)
  | add (m : M) (exec : H)
  | lock (m : M) (exec : H)
  | waiting (m : M) (exec : H)
  | writing (m : M) (exec : H)
  | registered (m : M) (exec : H)

/-- `messages` is the table of the process. -/
structure Registry (M μ H : Type) where
  messages : String → Option M
  handlers : String → Option H
  lock : RWLock
  msgs : List μ

variable (T : Types M μ P)

def Registry.globalAdd (r : Registry M μ H) (m : M) : Registry M μ H :=
  { r with messages := Function.update r.messages (T.name m) (some m) }

def Registry.getMessage (r : Registry M μ H) (pkt : Packet P) : Except Failure μ :=
  match r.messages pkt.type with
  | none => .error (.notRegistered pkt.type)
  | some m =>
    match T.unmarshal m pkt.payload with
    | .error err => .error (.unmarshal err)
    | .ok msg => .ok msg

def Registry.setHandler (r : Registry M μ H) (m : M) (exec : H) : Registry M μ H :=
  { r with handlers := Function.update r.handlers (T.name m) (some exec) }

/-- The next step of a call; `none`: it waits, or has returned. -/
def Registry.next (r : Registry M μ H) : Call M μ P H → Option (Registry M μ H × Call M μ P H)
  | .getMessage pkt =>
    match r.getMessage T pkt with
    | .ok msg => some (r, .rLock pkt msg)
    | .error err => some (r, .returned (some err))
  | .rLock pkt msg => r.lock.rLock.map fun l => ({ r with lock := l }, .reading pkt msg)
  | .reading pkt msg =>
    match r.handlers pkt.type with
    -- the return that does not unlock
    | none => some (r, .returned (some (.handlerNotFound pkt.type)))
    | some h => r.lock.rUnlock.map fun l => ({ r with lock := l }, .found pkt msg h)
  | .found pkt msg h => some ({ r with msgs := r.msgs ++ [msg] }, .handling pkt msg h)
  | .add m exec => some (r.globalAdd T m, .lock m exec)
  | .lock m exec => r.lock.announce.map fun l => ({ r with lock := l }, .waiting m exec)
  | .waiting m exec => r.lock.acquire.map fun l => ({ r with lock := l }, .writing m exec)
  | .writing m exec => r.lock.unlock.map fun l => ({ r.setHandler T m exec with lock := l }, .registered m exec)
  | .handling .. | .notifying .. | .returned _ | .registered .. => none

/-- `res := <-wait`, when the handler has returned or panicked. -/
def Call.handled (err : Option String) : Call M μ P H → Option (Call M μ P H)
  | .handling pkt msg _ =>
    match err with
    | some err => some (.returned (some (.handler err)))
    | none => some (.notifying pkt msg)
  | _ => none

/-- The notification handlers are done, or the twenty seconds are over. -/
def Call.notified (late : Bool) : Call M μ P H → Option (Call M μ P H)
  | .notifying .. => some (.returned (if late then some .notifications else none))
  | _ => none

/-! ## Steps -/

structure Node (M μ P H : Type) where
  registry : Registry M μ H
  calls : List (Call M μ P H)

def Node.new (messages : String → Option M) : Node M μ P H := ⟨⟨messages, fun _ => none, .free, []⟩, []⟩

/-- `globalAdd` comes from the registry of another node of the process. -/
inductive Event (M P H : Type) where
  | processPacket (pkt : Packet P)
  | registerMessageCallback (m : M) (exec : H)
  | globalAdd (m : M)
  | next (i : Nat)
  | handled (i : Nat) (err : Option String)
  | notified (i : Nat) (late : Bool)

def step (n : Node M μ P H) : Event M P H → Option (Node M μ P H)
  | .processPacket pkt => some { n with calls := n.calls ++ [.getMessage pkt] }
  | .registerMessageCallback m exec => some { n with calls := n.calls ++ [.add m exec] }
  | .globalAdd m => some { n with registry := n.registry.globalAdd T m }
  | .next i =>
    n.calls[i]?.bind fun c => (n.registry.next T c).map fun (r, c') => ⟨r, n.calls.set i c'⟩
  | .handled i err => n.calls[i]?.bind fun c => (c.handled err).map fun c' => { n with calls := n.calls.set i c' }
  | .notified i late => n.calls[i]?.bind fun c => (c.notified late).map fun c' => { n with calls := n.calls.set i c' }

/-! ## What the calls hold -/

def Call.hold : Call M μ P H → RWLock.Hold
  | .reading .. | .returned (some (.handlerNotFound _)) => .reads
  | .waiting .. => .waits
  | .writing .. => .writes
  | _ => .nothing

end MarketPeer.Dispatch

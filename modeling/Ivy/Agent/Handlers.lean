import Ivy.Agent.Receive
import Ivy.Discovery.Parse
import Ivy.Loop.LifeCycle
import Ivy.Socket.Reassembly

/-! The handlers of the channels, and the agent as a program of the main loop. -/
namespace Ivy.Agent
open Socket Registry

/-- What a pending write leads to. -/
inductive Written
  | failed
  | pending
  | drained
  deriving DecidableEq, Repr

/-- What the system gives a handler: bytes with their sender, a connection, the end of a write, and
for a hook the connections that the sends since the last one have congested. -/
structure Env where
  received : Received
  sender : ℕ
  accepted : Option Connection
  written : Written
  congested : List ℕ

variable {Code User : Type*}

def socketSetData (c : ℕ) (d : Data Code User) : Data Code User :=
  match d.sock c with
  | none => d
  | some sock => d.setMemory c (some (.client { sock with data := true }))

def newClient (fd : ℕ) (addresses : Addresses) (w : World Code User) : World Code User where
  channels := w.channels.ivyChannelAdd fd () true
  user :=
    let c := w.channels.brk
    { w.user.setMemory c (some (.client ⟨addresses, false⟩)) with
      held := Function.update w.user.held c [] }

/-- The string that a line is to C. -/
def cString (line : Text) : CString where
  bytes := stringAt line 0
  noZero h := by simpa using List.mem_takeWhile_imp h

def ivyMajorVersion : ℤ := 3

section
variable (a : Setup Code User) (c : ℕ)

def serve (w : World Code User) : Option (World Code User) :=
  (sendService a c w.user).map fun d => { w with user := socketSetData c d }

def clientCreate (w : World Code User) : Option (World Code User) :=
  (w.user.sock c).bind fun sock =>
    match w.user.checkConnected c sock.addresses with
    | none => serve a c w
    | some _ => some (socketClose c { w with user := w.user.record (.rejected c) })

def handleServer (accepted : Option Connection) (w : World Code User) : Option (World Code User) :=
  match accepted with
  | none => some w
  | some conn =>
    clientCreate a w.channels.brk
      (newClient conn.fd (acceptedFrom a.order conn.localEnd conn.remoteEnd) w)

def broadcastReceive (w : World Code User) (line : Text) : Option (World Code User) :=
  match w.user.memory c with
  | some (.broadcast sender) =>
    let r := Discovery.ivyParseDiscovery (cString line) 128 2048 ⟨0, 0, fun _ => 0, fun _ => 0⟩
    let appid := stringAt (Block.read r.2.appid 0 128) 0
    if r.1 = false ∨ r.2.version ≠ ivyMajorVersion ∨ appid = a.applicationID then some w
    else
      let connected := w.user.connects.head
      let w := { w with user := { w.user with connects := w.user.connects.tail } }
      match connected with
      | none => some w
      | some (fd, localEnd) =>
        serve a w.channels.brk (newClient fd (connectedTo localEnd ⟨sender, r.2.port⟩) w)
  | _ => none

def handleSocket (interpretation : World Code User → Text → Option (World Code User))
    (received : Received) (w : World Code User) : Option (World Code User) :=
  match received with
  | .error => some (socketClose c w)
  | .bytes data =>
    if data = [] then some (socketClose c w)
    else
      let r := cut newline (w.user.held c ++ data)
      (Machine.run interpretation w r.1).map fun w =>
        { w with user := { w.user with held := Function.update w.user.held c r.2 } }

def handleCongestionWrite (sock : Sock) (written : Written) (w : World Code User) : World Code User :=
  match written with
  | .failed => socketClose c w
  | .pending => w
  | .drained =>
    { channels := w.channels.ivyChannelClearWritableEvent c
      user := w.user.callback a
        (.applicationCallback c (if sock.data then some c else none) .ivyApplicationDecongestion) }

def clientDelete (sock : Sock) (d : Data Code User) : Option (Data Code User) :=
  let d := d.callback a
    (.applicationCallback c (if sock.data then some c else none) .ivyApplicationDisconnected)
  (delOneClient d.registry c).map fun registry => { d with registry := registry }

def deleteSocket (w : World Code User) : Option (World Code User) :=
  let freed (d : Data Code User) : World Code User :=
    { w with user := (d.record (.deleteSocket c)).setMemory c none }
  match w.user.memory c with
  | none => none
  | some (.client sock) => (clientDelete a c sock w.user).map freed
  | some .server | some (.broadcast _) => some (freed w.user)

/-- Frames are sent only to clients that are connected. -/
def congest (w : World Code User) (c : ℕ) : World Code User :=
  if w.user.Linked c then { w with channels := w.channels.ivyChannelAddWritableEvent c } else w

def hook (congested : List ℕ) (w : World Code User) : World Code User :=
  let w := congested.foldl congest w
  { w with user := w.user.callback a .hook }

def handleRead (env : Env) (w : World Code User) : Option (World Code User) :=
  match w.user.memory c with
  | none => none
  | some .server => handleServer a env.accepted w
  | some (.broadcast _) =>
    handleSocket c (broadcastReceive a c) env.received
      { w with user := w.user.setMemory c (some (.broadcast env.sender)) }
  | some (.client _) => handleSocket c (receive a c) env.received w

/-- The server has no handler, and the broadcast socket no congestion. -/
def handleWrite (env : Env) (w : World Code User) : Option (World Code User) :=
  (w.user.sock c).map fun sock => handleCongestionWrite a c sock env.written w

end

def program (a : Setup Code User) : Loop.Program Unit (Data Code User) Env where
  handleDelete _ ch w := deleteSocket a ch.id w
  handleRead env ch w := handleRead a ch.id env w
  handleWrite env ch w := handleWrite a ch.id env w
  hook env w := some (hook a env.congested w)

/-- What `IvyStart` opens: the descriptors of the server and of the broadcast socket. -/
structure Opened (User : Type*) where
  serverFd : ℕ
  broadcastFd : ℕ
  msg_recv : List MsgRcv
  connects : Stream' (Option (ℕ × Endpoint))
  states : Stream' SendState
  now : Stream' Ping.Timeval
  user : User

/-- The agent after `IvyStart`. -/
def ivyStart (o : Opened User) : World Code User where
  channels := (Loop.ivyChannelInit.ivyChannelAdd o.serverFd () true).ivyChannelAdd o.broadcastFd () true
  user :=
    { memory := Function.update (Function.update (fun _ => none) 0 (some .server)) 1 (some (.broadcast 0))
      held := fun _ => []
      registry := Registry.initial
      records := fun _ => ⟨0, 0, false⟩
      ping_timestamp := fun _ => ⟨.clear, 0⟩
      msg_recv := o.msg_recv
      server := 0
      broadcast := 1
      connects := o.connects
      states := o.states
      now := o.now
      log := []
      user := o.user }

/-- A run of the agent, from `IvyStart` on. -/
def run (a : Setup Code User) (o : Opened User) (events : List (Loop.Event Env)) :
    Option (Loop.State Unit (Data Code User)) :=
  Machine.run (Loop.step (program a)) (Loop.started (ivyStart o)) events

end Ivy.Agent

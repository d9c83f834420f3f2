import Ivy.Agent.Handlers

/-! `ivy.c` and `ivysocket.c` over the functions of `ivychannel.h`, for any main loop that has them. -/
namespace Ivy.Toolkit
open Socket Registry Ivy.Agent

/-- A main loop with states `W`: the data of the agent in it, and the functions of `ivychannel.h` that
the handlers call. A new channel is named by its address. -/
structure MainLoop (Code User W : Type*) where
  user : W → Data Code User
  withUser : W → Data Code User → W
  ivyChannelAdd : ℕ → W → ℕ × W
  ivyChannelRemove : ℕ → W → Option W
  ivyChannelClearWritableEvent : ℕ → W → W
  ivyChannelStop : W → W

namespace MainLoop
variable {Code User W : Type*} (m : MainLoop Code User W)

def modify (f : Data Code User → Data Code User) (w : W) : W := m.withUser w (f (m.user w))

def setClientId (c : ℕ) (id : ℤ) : W → W := m.modify fun d => { d with registry := setId d.registry c id }

section Cleanup
variable (a : Setup Code User)

/-- A turn of the loop over `allClients`; the client's own list is read after `SocketClose`. -/
def sayBye (w : W) (c : ℕ) : Option W :=
  (m.ivyChannelRemove c (m.modify (·.msgSendTo a c .bye 0 []) w)).bind fun w =>
    if (m.user w).Linked c then some w else none

def ivyCleanup (w : W) : Option W :=
  let clients := (m.user w).registry.allClients.list.map (·.client)
  (Machine.run (m.sayBye a) w clients).bind fun w =>
    let d : Data Code User := { m.user w with registry := emptied (m.user w).registry }
    if d.memory d.server = none ∨ d.memory d.broadcast = none then none
    else (m.ivyChannelRemove d.server (m.withUser w (d.record (.ivyCleanup clients)))).bind
      (m.ivyChannelRemove d.broadcast)

end Cleanup

variable (a : Setup Code User) (c : ℕ)

/-- The branch for `StartRegexp`; the record of `target` is written to after `SocketClose`. -/
def receiveStartRegexp (id : ℤ) (arg : Text) (w : W) : Option W :=
  (receiveLine a.compile (m.user w).registry c (.startRegexp id arg)).bind fun registry =>
    let d := { m.user w with registry := registry }
    let d := d.setRecord c { d.records c with app_port := UInt16.ofInt id }
    match d.target a.order c with
    | none => some (m.withUser w d)
    | some target =>
      let d := d.msgSendTo a target .error 0 (ascii "Application already connected")
      (m.ivyChannelRemove target (m.withUser w d)).bind fun w =>
        let d := m.user w
        if d.Linked target then
          some (m.withUser w (d.setRecord target { d.records target with ignore_subsequent_msg := true }))
        else none

def receiveDie (id : ℤ) (w : W) : Option W :=
  (m.ivyCleanup a (m.modify (·.callback a (.dieCallback c id)) w)).map m.ivyChannelStop

def quitBadFormat (w : W) : Option W :=
  let d := (m.user w).msgSendTo a c .error MsgType.error.code
    (ascii "bad format request expected 'type id ...'")
  m.ivyChannelRemove c (m.withUser w (d.msgSendTo a c .bye 0 []))

def receiveControl (kind : MsgType) (id : ℤ) (arg : Text) (w : W) : Option W :=
  let onData (d : Option (Data Code User)) := d.map (m.withUser w)
  match kind with
  | .bye => m.ivyChannelRemove c w
  | .addRegexp => onData (receiveAddRegexp a c id arg (m.user w))
  | .delRegexp => onData (registryLine a c (.delRegexp id arg) (m.user w))
  | .startRegexp => m.receiveStartRegexp a c id arg w
  | .endRegexp => onData (receiveEndRegexp a c id arg (m.user w))
  | .directMsg => onData (some ((m.user w).callback a (.directCallback c id arg)))
  | .die => m.receiveDie a c id w
  | .ping => onData (some ((m.user w).msgSendTo a c .pong id []))
  | .pong => onData (some (receivePong a c id (m.user w)))
  | .error | .msg => some w

def receiveRequest (w : W) : Request → Option W
  | .ignored => some w
  | .badFormat => m.quitBadFormat a c w
  | .control kind id arg => m.receiveControl a c kind id arg (m.setClientId c id w)
  | .call id callback user_data argv =>
    some (m.modify (·.callback a (.msgCallback c callback user_data argv)) (m.setClientId c id w))
  | .unhandled id | .noCallback id | .tooManyArgs id | .notFound id => some (m.setClientId c id w)

def receive (w : W) (line : Text) : Option W :=
  if (m.user w).Served c then
    let request := (m.user w).request c line
    m.receiveRequest a c (m.modify (·.record (.receive c request)) w) request
  else none

def serve (w : W) : Option W :=
  (sendService a c (m.user w)).map fun d => m.withUser w (socketSetData c d)

def newClient (fd : ℕ) (addresses : Addresses) (w : W) : ℕ × W :=
  let r := m.ivyChannelAdd fd w
  (r.1, m.modify (fun d => { d.setMemory r.1 (some (.client ⟨addresses, false⟩)) with
    held := Function.update d.held r.1 [] }) r.2)

def clientCreate (w : W) : Option W :=
  ((m.user w).sock c).bind fun sock =>
    match (m.user w).checkConnected c sock.addresses with
    | none => m.serve a c w
    | some _ => m.ivyChannelRemove c (m.modify (·.record (.rejected c)) w)

def handleServer (accepted : Option Agent.Connection) (w : W) : Option W :=
  match accepted with
  | none => some w
  | some conn =>
    let r := m.newClient conn.fd (acceptedFrom a.order conn.localEnd conn.remoteEnd) w
    m.clientCreate a r.1 r.2

def broadcastReceive (w : W) (line : Text) : Option W :=
  match (m.user w).memory c with
  | some (.broadcast sender) =>
    let r := Discovery.ivyParseDiscovery (cString line) 128 2048 ⟨0, 0, fun _ => 0, fun _ => 0⟩
    let appid := stringAt (Block.read r.2.appid 0 128) 0
    if r.1 = false ∨ r.2.version ≠ ivyMajorVersion ∨ appid = a.applicationID then some w
    else
      let connected := (m.user w).connects.head
      let w := m.modify (fun d => { d with connects := d.connects.tail }) w
      match connected with
      | none => some w
      | some (fd, localEnd) =>
        let r := m.newClient fd (connectedTo localEnd ⟨sender, r.2.port⟩) w
        m.serve a r.1 r.2
  | _ => none

/-- `HandleSocket` reads the client again after each line. -/
def goOn (interpretation : W → Text → Option W) (w : W) (line : Text) : Option W :=
  (interpretation w line).bind fun w => if (m.user w).memory c = none then none else some w

def handleSocket (interpretation : W → Text → Option W) (received : Received) (w : W) : Option W :=
  match received with
  | .error => m.ivyChannelRemove c w
  | .bytes data =>
    if data = [] then m.ivyChannelRemove c w
    else
      let r := cut newline ((m.user w).held c ++ data)
      (Machine.run (m.goOn c interpretation) w r.1).map
        (m.modify fun d => { d with held := Function.update d.held c r.2 })

def handleCongestionWrite (sock : Agent.Sock) (written : Written) (w : W) : Option W :=
  match written with
  | .failed => m.ivyChannelRemove c w
  | .pending => some w
  | .drained =>
    let e : Entry Code :=
      .applicationCallback c (if sock.data then some c else none) .ivyApplicationDecongestion
    some (m.modify (·.callback a e) (m.ivyChannelClearWritableEvent c w))

def handleRead (env : Env) (w : W) : Option W :=
  match (m.user w).memory c with
  | none => none
  | some .server => m.handleServer a env.accepted w
  | some (.broadcast _) =>
    m.handleSocket c (m.broadcastReceive a c) env.received
      (m.modify (·.setMemory c (some (.broadcast env.sender))) w)
  | some (.client _) => m.handleSocket c (m.receive a c) env.received w

def handleWrite (env : Env) (w : W) : Option W :=
  ((m.user w).sock c).bind fun sock => m.handleCongestionWrite a c sock env.written w

end MainLoop
end Ivy.Toolkit

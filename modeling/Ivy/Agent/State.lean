import Ivy.Agent.Ports
import Ivy.Bus.Net
import Ivy.Loop.MainLoop
import Ivy.Ping.RoundTrip
import Ivy.Registry.Lines
import Ivy.Registry.Sending

/-! The static variables of `ivy.c` and the sockets behind the channels of the main loop. -/
namespace Ivy.Agent
open Socket Registry

/-- A call that the library makes or gets, as the log keeps it. -/
inductive Entry (Code : Type*)
  | receive (client : ℕ) (request : Request)
  /-- `app` is the record that the application is given. -/
  | applicationCallback (client : ℕ) (app : Option ℕ) (event : Bus.IvyApplicationEvent)
  | msgCallback (client : ℕ) (callback user_data : ℕ) (argv : List Text)
  | directCallback (client : ℕ) (id : ℤ) (arg : Text)
  | dieCallback (client : ℕ) (id : ℤ)
  | filterCallback (client : ℕ) (id : ℤ) (regexp : Text)
  | pongCallback (client : ℕ) (roundTripOrTimout : ℤ)
  | registry (effect : Effect)
  | msgSendTo (client : ℕ) (msgtype : MsgType) (id : ℤ) (message : Text)
  | clientCall (client : ℕ) (messSndByRegexp : Dictionary Code)
      (sent : List (Subscriber × List (Option Text)))
  /-- `ClientCreate` returns `NULL`. -/
  | rejected (client : ℕ)
  | ivyCleanup (clients : List ℕ)
  | deleteSocket (client : ℕ)
  | hook

/-- The other fields of `struct _clnt_lst_dict`. -/
structure Record where
  app_port : UInt16
  readyToSend : ℤ
  ignore_subsequent_msg : Bool
  deriving DecidableEq, Repr

/-- `struct _ping_timestamp` -/
structure PingTimestamp where
  ts : Ping.Timeval
  id : ℤ
  deriving DecidableEq

/-- What `HandleSocket` and `DeleteSocket` use of a connection's `_client`; `data` is whether the
field points to a record. -/
structure Sock where
  addresses : Addresses
  data : Bool
  deriving DecidableEq, Repr

/-- What the data of a channel points to; the broadcast socket has the host of the last datagram. -/
inductive Owner
  | server
  | broadcast (sender : ℕ)
  | client (sock : Sock)
  deriving DecidableEq, Repr

/-- A new connection: its descriptor and its ends. -/
structure Connection where
  fd : ℕ
  localEnd : Endpoint
  remoteEnd : Endpoint

/-- Connections and their records are named by the channel; `ping_timestamp` is a field of the record that
the application's pings change. `connects` is what `connect()` will give, a descriptor with a local end,
`states` what `SocketSend` will return, and `now` what `gettimeofday` will give; `held` is the unterminated
rest in each buffer. -/
structure Data (Code User : Type*) where
  memory : ℕ → Option Owner
  held : ℕ → List UInt8
  registry : Registry.State Code
  records : ℕ → Record
  ping_timestamp : ℕ → PingTimestamp
  msg_recv : List MsgRcv
  server : ℕ
  broadcast : ℕ
  connects : Stream' (Option (ℕ × Endpoint))
  states : Stream' SendState
  now : Stream' Ping.Timeval
  log : List (Entry Code)
  user : User

abbrev World (Code User : Type*) := Loop.World Unit (Data Code User)

/-- What `IvyInit` and `IvyStart` set up, the regexps that pass the filters, whether there is a pong callback,
and the callbacks of the application: what becomes of its data and of `msg_recv`, and whom it pings. -/
structure Setup (Code User : Type*) where
  order : ByteOrder
  compile : Compile Code
  exec : Exec Code
  ivyBindingFilter : Text → Bool
  applicationPort : UInt16
  applicationName : Text
  applicationID : Text
  ready_message : Option Text
  application_pong_callback : Bool
  react : Entry Code → User → List MsgRcv → User × List MsgRcv
  pings : Entry Code → User → List ℕ

variable {Code User : Type*}

namespace Data
variable (d : Data Code User)

def record (e : Entry Code) : Data Code User := { d with log := d.log ++ [e] }

def setMemory (c : ℕ) (owner : Option Owner) : Data Code User :=
  { d with memory := Function.update d.memory c owner }

def setRecord (c : ℕ) (record : Record) : Data Code User :=
  { d with records := Function.update d.records c record }

/-- The connections in the order of `allClients`. -/
def clients : List ℕ := d.registry.allClients.list.map (·.client)

def sock (c : ℕ) : Option Sock :=
  match d.memory c with
  | some (.client sock) => some sock
  | _ => none

/-- The record of the connection is in `allClients`. -/
def Linked (c : ℕ) : Prop := d.registry.allClients.find c ≠ none

instance (c : ℕ) : Decidable (d.Linked c) := inferInstanceAs (Decidable (_ ≠ none))

/-- The socket layer has a record to pass as data, and it is in `allClients`. -/
def Served (c : ℕ) : Prop := (d.sock c).any (·.data) = true ∧ d.Linked c

instance (c : ℕ) : Decidable (d.Served c) := inferInstanceAs (Decidable (_ ∧ _))

def checkConnected (sclnt : ℕ) (addresses : Addresses) : Option ℕ :=
  let remoteport := socketGetRemotePort addresses
  if remoteport = 0 then none
  else (d.registry.allClients.list.find? fun iclient =>
    iclient.client ≠ sclnt && remoteport = (d.records iclient.client).app_port &&
      (d.sock iclient.client).any fun sock =>
        socketGetRemoteAddr sock.addresses = socketGetRemoteAddr addresses).map (·.client)

/-- Which of two connections is to be closed, if `CheckConnected` finds another one. -/
def target (order : ByteOrder) (c : ℕ) : Option ℕ :=
  (d.sock c).bind fun clnt =>
    (d.checkConnected c clnt.addresses).bind fun other =>
      (d.sock other).map fun sock => if closesOther order sock.addresses clnt.addresses then other else c

/-- `IvySendPing` -/
def stamp (p : (ℕ → PingTimestamp) × Stream' Ping.Timeval) (c : ℕ) :
    (ℕ → PingTimestamp) × Stream' Ping.Timeval :=
  (Function.update p.1 c ⟨p.2.head, (p.1 c).id + 1⟩, p.2.tail)

/-- The callback's entry is kept, and the application reacts. -/
def callback (a : Setup Code User) (e : Entry Code) : Data Code User :=
  let r := a.react e d.user d.msg_recv
  let pings := if a.application_pong_callback then a.pings e d.user else []
  let p := pings.foldl stamp (d.ping_timestamp, d.now)
  { d with
    user := r.1
    msg_recv := r.2
    ping_timestamp := p.1
    now := p.2
    log := d.log ++ [e] }

/-- A frame is sent, and the application told of it as `report` says. -/
def send (a : Setup Code User) (c : ℕ) (report : SendState → Option Bus.IvyApplicationEvent) :
    Data Code User :=
  let sent := { d with states := d.states.tail }
  match report d.states.head with
  | none => sent
  | some event => sent.callback a (.applicationCallback c (some c) event)

def msgSendTo (a : Setup Code User) (c : ℕ) (msgtype : MsgType) (id : ℤ) (message : Text) :
    Data Code User :=
  (d.record (.msgSendTo c msgtype id message)).send a c Bus.report

end Data

/-- The subscriptions of one connection that `RegexpCallUnique` sends a frame to. -/
def regexpCallUnique (exec : Exec Code) (message : Text) (clientUnique : ℕ) (msg : MsgSndDict Code) :
    List (Subscriber × List (Option Text)) :=
  match msg.binding.bind fun code => exec code message with
  | none => []
  | some captures => (msg.clientList.filter (·.client = clientUnique)).map fun clnt => (clnt, captures)

section
variable (a : Setup Code User) (c : ℕ) (d : Data Code User)

def clientCall (message : Text) : Data Code User :=
  let dict := d.registry.messSndByRegexp
  let sent := dict.entries.flatMap (regexpCallUnique a.exec message c)
  sent.foldl (fun d _ => d.send a c Bus.reportUnique) (d.record (.clientCall c dict sent))

/-- `clnt->readyToSend++` and the test that follows it in `SendService` and in `Receive`. -/
def countReady : Option (Data Code User) :=
  let readyToSend := (d.records c).readyToSend + 1
  if readyToSend < 2 ^ 31 then
    let d := d.setRecord c { d.records c with readyToSend := readyToSend }
    match a.ready_message with
    | none => some d
    | some ready_message => some (if readyToSend = 2 then clientCall a c d ready_message else d)
  else none

def handshake : Data Code User :=
  let d := d.msgSendTo a c .startRegexp a.applicationPort.toNat a.applicationName
  let d := d.msg_recv.foldl (fun d msg => d.msgSendTo a c .addRegexp msg.id msg.regexp) d
  d.msgSendTo a c .endRegexp 0 []

def sendService : Option (Data Code User) :=
  (step a.compile d.registry (.connect c)).bind fun registry =>
    countReady a c (handshake a c { d.setRecord c ⟨0, 0, false⟩ with
      registry := registry
      ping_timestamp := Function.update d.ping_timestamp c ⟨.clear, 0⟩ })

end

def socketClose (c : ℕ) (w : World Code User) : World Code User :=
  { w with channels := w.channels.ivyChannelRemove c }

/-- `delAllRegexpsFromDictionary`, with `allClients` emptied. -/
def emptied (s : Registry.State Code) : Registry.State Code :=
  regenerateRegPtrArrayCache { s with
    allClients := ⟨[], List.nodup_nil⟩
    messSndByRegexp := s.messSndByRegexp.update (fun _ => none) (by simp [InPlace]) }

section
variable (a : Setup Code User)

def sayBye (w : World Code User) (c : ℕ) : World Code User :=
  socketClose c { w with user := w.user.msgSendTo a c .bye 0 [] }

/-- A server or a broadcast socket that was deleted is a dangling pointer. -/
def ivyCleanup (w : World Code User) : Option (World Code User) :=
  let clients := w.user.registry.allClients.list.map (·.client)
  let w := clients.foldl (sayBye a) w
  let d : Data Code User := { w.user with registry := emptied w.user.registry }
  if d.memory d.server = none ∨ d.memory d.broadcast = none then none
  else some (socketClose d.broadcast (socketClose d.server { w with user := d.record (.ivyCleanup clients) }))

end

end Ivy.Agent

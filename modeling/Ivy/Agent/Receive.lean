import Ivy.Agent.State

/-! `Receive` on a line of a connection, with all its branches and the callbacks that each makes. -/
namespace Ivy.Agent
open Socket Registry

variable {Code User : Type*}

def Data.request (d : Data Code User) (c : ℕ) (line : Text) : Request :=
  (Ivy.receive (d.records c).ignore_subsequent_msg d.msg_recv ⟨0, 0⟩ line).2

section
variable (a : Setup Code User) (c : ℕ)

def setClientId (id : ℤ) (w : World Code User) : World Code User :=
  { w with user := { w.user with registry := setId w.user.registry c id } }

/-- The functions of the registry tell the application of the bindings. -/
def registryLine (line : Line) (d : Data Code User) : Option (Data Code User) :=
  (receiveLine a.compile d.registry c line).map fun registry =>
    (registry.effects.drop d.registry.effects.length).foldl
      (fun d effect => d.callback a (.registry effect)) { d with registry := registry }

def receiveAddRegexp (id : ℤ) (arg : Text) (d : Data Code User) : Option (Data Code User) :=
  if a.ivyBindingFilter arg then registryLine a c (.addRegexp id arg) d
  else some (d.callback a (.filterCallback c id arg))

def receiveStartRegexp (id : ℤ) (arg : Text) (w : World Code User) : Option (World Code User) :=
  (receiveLine a.compile w.user.registry c (.startRegexp id arg)).map fun registry =>
    let d := { w.user with registry := registry }
    let d := d.setRecord c { d.records c with app_port := UInt16.ofInt id }
    match d.target a.order c with
    | none => { w with user := d }
    | some target =>
      let d := d.msgSendTo a target .error 0 (ascii "Application already connected")
      let d := d.setRecord target { d.records target with ignore_subsequent_msg := true }
      socketClose target { w with user := d }

def receiveEndRegexp (id : ℤ) (arg : Text) (d : Data Code User) : Option (Data Code User) :=
  let d := d.callback a (.applicationCallback c (some c) .ivyApplicationConnected)
  (receiveLine a.compile d.registry c (.endRegexp id arg)).bind fun registry =>
    countReady a c { d with registry := registry }

def receiveDie (id : ℤ) (w : World Code User) : Option (World Code User) :=
  (ivyCleanup a { w with user := w.user.callback a (.dieCallback c id) }).map fun w =>
    { w with channels := w.channels.ivyChannelStop }

def receivePong (id : ℤ) (d : Data Code User) : Data Code User :=
  let sent := d.ping_timestamp c
  if a.application_pong_callback ∧ sent.ts.IsSet then
    let r := Ping.receivePong sent.ts sent.id id d.now.head
    let d := { d with
      ping_timestamp := Function.update d.ping_timestamp c ⟨r.1, sent.id⟩
      now := d.now.tail }
    r.2.foldl (fun d value => d.callback a (.pongCallback c value)) d
  else d

/-- The branch for a line without a type, an id or an argument. -/
def quitBadFormat (w : World Code User) : World Code User :=
  let d := w.user.msgSendTo a c .error MsgType.error.code
    (ascii "bad format request expected 'type id ...'")
  socketClose c { w with user := d.msgSendTo a c .bye 0 [] }

def receiveControl (kind : MsgType) (id : ℤ) (arg : Text) (w : World Code User) :
    Option (World Code User) :=
  let onData (d : Option (Data Code User)) := d.map fun d => { w with user := d }
  match kind with
  | .bye => some (socketClose c w)
  | .addRegexp => onData (receiveAddRegexp a c id arg w.user)
  | .delRegexp => onData (registryLine a c (.delRegexp id arg) w.user)
  | .startRegexp => receiveStartRegexp a c id arg w
  | .endRegexp => onData (receiveEndRegexp a c id arg w.user)
  | .directMsg => onData (some (w.user.callback a (.directCallback c id arg)))
  | .die => receiveDie a c id w
  | .ping => onData (some (w.user.msgSendTo a c .pong id []))
  | .pong => onData (some (receivePong a c id w.user))
  | .error | .msg => some w

def receiveRequest (w : World Code User) : Request → Option (World Code User)
  | .ignored => some w
  | .badFormat => some (quitBadFormat a c w)
  | .control kind id arg => receiveControl a c kind id arg (setClientId c id w)
  | .call id callback user_data argv =>
    let w := setClientId c id w
    some { w with user := w.user.callback a (.msgCallback c callback user_data argv) }
  | .unhandled id | .noCallback id | .tooManyArgs id | .notFound id => some (setClientId c id w)

/-- A record that is null or was freed is not there to be read. -/
def receive (w : World Code User) (line : Text) : Option (World Code User) :=
  if w.user.Served c then
    let request := w.user.request c line
    receiveRequest a c { w with user := w.user.record (.receive c request) } request
  else none

end
end Ivy.Agent

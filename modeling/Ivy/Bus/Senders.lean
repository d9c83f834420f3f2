import Ivy.Bus.Net
import Ivy.Protocol.Args
import Ivy.Protocol.Frame
import Ivy.Registry.Sending

/-! The senders of `ivy.c` with their static buffers, and the application callback that
they call, which may send in turn. -/
namespace Ivy.Bus
open Socket Registry

/-- A call of `IvySendMsg` that prints its message, or one of `RegexpCall`. -/
inductive Sending (Code : Type*)
  | ivySendMsg (message : Text)
  | regexpCall (msg : MsgSndDict Code) (message : Text)

/-- The static data of an agent. `user` is what `application_user_data` points to; `sendings` keeps the calls
made so far, and no function reads it. -/
structure Agent (Code User : Type*) where
  net : Net
  messSndByRegexp : Dictionary Code
  /-- `buffer` of `IvySendMsg` -/
  buffer : IvyBuffer
  /-- `bufferArg` of `RegexpCall` -/
  bufferArg : IvyBuffer
  /-- `bufferArg` of `RegexpCallUnique` -/
  bufferArgUnique : IvyBuffer
  user : User
  sendings : List (Sending Code)

/-- `application_callback`: the client, the event and what becomes of the agent. -/
abbrev Callback (Code User : Type*) := Agent Code User → ℕ → IvyApplicationEvent → Agent Code User

/-- What is handed to `SocketSendRawWithId`. -/
structure Handed where
  client : ℕ
  id : Text
  buffer : Text
  deriving DecidableEq, Repr

structure Format where
  fmt : Option Text
  text : Text

/-- The string that a call sends. -/
def Format.message (m : Format) : Text := m.text.takeWhile (· ≠ 0)

variable {Code User : Type*}

structure Call (Code User Frames : Type*) where
  agent : Agent Code User
  handed : Frames
  match_count : ℕ

section
variable (callback : Callback Code User) (a : Agent Code User)

def applicationCallback (c : ℕ) (event : IvyApplicationEvent) : Agent Code User :=
  callback { a with net := a.net.deliver c event } c event

/-- The `switch` that follows a send. -/
def reportState (c : ℕ) : SendState → Agent Code User
  | .sendStateChangeToCongestion => applicationCallback callback a c .ivyApplicationCongestion
  | .sendStateFifoFull => applicationCallback callback a c .ivyApplicationFifoFull
  | _ => a

def msgSendTo (c : ℕ) (msgtype : MsgType) (id : ℤ) (message : Text) : Agent Code User × SendState :=
  let r := a.net.socketSend c (msgFrame msgtype id message)
  (reportState callback { a with net := r.1 } c r.2, r.2)

def callClient (clnt : Subscriber) : Agent Code User × Handed :=
  let id := bufferId .msg clnt.id
  let buffer := a.bufferArg.contents
  let r := a.net.socketSendRawWithId clnt.client id buffer
  (reportState callback { a with net := r.1 } clnt.client r.2, ⟨clnt.client, id, buffer⟩)

/-- The body of the loop of `RegexpCallUnique`, which has no case for a full FIFO. -/
def callClientUnique (clnt : Subscriber) : Agent Code User :=
  let r := a.net.socketSendRawWithId clnt.client (bufferId .msg clnt.id) a.bufferArgUnique.contents
  let a := { a with net := r.1 }
  if r.2 = .sendStateChangeToCongestion then
    applicationCallback callback a clnt.client .ivyApplicationCongestion
  else a

end

def callClients (callback : Callback Code User) :
    Agent Code User → List Subscriber → Call Code User (List Handed)
  | a, [] => ⟨a, [], 0⟩
  | a, clnt :: rest =>
    let r := callClient callback a clnt
    let q := callClients callback r.1 rest
    ⟨q.agent, r.2 :: q.handed, q.match_count + 1⟩

section
variable (exec : Exec Code) (callback : Callback Code User)

def regexpCall (a : Agent Code User) (msg : MsgSndDict Code) (message : Text) :
    Call Code User (List Handed) :=
  let a := { a with sendings := a.sendings ++ [.regexpCall msg message] }
  match msg.binding.bind fun code => exec code message with
  | none => ⟨a, [], 0⟩
  | some captures =>
    callClients callback { a with bufferArg := printArgs a.bufferArg captures } msg.clientList

def callClientsUnique (clientUnique : ℕ) : Agent Code User → List Subscriber → Agent Code User × ℕ
  | a, [] => (a, 0)
  | a, clnt :: rest =>
    if clientUnique ≠ clnt.client then callClientsUnique clientUnique a rest
    else
      let q := callClientsUnique clientUnique (callClientUnique callback a clnt) rest
      (q.1, q.2 + 1)

def regexpCallUnique (a : Agent Code User) (msg : MsgSndDict Code) (message : Text)
    (clientUnique : ℕ) : Agent Code User × ℕ :=
  match msg.binding.bind fun code => exec code message with
  | none => (a, 0)
  | some captures =>
    callClientsUnique callback clientUnique
      { a with bufferArgUnique := printArgs a.bufferArgUnique captures } msg.clientList

def clientCall (a : Agent Code User) (clnt : ℕ) (message : Text) : Agent Code User × ℕ :=
  a.messSndByRegexp.entries.foldl
    (fun r msgSendDict =>
      let q := regexpCallUnique exec callback r.1 msgSendDict message clnt
      (q.1, r.2 + q.2))
    (a, 0)

/-- The loop of `IvySendMsg`, with the frames of each entry. The message is read from the buffer
for every entry. -/
def callEntries :
    Agent Code User → List (MsgSndDict Code) → Call Code User (List (List Handed))
  | a, [] => ⟨a, [], 0⟩
  | a, msgSendDict :: rest =>
    let r := regexpCall exec callback a msgSendDict a.buffer.string
    let q := callEntries r.agent rest
    ⟨q.agent, r.handed :: q.handed, r.match_count + q.match_count⟩

/-- A character below the space, where `char` is signed. -/
def ivyCheckBuffer (message : Text) : Bool := message.any fun b => b.toNat < 32 || 128 ≤ b.toNat

def printMessage (a : Agent Code User) (m : Format) : Agent Code User :=
  { a with
    buffer := makeMessage a.buffer.reset m.text
    sendings := a.sendings ++ [.ivySendMsg m.message] }

def ivySendMsg (debug_binary_msg : Bool) (a : Agent Code User) (m : Format) :
    Call Code User (List (List Handed)) :=
  if m.fmt.getD [] = [] then ⟨a, [], 0⟩
  else
    let a := printMessage a m
    if debug_binary_msg && ivyCheckBuffer a.buffer.string then ⟨a, [], 0⟩
    else callEntries exec callback a a.messSndByRegexp.entries

/-- What an application may ask for. -/
inductive Action
  | ivySendMsg (m : Format)
  | clientCall (clnt : ℕ) (message : Text)
  | msgSendTo (clnt : ℕ) (msgtype : MsgType) (id : ℤ) (message : Text)
  | socketClose (clnt : ℕ)

def perform (debug_binary_msg : Bool) (a : Agent Code User) : Action → Agent Code User
  | .ivySendMsg m => (ivySendMsg exec callback debug_binary_msg a m).agent
  | .clientCall clnt message => (clientCall exec callback a clnt message).1
  | .msgSendTo clnt msgtype id message => (msgSendTo callback a clnt msgtype id message).1
  | .socketClose clnt => { a with net := a.net.socketClose clnt }

end

section Rules
variable {callback : Callback Code User} {R : Agent Code User → Agent Code User → Prop}
  (hrefl : ∀ a, R a a) (htrans : ∀ a b c, R a b → R b c → R a c)
include hrefl htrans

theorem callClients_rule (hbody : ∀ a clnt, R a (callClient callback a clnt).1)
    (a : Agent Code User) (clients : List Subscriber) : R a (callClients callback a clients).agent := by
  induction clients generalizing a with
  | nil => exact hrefl a
  | cons clnt rest ih =>
    have hfirst := hbody a clnt
    exact htrans _ _ _ hfirst (ih _)

theorem callClientsUnique_rule (hbody : ∀ a clnt, R a (callClientUnique callback a clnt))
    (clientUnique : ℕ) (a : Agent Code User) (clients : List Subscriber) :
    R a (callClientsUnique callback clientUnique a clients).1 := by
  induction clients generalizing a with
  | nil => exact hrefl a
  | cons clnt rest ih =>
    unfold callClientsUnique
    split_ifs
    · exact ih a
    · have hfirst := hbody a clnt
      exact htrans _ _ _ hfirst (ih _)

theorem clientCall_rule (hbody : ∀ a clnt, R a (callClientUnique callback a clnt))
    (hprint : ∀ a captures, R a { a with bufferArgUnique := printArgs a.bufferArgUnique captures })
    (exec : Exec Code) (a : Agent Code User) (clnt : ℕ) (message : Text) :
    R a (clientCall exec callback a clnt message).1 := by
  unfold clientCall
  refine List.foldlRecOn (motive := fun r : Agent Code User × ℕ => R a r.1) _ _ (hrefl a) ?_
  intro r hr msg _
  refine htrans _ _ _ hr ?_
  unfold regexpCallUnique
  cases msg.binding.bind fun code => exec code message with
  | none => exact hrefl r.1
  | some captures =>
    have hclients := callClientsUnique_rule hrefl htrans hbody clnt
      { r.1 with bufferArgUnique := printArgs r.1.bufferArgUnique captures } msg.clientList
    exact htrans _ _ _ (hprint r.1 captures) hclients

end Rules

/-- What the application does when it is called: its new data and the actions it takes. -/
abbrev Application (User : Type*) := User → ℕ → IvyApplicationEvent → User × List Action

/-- The callback of an application whose actions call it back at most `depth` deep. -/
def callbackOf (exec : Exec Code) (debug_binary_msg : Bool) (app : Application User) :
    ℕ → Callback Code User
  | 0 => fun a c event => { a with user := (app a.user c event).1 }
  | depth + 1 => fun a c event =>
    let r := app a.user c event
    r.2.foldl (perform exec (callbackOf exec debug_binary_msg app depth) debug_binary_msg)
      { a with user := r.1 }

end Ivy.Bus

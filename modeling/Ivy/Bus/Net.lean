import Ivy.Lib.Keyed
import Ivy.Socket.Send
import Mathlib.Data.Stream.Defs

/-! The connections of an agent: `channels_list`, the descriptors that wait for a writable
event, and the events that the application has been told of. -/
namespace Ivy.Bus
open Fifo Socket

inductive IvyApplicationEvent
  | ivyApplicationConnected
  | ivyApplicationDisconnected
  | ivyApplicationCongestion
  | ivyApplicationDecongestion
  | ivyApplicationFifoFull
  deriving DecidableEq, Repr

/-- What `MsgSendTo` and `RegexpCall` tell the application of a send. -/
def report : SendState → Option IvyApplicationEvent
  | .sendStateChangeToCongestion => some .ivyApplicationCongestion
  | .sendStateFifoFull => some .ivyApplicationFifoFull
  | _ => none

/-- What `RegexpCallUnique` tells it. -/
def reportUnique : SendState → Option IvyApplicationEvent
  | .sendStateChangeToCongestion => some .ivyApplicationCongestion
  | _ => none

/-- A channel and the client it serves; `id` stands for the address of the client. -/
structure Channel where
  id : ℕ
  client : Client

/-- Connections are numbered in the order of their creation. `results` is what `send()` will do
on the direct path. -/
structure Net where
  channels_list : List Channel
  wrdy_fds : Finset ℕ
  created : ℕ
  events : List (ℕ × IvyApplicationEvent)
  results : Stream' SendResult

namespace Net

def initial (results : Stream' SendResult) : Net := ⟨[], ∅, 0, [], results⟩

def sock (n : Net) (c : ℕ) : Option Sock :=
  (Keyed.find (·.id) n.channels_list c).map fun ch => ⟨ch.client, n.wrdy_fds⟩

def setClient (c : ℕ) (client : Client) (ch : Channel) : Channel :=
  if ch.id = c then { ch with client := client } else ch

/-- The connection after one of its functions ran. -/
def put (n : Net) (c : ℕ) (s : Sock) : Net :=
  { n with channels_list := n.channels_list.map (setClient c s.client), wrdy_fds := s.wrdy_fds }

/-- A send on one connection; a client that is gone is not sent to. -/
def through (n : Net) (c : ℕ) (send : Sock → SendResult → SendResult → Sock × SendState) :
    Net × SendState :=
  match n.sock c with
  | none => (n, .sendParamError)
  | some s =>
    let r := send s n.results.head n.results.tail.head
    ({ n with results := n.results.tail.tail }.put c r.1, r.2)

/-- `SocketSend` of the text that its format prints. -/
def socketSend (n : Net) (c : ℕ) (text : List UInt8) : Net × SendState :=
  n.through c fun s result _ => socketSendRaw s text result

def socketSendRawWithId (n : Net) (c : ℕ) (id buffer : List UInt8) : Net × SendState :=
  n.through c fun s result₁ result₂ => Socket.socketSendRawWithId s id buffer result₁ result₂

def socketClose (n : Net) (c : ℕ) : Net :=
  match n.sock c with
  | none => n
  | some s => n.put c (Socket.socketClose s)

def deliver (n : Net) (c : ℕ) (event : IvyApplicationEvent) : Net :=
  { n with events := n.events ++ [(c, event)] }

/-- `HandleServer` and `SocketConnectAddr`: a new channel stands first in the list. -/
def ivyChannelAdd (n : Net) (fd : ℕ) : Net :=
  { n with
    channels_list := ⟨n.created, (connected fd).client⟩ :: n.channels_list
    created := n.created + 1 }

/-- What `IvyChannelDelete` does after its handler: the FIFO goes with the client. -/
def remove (n : Net) (c : ℕ) : Net :=
  match n.sock c with
  | none => n
  | some s =>
    { n with
      channels_list := n.channels_list.filter (·.id ≠ c)
      wrdy_fds := n.wrdy_fds.erase s.client.fd }

end Net
end Ivy.Bus

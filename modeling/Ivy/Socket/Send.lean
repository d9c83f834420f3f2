import Ivy.Fifo.SendSocket
import Mathlib.Data.Finset.Basic

/-! Sending on one connection, `ivysocket.c`: the direct path, the congestion FIFO and
the writable event that drains it. -/
namespace Ivy.Socket
open Fifo

inductive SendState
  | sendOk
  | sendStillCongestion
  | sendStateChangeToCongestion
  | sendStateChangeToDecongestion
  | sendStateFifoFull
  | sendError
  | sendParamError
  deriving DecidableEq, Repr

/-- What sending uses of a `_client` and its channel; `wire` is what the kernel has
accepted on `fd` so far. -/
structure Client where
  fd : ℕ
  ifb : Option IvyFifoBuffer
  tobedeleted : Bool
  wire : List UInt8

/-- A connection and the set of descriptors that wait for a writable event. -/
structure Sock where
  client : Client
  wrdy_fds : Finset ℕ

def connected (fd : ℕ) : Sock := ⟨⟨fd, none, false, []⟩, ∅⟩

def ivyChannelAddWritableEvent (s : Sock) : Sock :=
  { s with wrdy_fds := insert s.client.fd s.wrdy_fds }

def ivyChannelClearWritableEvent (s : Sock) : Sock :=
  { s with wrdy_fds := s.wrdy_fds.erase s.client.fd }

def socketClose (s : Sock) : Sock := { s with client := { s.client with tobedeleted := true } }

def transmit (s : Sock) (bytes : List UInt8) : Sock :=
  { s with client := { s.client with wire := s.client.wire ++ bytes } }

/-- A new FIFO starts with what the kernel did not take. -/
def startCongestion (s : Sock) (rest : List UInt8) : Sock :=
  ivyChannelAddWritableEvent
    { s with client := { s.client with ifb := some (ivyFifoWrite ivyFifoNew rest) } }

/-- `result` is what `send()` does, should the direct path call it. -/
def bufferizedSocketSendRaw (s : Sock) (buffer : List UInt8) (result : SendResult) :
    Sock × SendState :=
  match s.client.ifb with
  | some ifb =>
    let f := ivyFifoWrite ifb buffer
    ({ s with client := { s.client with ifb := some f } },
      if ivyFifoIsFull f then .sendStateFifoFull else .sendStillCongestion)
  | none =>
    match result with
    | .accepted n =>
      let reallySent := min n buffer.length
      if reallySent = buffer.length then (transmit s buffer, .sendOk)
      else (startCongestion (transmit s (buffer.take reallySent)) (buffer.drop reallySent),
        .sendStateChangeToCongestion)
    | .wouldBlock => (startCongestion s buffer, .sendStateChangeToCongestion)
    | .interrupted => (s, .sendError)
    | .failed => (s, .sendError)

def socketSendRaw (s : Sock) (buffer : List UInt8) (result : SendResult) : Sock × SendState :=
  bufferizedSocketSendRaw s buffer result

def socketSendRawWithId (s : Sock) (id buffer : List UInt8) (result₁ result₂ : SendResult) :
    Sock × SendState :=
  let s1 := bufferizedSocketSendRaw s id result₁
  let s2 := bufferizedSocketSendRaw s1.1 buffer result₂
  (s2.1, if s1.2 = .sendStateChangeToCongestion then s1.2 else s2.2)

/-- `none` is the use of a null `ifb`; the flag says whether `handle_decongestion` is called. -/
def handleCongestionWrite (s : Sock) (results : List SendResult) : Option (Sock × Bool) :=
  match s.client.ifb with
  | none => none
  | some ifb =>
    let r := ivyFifoSendSocket ifb results
    let s := transmit { s with client := { s.client with ifb := some r.fifo } } r.sent
    match r.ret with
    | none => some (s, false)
    | some remaining =>
      if remaining = ivyFifoSendError then some (socketClose s, false)
      else if remaining = 0 then
        let s := ivyChannelClearWritableEvent s
        some ({ s with client := { s.client with ifb := none } }, true)
      else some (s, false)

end Ivy.Socket

import Mathlib.Data.Nat.Notation

/-! The addresses of a connection: what the kernel knows of them and what the socket layer
records. -/
namespace Ivy.Socket

inductive ByteOrder
  | little
  | big
  deriving DecidableEq, Repr

/-- `ntohs` and `htons` are the same. -/
def ByteOrder.ntohs : ByteOrder → UInt16 → UInt16
  | .little, port => UInt16.ofNat (port.toNat / 256 + port.toNat % 256 * 256)
  | .big, port => port

structure Endpoint where
  host : ℕ
  port : UInt16
  deriving DecidableEq, Repr

/-- `struct sockaddr_in` and `sockaddr_in6`, whose ports stand at the same place; `port` is
what the host reads there. -/
structure SockAddr where
  host : ℕ
  port : UInt16
  deriving DecidableEq, Repr

/-- The addresses of a `_client`. The ends of the connection are the kernel's. -/
structure Addresses where
  fromAddr : SockAddr
  localEnd : Endpoint
  remoteEnd : Endpoint
  deriving DecidableEq, Repr

def sockAddr (order : ByteOrder) (e : Endpoint) : SockAddr := ⟨e.host, order.ntohs e.port⟩

/-- `HandleServer` keeps the address that `accept` returns. -/
def acceptedFrom (order : ByteOrder) (localEnd remoteEnd : Endpoint) : Addresses :=
  ⟨sockAddr order remoteEnd, localEnd, remoteEnd⟩

/-- `SocketConnectAddr` leaves `from` as `IVY_LIST_ADD_START` clears it. -/
def connectedTo (localEnd remoteEnd : Endpoint) : Addresses := ⟨⟨0, 0⟩, localEnd, remoteEnd⟩

/-- `getsockname` gives the port in network order. -/
def socketGetLocalPort (order : ByteOrder) (client : Addresses) : UInt16 :=
  order.ntohs (sockAddr order client.localEnd).port

def socketGetRemotePort (client : Addresses) : UInt16 := client.fromAddr.port

def socketGetRemoteAddr (client : Addresses) : ℕ := client.fromAddr.host

end Ivy.Socket

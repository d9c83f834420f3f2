import Ivy.Socket.Address

/-! Which of two connections to the same application `Receive` closes. -/
namespace Ivy.Agent
open Socket

def maxport (a b : UInt16) : UInt16 := if a > b then a else b

def portRank (order : ByteOrder) (client : Addresses) : UInt16 :=
  maxport (socketGetLocalPort order client) (socketGetRemotePort client)

/-- The branch of `Receive` for `StartRegexp` that finds `other`: whether it is the one to close. -/
def closesOther (order : ByteOrder) (other clnt : Addresses) : Bool :=
  portRank order other > portRank order clnt

end Ivy.Agent

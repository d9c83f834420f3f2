import Ivy.Interval.RegexpGen

/-! `IvyStart`: the addresses that a bus string lists, and what is sent to them. -/
namespace Ivy.Discovery
open Ivy.Interval (atoi)

def comma : UInt8 := 44

def colon : UInt8 := 58

def point : UInt8 := 46

def ivyDefaultBus : UInt16 := 2010

def defaultIvyBus : Text := ascii "127.255.255.255:2010"

def ivyMajorVersion : ℤ := 3

structure Application where
  applicationPort : UInt16
  applicationID : Text
  applicationName : Text

/-- `"%d %hu %s %s\n"` -/
def Application.hello (app : Application) : Text :=
  decimal ivyMajorVersion ++ [space] ++ decimal app.applicationPort.toNat ++ [space] ++
    app.applicationID ++ [space] ++ app.applicationName ++ [newline]

/-- What is asked of the broadcast socket. -/
inductive Action
  | socketAddMember (host : UInt32)
  | socketSendBroadcast (host : UInt32) (port : UInt16) (text : Text)
  | socketAddMember6 (host : Vector UInt8 16)
  | socketSendBroadcast6 (host : Vector UInt8 16) (port : UInt16) (text : Text)
  deriving DecidableEq

def inMulticast (host : UInt32) : Bool := host &&& 0xf0000000 == 0xe0000000

/-- A multicast group is joined before its hello. -/
def broadcast (app : Application) (port : UInt16) (mask : UInt32) : List Action :=
  (if inMulticast mask then [.socketAddMember mask] else []) ++
    [.socketSendBroadcast mask port app.hello]

structure Decode where
  mask : UInt32
  elem : UInt8
  numdigit : ℕ
  numelem : ℕ
  error : Bool
  deriving DecidableEq

def Decode.start : Decode := ⟨0xffffffff, 0, 0, 0, false⟩

/-- The component that ends goes into the mask. The shift by a negative count is undefined. -/
def Decode.shifted (d : Decode) : Option UInt32 :=
  if d.numelem ≤ 3 then
    let shift := UInt32.ofNat (8 * (3 - d.numelem))
    some (d.mask ^^^ (0xff <<< shift) ||| d.elem.toUInt32 <<< shift)
  else none

/-- One round, with the network that it sends to. -/
def decodeByte (d : Decode) (b : UInt8) : Option (Decode × Option UInt32) :=
  if d.error = false ∧ IsDigit b then
    -- `numdigit` is set to zero only: no digit counts.
    if d.numdigit < 3 ∧ d.numelem < 4 then some ({ d with elem := 10 * d.elem + b - 48 }, none)
    else some ({ d with error := true }, none)
  else if d.error = false ∧ (b = point ∨ b = comma ∨ b = colon ∨ b = 0) then
    d.shifted.map fun mask =>
      if b = point then
        ({ d with mask := mask, numelem := d.numelem + 1, numdigit := 0, elem := 0 }, none)
      else
        ({ d with mask := 0xffffffff, numelem := 0, numdigit := 0, elem := 0 }, some mask)
  else if b = comma ∨ b = colon ∨ b = 0 then some (Decode.start, none)
  else if b = space then some (d, none)
  else some ({ d with error := true }, none)

/-- The loop, up to a colon or the terminator. `none` is undefined. -/
def decodeLoop : Decode → Text → Option (List UInt32)
  | d, [] => (decodeByte d 0).map fun r => r.2.toList
  | d, b :: p =>
    (decodeByte d b).bind fun r =>
      if b = colon then some r.2.toList else (decodeLoop r.1 p).map (r.2.toList ++ ·)

def strrchr : Text → UInt8 → Option ℕ
  | [], _ => none
  | b :: t, c =>
    match strrchr t c with
    | some i => some (i + 1)
    | none => if b = c then some 0 else none

/-- `if (!p || !*p) p = next;` -/
def orElse (p : Option CString) (next : Text) : Text :=
  p.elim next fun p => if p.bytes = [] then next else p.bytes

/-- `port = atoi (q+1)`, as an `unsigned short`. -/
def busPort (p : Text) : UInt16 :=
  (strrchr p colon).elim 0 fun q => UInt16.ofInt (atoi (p.drop (q + 1)))

/-- The string in `addr`, with the one that it holds before it is set. -/
def busAddr (uninit : Option Text) (p : Text) : Option Text :=
  match strrchr p colon with
  | none => uninit
  | some q => if busPort p = 0 then uninit else if q < 1024 then some (p.take q) else none

/-- What `IvyStart` asks of the broadcast socket, `none` if it is undefined. `inet_pton` is the one
for `AF_INET6`. -/
def ivyStart (app : Application) (inet_pton : Text → Option (Vector UInt8 16))
    (uninit : Option Text) (getenv bus : Option CString) : Option (List Action) :=
  let p := orElse bus (orElse getenv defaultIvyBus)
  let supervisionPort := if busPort p = 0 then ivyDefaultBus else busPort p
  (busAddr uninit p).bind fun addr =>
    match inet_pton addr with
    | some ipv6addr =>
      some ((if ipv6addr[0] = 0xff then [.socketAddMember6 ipv6addr] else []) ++
        [.socketSendBroadcast6 ipv6addr supervisionPort app.hello])
    | none =>
      let p := if strrchr p colon = some 0 then defaultIvyBus else p
      (decodeLoop Decode.start p).map fun hosts => hosts.flatMap (broadcast app supervisionPort)

end Ivy.Discovery

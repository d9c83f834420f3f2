import Ivy.Lib.Block
import Ivy.Protocol.Scan

/-! The parser of hello datagrams, `ivydiscovery.h`. -/
namespace Ivy.Discovery

def tab : UInt8 := 9

def cr : UInt8 := 13

/-- `*p == ' ' || *p == '\t'` -/
def isBlank (b : UInt8) : Bool := b == space || b == tab

def startsBlank (p : Text) : Bool := p.head?.any isBlank

/-- `while (*p == ' ' || *p == '\t') ++p;` -/
def skipBlanks (p : Text) : Text := p.dropWhile isBlank

/-- `if (*p == c) ++p;` -/
def skipOne (c : UInt8) (p : Text) : Text := if p.head? = some c then p.tail else p

def readDigits (limit : UInt32) : UInt32 → Text → Option (UInt32 × Text)
  | number, [] => some (number, [])
  | number, b :: p =>
    if IsDigit b then
      let digit := b.toUInt32 - 48
      if number > (limit - digit) / 10 then none else readDigits limit (number * 10 + digit) p
    else some (number, b :: p)

/-- The new cursor comes with the number. -/
def ivyDiscoveryNumber (cursor : Text) (limit : UInt32) : Option (UInt32 × Text) :=
  let p := skipBlanks cursor
  if p.head?.any (IsDigit ·) then
    match readDigits limit 0 p with
    | none => none
    | some (number, p) => if startsBlank p then some (number, skipBlanks p) else none
  else none

/-- What the out parameters point to. -/
structure Outputs where
  version : ℤ
  port : UInt16
  appid : ℕ → UInt8
  appname : ℕ → UInt8

/-- `" \t\r\n"` -/
def endsId (b : UInt8) : Bool := b == space || b == tab || b == cr || b == newline

/-- `"\r\n"` -/
def endsName (b : UInt8) : Bool := b == cr || b == newline

/-- `strcspn` counts the bytes before the first that is in `reject`. -/
def strcspn (p : Text) (reject : UInt8 → Bool) : ℕ := (p.takeWhile (!reject ·)).length

def intMax : UInt32 := 0x7fffffff

/-- `memcpy` and the terminator. -/
def storeField (field : ℕ → UInt8) (bytes : Text) : ℕ → UInt8 := Block.write field 0 (bytes ++ [0])

def ivyParseDiscovery (line : CString) (id_size name_size : ℕ) (out : Outputs) : Bool × Outputs :=
  match ivyDiscoveryNumber line.bytes intMax with
  | none => (false, out)
  | some (parsed_version, p) =>
    match ivyDiscoveryNumber p 65535 with
    | none => (false, out)
    | some (parsed_port, id) =>
      if parsed_port = 0 then (false, out)
      else
        let id_length := strcspn id endsId
        if id_length = 0 ∨ id_length ≥ id_size then (false, out)
        else
          let p := id.drop id_length
          if startsBlank p then
            let name := skipBlanks p
            let name_length := strcspn name endsName
            if name_length = 0 ∨ name_length ≥ name_size then (false, out)
            else
              let p := skipOne newline (skipOne cr (name.drop name_length))
              if p ≠ [] then (false, out)
              else
                (true,
                  { version := Int.bmod parsed_version.toNat (2 ^ 32)
                    port := parsed_port.toUInt16
                    appid := storeField out.appid (id.take id_length)
                    appname := storeField out.appname (name.take name_length) })
          else (false, out)

/-- The values, as integers, of the `unsigned int` expressions of one round. -/
def roundValues (limit number digit : UInt32) : List ℤ :=
  let room : ℤ := limit.toNat - digit.toNat
  if number > (limit - digit) / 10 then [digit.toNat, room, room / 10]
  else [digit.toNat, room, room / 10, number.toNat * 10, number.toNat * 10 + digit.toNat]

/-- The values of all rounds of `readDigits`. -/
def digitsValues (limit : UInt32) : UInt32 → Text → List ℤ
  | _, [] => []
  | number, b :: p =>
    if IsDigit b then
      let digit := b.toUInt32 - 48
      roundValues limit number digit ++
        if number > (limit - digit) / 10 then [] else digitsValues limit (number * 10 + digit) p
    else []

/-- The values that the two calls of `ivyDiscoveryNumber` compute. -/
def intermediates (line : CString) : List ℤ :=
  digitsValues intMax 0 (skipBlanks line.bytes) ++
    match ivyDiscoveryNumber line.bytes intMax with
    | none => []
    | some (_, p) => digitsValues 65535 0 (skipBlanks p)

end Ivy.Discovery

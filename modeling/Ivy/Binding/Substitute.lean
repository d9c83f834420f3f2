import Ivy.Interval.RegexpGen
import Ivy.Protocol.Buffer

/-! The buffers of `IvyBindMsg` and `IvyChangeMsg`, and `substituteInterval`. -/
namespace Ivy.Binding
open Ivy.Interval

/-- A static buffer with the real length of the block that `data` points to. -/
structure StaticBuffer extends IvyBuffer where
  allocated : ℕ

namespace StaticBuffer

/-- `{NULL, 0, 0}` -/
def initial : StaticBuffer := ⟨emptyBuffer, 0⟩

/-- The string that the block holds. -/
def text (b : StaticBuffer) : Text := (Block.read b.data 0 b.allocated).takeWhile (· ≠ 0)

/-- The string, terminated inside the block. -/
structure Holds (b : StaticBuffer) (t : Text) : Prop where
  inside : t.length < b.allocated
  eq : Block.read b.data 0 t.length = t
  terminated : b.data t.length = 0

/-- `make_message`. Both tries write into the block: undefined where they write after its end, or
where `size` overflows. -/
def makeMessage (b : StaticBuffer) (text : CString) : Outcome StaticBuffer :=
  let allocated := if b.size = 0 then ivyBufferSize else b.allocated
  let buffer := allocBuffer b.toIvyBuffer
  let n := text.bytes.length
  let room := buffer.size - buffer.offset
  if room ≠ 0 ∧ allocated < buffer.offset + min n (room - 1) + 1 then .undefined
  else if n < room then .returns ⟨Ivy.makeMessage b.toIvyBuffer text.bytes, allocated⟩
  else if 2 ^ 31 ≤ buffer.offset + n + 1 then .undefined
  else .returns ⟨Ivy.makeMessage b.toIvyBuffer text.bytes, buffer.offset + n + 1⟩

end StaticBuffer

/-- `strstr` for a string. -/
def find (needle : Text) : Text → Option ℕ
  | [] => if needle = [] then some 0 else none
  | b :: t => if needle.isPrefixOf (b :: t) then some 0 else (find needle t).map (· + 1)

/-- `"(?I"` -/
def intervalStart : Text := [40, 63, 73]

def hash : UInt8 := 35

def close : UInt8 := 41

/-- `dst.size` -/
def dstSize : ℕ := 8192

/-- `sscanf (itvPos, "(?I%d#%d%c", …)`. -/
def scanInterval (itvPos : Text) : Option (ℤ × ℤ × UInt8) :=
  (scanInt (itvPos.drop intervalStart.length)).bind fun r =>
    if r.2.head? = some hash then
      (scanInt r.2.tail).bind fun r' => r'.2.head?.map fun withDecimal => (r.1, r'.1, withDecimal)
    else none

/-- `strncat` with the room that is left: it cuts a string that does not fit, and writes the
terminator after the block. -/
def strncat (size : ℕ) (dst src : Text) : Outcome Text :=
  if dst.length + src.length < size then .returns (dst ++ src) else .undefined

/-- The loop, with the string in the new block. `fails`: a call of `regexpGen` failed, which the
code does not test. -/
def substituteLoop (regexpGen : ℤ → ℤ → Bool → CString) : ℕ → Text → Text → Outcome Text
  | 0, _, _ => .undefined
  | fuel + 1, dst, curPos =>
    match find intervalStart curPos with
    | none => strncat dstSize dst curPos
    | some pos => do
      -- `lenCp` is an `int`.
      let lenCp := toSizeT (Int.bmod pos (2 ^ 32))
      let itvPos := curPos.drop pos
      if dstSize < dst.length + lenCp then .undefined
      else
        match scanInterval itvPos, strstr itvPos close with
        | some (min, max, withDecimal), some last => do
          let buflen := dstSize - (dst.length + lenCp)
          let regexp ← checkAndReturn (ascii "regexpGen") buflen
            (regexpGen min max (withDecimal ≠ 105)).bytes
          substituteLoop regexpGen fuel (dst ++ curPos.take lenCp ++ regexp) (itvPos.drop (last + 1))
        | _, _ => .undefined

/-- `substituteInterval`. The new block holds `uninit` where nothing is written, and `size` and
`offset` stay. -/
def substituteInterval (regexpGen : ℤ → ℤ → Bool → CString) (uninit : ℕ → UInt8)
    (src : StaticBuffer) : Outcome StaticBuffer :=
  match find intervalStart src.text with
  | none => .returns src
  | some _ => do
    let dst ← substituteLoop regexpGen (src.text.length + 1) [] src.text
    return ⟨{ src.toIvyBuffer with data := Block.write uninit 0 (dst ++ [0]) }, dstSize⟩

/-- What `IvyBindMsg` and `IvyChangeMsg` do with their buffers. -/
def fillBuffer (regexpGen : ℤ → ℤ → Bool → CString) (uninit : ℕ → UInt8) (buffer : StaticBuffer)
    (text : CString) : Outcome StaticBuffer := do
  let buffer ← StaticBuffer.makeMessage ⟨buffer.reset, buffer.allocated⟩ text
  substituteInterval regexpGen uninit buffer

end Ivy.Binding

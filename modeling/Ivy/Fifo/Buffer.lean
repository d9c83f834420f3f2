import Ivy.Lib.Ring
import Mathlib.Algebra.Group.Nat.Defs

/-! The congestion FIFO, `ivyfifo.c`. Pointers are offsets into the allocated block;
the pointer bounds and the size limit are fields, so every operation keeps them. -/
namespace Ivy.Fifo

def ivyFifoAllocSize : ℕ := 262144

def ivyFifoMaxAllocSize : ℕ := 32 * 1048576

def intMax : ℕ := 2 ^ 31 - 1

/-- Conversion to `unsigned int`. -/
def u32 (n : ℕ) : ℕ := n % 2 ^ 32

/-- `IVY_FIFO_SEND_ERROR`, that is `(unsigned int) -1`. -/
def ivyFifoSendError : ℕ := 2 ^ 32 - 1

/-- `rptr`, `wptr` and `stop` (the source's `end`) are offsets from `f->buffer`. -/
structure IvyFifoBuffer where
  buffer : ℕ → UInt8
  stop : ℕ
  rptr : ℕ
  wptr : ℕ
  full : Bool
  rptr_lt : rptr < stop
  wptr_lt : wptr < stop
  stop_le : stop ≤ ivyFifoMaxAllocSize

/-- A fresh block; its cells are never read before they are written. -/
def malloc : ℕ → UInt8 := fun _ => 0

def ivyFifoInit : IvyFifoBuffer where
  buffer := malloc
  stop := ivyFifoAllocSize
  rptr := 0
  wptr := 0
  full := false
  rptr_lt := by decide
  wptr_lt := by decide
  stop_le := by decide

def ivyFifoNew : IvyFifoBuffer := ivyFifoInit

def ivyFifoSize (f : IvyFifoBuffer) : ℕ := f.stop

def ivyFifoLength (f : IvyFifoBuffer) : ℕ :=
  let size : ℤ := (f.wptr : ℤ) - f.rptr
  (if size < 0 then size + f.stop else size).toNat

def ivyFifoAvail (f : IvyFifoBuffer) : ℕ := ivyFifoSize f - ivyFifoLength f

def ivyFifoIsFull (f : IvyFifoBuffer) : Bool := f.full

/-- Callers drain at most up to the end of the block. -/
def ivyFifoDrain (f : IvyFifoBuffer) (size : ℕ) (h : size ≤ f.stop - f.rptr) : IvyFifoBuffer :=
  { f with
    rptr := if f.rptr + size ≥ f.stop then f.rptr + size - f.stop else f.rptr + size
    full := if size > 0 then false else f.full
    rptr_lt := by have := f.rptr_lt; split <;> omega }

def ivyFifoReadLoop (f : IvyFifoBuffer) (bytesToRead : ℕ) : List UInt8 × IvyFifoBuffer :=
  let len := min (f.stop - f.rptr) bytesToRead
  let chunk := Block.read f.buffer f.rptr len
  let g := ivyFifoDrain f len (Nat.min_le_left _ _)
  if bytesToRead - len > 0 then
    let rest := ivyFifoReadLoop g (bytesToRead - len)
    (chunk ++ rest.1, rest.2)
  else (chunk, g)
termination_by bytesToRead
decreasing_by have := f.rptr_lt; omega

structure ReadResult where
  retV : ℕ
  dest : List UInt8
  fifo : IvyFifoBuffer

/-- `IvyFifoRead`: `IvyFifoGenericRead` without a reader function. -/
def ivyFifoRead (f : IvyFifoBuffer) (buf_size : ℕ) : ReadResult :=
  let bytesToRead := min buf_size (ivyFifoLength f)
  let r := ivyFifoReadLoop f bytesToRead
  ⟨bytesToRead, r.1, r.2⟩

/-- The block size that `IvyFifoRealloc` asks for. -/
def alignedNewSize (new_size : ℕ) : ℕ :=
  u32 ((new_size / ivyFifoAllocSize + 1) * ivyFifoAllocSize)

theorem ivyFifoLength_lt_stop (f : IvyFifoBuffer) : ivyFifoLength f < f.stop := by
  have hr := f.rptr_lt
  have hw := f.wptr_lt
  unfold ivyFifoLength
  dsimp only
  split_ifs <;> omega

def ivyFifoRealloc (f : IvyFifoBuffer) (new_size : ℕ) : IvyFifoBuffer :=
  if hmax : alignedNewSize new_size > ivyFifoMaxAllocSize then { f with full := true }
  else if hgrow : ivyFifoSize f < alignedNewSize new_size then
    let len := ivyFifoLength f
    { buffer := Block.write malloc 0 (ivyFifoRead f len).dest
      stop := alignedNewSize new_size
      rptr := 0
      wptr := len
      full := false
      rptr_lt := Nat.zero_lt_of_lt hgrow
      wptr_lt := (ivyFifoLength_lt_stop f).trans hgrow
      stop_le := Nat.le_of_not_gt hmax }
  else f

def ivyFifoStore (f : IvyFifoBuffer) (xs : List UInt8) : IvyFifoBuffer :=
  { f with
    buffer := Block.write f.buffer f.wptr xs
    wptr := if f.wptr + xs.length ≥ f.stop then 0 else f.wptr + xs.length
    wptr_lt := by have := f.wptr_lt; split <;> omega }

def ivyFifoWriteLoop (f : IvyFifoBuffer) (buf : List UInt8) : IvyFifoBuffer :=
  let len := min (f.stop - f.wptr) buf.length
  let g := ivyFifoStore f (buf.take len)
  if buf.length - len > 0 then ivyFifoWriteLoop g (buf.drop len) else g
termination_by buf.length
decreasing_by have := f.wptr_lt; simp only [List.length_drop]; omega

def ivyFifoWrite (f : IvyFifoBuffer) (buf : List UInt8) : IvyFifoBuffer :=
  let f := if buf.length ≥ ivyFifoAvail f then
    ivyFifoRealloc f (u32 (buf.length + ivyFifoLength f)) else f
  if f.full then f else ivyFifoWriteLoop f buf

/-- What one `send()` on a stream socket does: it accepts some of the bytes, or
returns -1 with `errno` set to `EAGAIN`/`EWOULDBLOCK`, to `EINTR` or to something else. -/
inductive SendResult
  | accepted (n : ℕ)
  | wouldBlock
  | interrupted
  | failed
  deriving DecidableEq, Repr

/-- One run of `IvyFifoSendSocket`: the buffers handed to `send()` with the number of
bytes it took from each, and the returned value; `none` while the call still waits for `send()`. -/
structure SendSocketRun where
  fifo : IvyFifoBuffer
  calls : List (List UInt8 × ℕ)
  ret : Option ℕ

/-- The bytes that `send()` accepted, in order. -/
def SendSocketRun.sent (r : SendSocketRun) : List UInt8 :=
  (r.calls.map fun c => c.1.take c.2).flatten

/-- `results` are what successive calls of `send()` do. -/
def ivyFifoSendSocket (f : IvyFifoBuffer) : List SendResult → SendSocketRun
  | [] => ⟨f, [], if ivyFifoLength f > 0 then none else some 0⟩
  | result :: results =>
    if ivyFifoLength f > 0 then
      let maxLen := min (f.stop - f.rptr) (ivyFifoLength f)
      let buf := Block.read f.buffer f.rptr maxLen
      match result with
      | .interrupted =>
        let r := ivyFifoSendSocket f results
        ⟨r.fifo, (buf, 0) :: r.calls, r.ret⟩
      | .wouldBlock => ⟨f, [(buf, 0)], some (ivyFifoLength f)⟩
      | .failed => ⟨f, [(buf, 0)], some ivyFifoSendError⟩
      | .accepted n =>
        let realLen := min n maxLen
        if realLen = 0 then ⟨f, [(buf, 0)], some ivyFifoSendError⟩
        else
          let g := ivyFifoDrain f realLen (by omega)
          if realLen < maxLen then ⟨g, [(buf, realLen)], some (ivyFifoLength g)⟩
          else
            let r := ivyFifoSendSocket g results
            ⟨r.fifo, (buf, realLen) :: r.calls, r.ret⟩
    else ⟨f, [], some 0⟩

end Ivy.Fifo

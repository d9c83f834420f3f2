import Ivy.Lib.Block
import Ivy.Protocol.Text
import Mathlib.Tactic.SplitIfs

/-! The growing buffers of `ivybuffer.c`. -/
namespace Ivy

/-- A null `data` has `size` zero. -/
structure IvyBuffer where
  data : ℕ → UInt8
  size : ℕ
  offset : ℕ

/-- `{NULL, 0, 0}` -/
def emptyBuffer : IvyBuffer := ⟨fun _ => 0, 0, 0⟩

def ivyBufferSize : ℕ := 4096

/-- `vsnprintf` truncates its output to the room it is given and terminates it. -/
def vsnprintf (data : ℕ → UInt8) (start room : ℕ) (text : Text) : ℕ → UInt8 :=
  if room = 0 then data else Block.write data start (text.take (room - 1) ++ [0])

def allocBuffer (buffer : IvyBuffer) : IvyBuffer :=
  if buffer.size = 0 then { buffer with size := ivyBufferSize, offset := 0 } else buffer

/-- `text` is what the format and its arguments print. A print that does not fit is
repeated in a block with exactly the room that it needs. -/
def makeMessage (buffer : IvyBuffer) (text : Text) : IvyBuffer :=
  let b := allocBuffer buffer
  let n := text.length
  let data := vsnprintf b.data b.offset (b.size - b.offset) text
  if n < b.size - b.offset then { b with data := data, offset := b.offset + n }
  else
    let size := b.offset + n + 1
    { data := vsnprintf data b.offset (size - b.offset) text, size := size, offset := b.offset + n }

def IvyBuffer.contents (b : IvyBuffer) : Text := Block.read b.data 0 b.offset

def IvyBuffer.string (b : IvyBuffer) : Text := (Block.read b.data 0 b.size).takeWhile (· ≠ 0)

/-- Nothing is printed into storage that is not there yet. -/
def IvyBuffer.Allocated (b : IvyBuffer) : Prop := b.size = 0 → b.offset = 0

/-- `buffer.offset = 0` -/
def IvyBuffer.reset (b : IvyBuffer) : IvyBuffer := { b with offset := 0 }

@[simp] theorem contents_reset (b : IvyBuffer) : b.reset.contents = [] := rfl

theorem allocated_reset (b : IvyBuffer) : b.reset.Allocated := fun _ => rfl

theorem allocBuffer_of_allocated {b : IvyBuffer} (h : b.Allocated) :
    (allocBuffer b).contents = b.contents ∧ (allocBuffer b).offset = b.offset ∧
      0 < (allocBuffer b).size := by
  unfold allocBuffer
  split_ifs with hsize
  · simp [IvyBuffer.contents, h hsize, ivyBufferSize]
  · exact ⟨rfl, rfl, Nat.pos_of_ne_zero hsize⟩

theorem vsnprintf_fits {start room : ℕ} {text : Text} (h : text.length < room)
    (data : ℕ → UInt8) : vsnprintf data start room text = Block.write data start (text ++ [0]) := by
  rw [vsnprintf, if_neg (by omega), List.take_of_length_le (by omega)]

theorem read_vsnprintf_before (data : ℕ → UInt8) (start room : ℕ) (text : Text) :
    Block.read (vsnprintf data start room text) 0 start = Block.read data 0 start := by
  unfold vsnprintf
  split_ifs
  · rfl
  · exact Block.read_write_disjoint data start _ (.inl (by omega))

private theorem read_printed (data : ℕ → UInt8) (start : ℕ) (text : Text) :
    Block.read (Block.write data start (text ++ [0])) 0 (start + text.length) =
      Block.read data 0 start ++ text := by
  rw [Block.read_add, Block.read_write_disjoint data start _ (.inl (by omega)), Nat.zero_add]
  congr 1
  have hself := Block.read_write_self data start (text ++ [0])
  rw [List.length_append, Block.read_add] at hself
  exact (List.append_inj hself (Block.length_read _ _ _)).1

/-- `make_message` appends what it prints, whether the block grows or not, and leaves a terminator. -/
theorem makeMessage_spec {b : IvyBuffer} (h : b.Allocated) (text : Text) :
    (makeMessage b text).contents = b.contents ++ text ∧ (makeMessage b text).Allocated ∧
      (makeMessage b text).data (makeMessage b text).offset = 0 ∧
      (makeMessage b text).offset < (makeMessage b text).size := by
  obtain ⟨hcontents, hoffset, hsize⟩ := allocBuffer_of_allocated h
  have hend (data : ℕ → UInt8) (start : ℕ) :
      Block.write data start (text ++ [0]) (start + text.length) = 0 := by
    rw [Block.write_of_mem _ _ (by simp)]
    simp
  simp only [makeMessage]
  split_ifs with hroom
  · refine ⟨?_, fun hzero => absurd hzero (Nat.ne_of_gt hsize), ?_, ?_⟩
    · rw [IvyBuffer.contents, vsnprintf_fits hroom, read_printed, ← hcontents, IvyBuffer.contents]
    · rw [vsnprintf_fits hroom]
      exact hend _ _
    · exact Nat.add_lt_of_lt_sub' hroom
  · refine ⟨?_, fun hzero => absurd hzero (Nat.succ_ne_zero _), ?_, Nat.lt_succ_self _⟩
    · rw [IvyBuffer.contents, vsnprintf_fits (by omega), read_printed, read_vsnprintf_before,
        ← hcontents, IvyBuffer.contents]
    · rw [vsnprintf_fits (by omega)]
      exact hend _ _

/-- A message printed into a buffer that was reset is the string in the buffer, up to its first
zero byte. -/
theorem string_makeMessage (b : IvyBuffer) (text : Text) :
    (makeMessage b.reset text).string = text.takeWhile (· ≠ 0) := by
  obtain ⟨hcontents, -, hend, hroom⟩ := makeMessage_spec (allocated_reset b) text
  obtain ⟨rest, hrest⟩ := Nat.exists_eq_add_of_lt hroom
  have hsplit : Block.read (makeMessage b.reset text).data 0 (makeMessage b.reset text).size =
      text ++ 0 :: Block.read (makeMessage b.reset text).data
        ((makeMessage b.reset text).offset + 1) rest := by
    rw [contents_reset, List.nil_append] at hcontents
    rw [hrest, Nat.add_assoc, Block.read_add, Nat.zero_add, Block.read_succ, hend]
    exact congrArg (· ++ _) hcontents
  rw [IvyBuffer.string, hsplit, List.takeWhile_append]
  split_ifs with hall
  · rw [List.takeWhile_cons_of_neg (by simp), List.append_nil]
    exact (List.takeWhile_prefix _).eq_of_length hall |>.symm
  · rfl

end Ivy

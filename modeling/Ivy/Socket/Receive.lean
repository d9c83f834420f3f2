import Ivy.Lib.Lines
import Ivy.Lib.Machine
import Ivy.Protocol.Buffer
import Mathlib.Logic.Function.Basic
import Mathlib.Tactic.SplitIfs

/-! Reassembly of lines from a byte stream, `HandleSocket` in `ivysocket.c`. -/
namespace Ivy.Socket

/-- What receiving uses of a `_client`: `ptr` is the offset of the free part of `buffer`,
and `delivered` records the lines handed to the interpretation callback. -/
structure Receiver where
  buffer : ℕ → UInt8
  buffer_size : ℕ
  ptr : ℕ
  tobedeleted : Bool
  delivered : List Text

def newReceiver : Receiver := ⟨fun _ => 0, ivyBufferSize, 0, false, []⟩

/-- The callback gets the lines before this one, the memory and the start of the line;
it returns the memory it leaves. -/
abbrev Interpretation := List Text → (ℕ → UInt8) → ℕ → (ℕ → UInt8)

/-- The callback writes at most up to a terminator of the line it is given. -/
def Interpretation.WritesInside (cb : Interpretation) : Prop :=
  ∀ log mem ptr n, mem (ptr + n) = 0 → ∀ i, i < ptr ∨ ptr + n < i → cb log mem ptr i = mem i

def memchr (mem : ℕ → UInt8) (c : UInt8) : ℕ → ℕ → Option ℕ
  | _, 0 => none
  | ptr, n + 1 => if mem ptr = c then some ptr else memchr mem c (ptr + 1) n

theorem memchr_some {mem : ℕ → UInt8} {c : UInt8} {ptr n i : ℕ}
    (h : memchr mem c ptr n = some i) :
    ptr ≤ i ∧ i < ptr + n ∧ mem i = c ∧ c ∉ Block.read mem ptr (i - ptr) := by
  induction n generalizing ptr with
  | zero => simp [memchr] at h
  | succ n ih =>
    simp only [memchr] at h
    split_ifs at h with hc
    · obtain rfl := Option.some.inj h
      exact ⟨le_rfl, by omega, hc, by simp⟩
    · obtain ⟨hlo, hhi, hi, hnot⟩ := ih h
      refine ⟨by omega, by omega, hi, ?_⟩
      rw [show i - ptr = (i - (ptr + 1)) + 1 by omega, Block.read_succ]
      simp [Ne.symm hc, hnot]

theorem memchr_none {mem : ℕ → UInt8} {c : UInt8} {ptr n : ℕ} (h : memchr mem c ptr n = none) :
    c ∉ Block.read mem ptr n := by
  induction n generalizing ptr with
  | zero => simp
  | succ n ih =>
    simp only [memchr] at h
    split_ifs at h with hc
    rw [Block.read_succ]
    simp [Ne.symm hc, ih h]

/-- The loop over the complete lines in `[ptr, stop)`. -/
def deliverLines (cb : Interpretation) (stop : ℕ) (mem : ℕ → UInt8) (ptr : ℕ) (log : List Text) :
    (ℕ → UInt8) × ℕ × List Text :=
  match _h : memchr mem newline ptr (stop - ptr) with
  | none => (mem, ptr, log)
  | some ptr_nl =>
    let mem := Function.update mem ptr_nl 0
    deliverLines cb stop (cb log mem ptr) (ptr_nl + 1) (log ++ [Block.read mem ptr (ptr_nl - ptr)])
termination_by stop - ptr
decreasing_by
  have := memchr_some _h
  omega

inductive Received
  | bytes (data : List UInt8)
  | error

/-- The buffer grows only when it is full. -/
def Receiver.withRoom (c : Receiver) : Receiver :=
  if c.buffer_size - c.ptr = 0 then { c with buffer_size := 2 * c.buffer_size } else c

/-- `nb_to_read`, the space that `HandleSocket` offers to `recvfrom`. -/
def nbToRead (c : Receiver) : ℕ := c.withRoom.buffer_size - c.ptr

def ivyChannelRemove (c : Receiver) : Receiver := { c with tobedeleted := true }

/-- `recvfrom` puts at most `nb_to_read` bytes at `ptr`. -/
def handleSocket (cb : Interpretation) (c : Receiver) : Received → Receiver
  | .error => ivyChannelRemove c.withRoom
  | .bytes data =>
    let nb := min data.length (nbToRead c)
    if nb = 0 then ivyChannelRemove c.withRoom
    else
      let stop := c.ptr + nb
      let r := deliverLines cb stop (Block.write c.buffer c.ptr (data.take nb)) 0 c.delivered
      if r.2.1 < stop then
        let len := stop - r.2.1
        { c.withRoom with
          buffer := Block.write r.1 0 (Block.read r.1 r.2.1 len), ptr := len, delivered := r.2.2 }
      else { c.withRoom with buffer := r.1, ptr := 0, delivered := r.2.2 }

def Receiver.held (c : Receiver) : List UInt8 := Block.read c.buffer 0 c.ptr

/-- The loop delivers the complete lines of `[ptr, stop)` and stops at the tail. -/
theorem deliverLines_spec {cb : Interpretation} (hcb : cb.WritesInside) {stop : ℕ}
    (mem : ℕ → UInt8) (ptr : ℕ) (log : List Text) (hle : ptr ≤ stop) :
    let r := deliverLines cb stop mem ptr log
    r.2.1 ≤ stop ∧ ∃ ls, r.2.2 = log ++ ls ∧
      Lines newline (Block.read mem ptr (stop - ptr)) ls (Block.read r.1 r.2.1 (stop - r.2.1)) := by
  fun_induction deliverLines cb stop mem ptr log with
  | case1 mem ptr log h =>
    exact ⟨hle, [], (List.append_nil _).symm, .of_not_mem (memchr_none h)⟩
  | case2 mem ptr log ptr_nl h mem' ih =>
    obtain ⟨hlo, hhi, hnl, hline⟩ := memchr_some h
    obtain ⟨hstop, ls, hlog, hlines⟩ := ih (by omega)
    have hline' : Block.read mem' ptr (ptr_nl - ptr) = Block.read mem ptr (ptr_nl - ptr) :=
      Block.read_congr fun i _ hi => Function.update_of_ne (by omega) _ _
    -- the callback only touches the line before `ptr_nl`, so what follows is unread input
    have hafter : Block.read (cb log mem' ptr) (ptr_nl + 1) (stop - (ptr_nl + 1)) =
        Block.read mem (ptr_nl + 1) (stop - (ptr_nl + 1)) := by
      refine Block.read_congr fun i hi _ => ?_
      rw [hcb log mem' ptr (ptr_nl - ptr) (by simp [mem', Nat.add_sub_cancel' hlo]) i (by omega)]
      exact Function.update_of_ne (by omega) _ _
    have hsplit : Block.read mem ptr (stop - ptr) =
        Block.read mem ptr (ptr_nl - ptr) ++
          newline :: Block.read mem (ptr_nl + 1) (stop - (ptr_nl + 1)) := by
      rw [show stop - ptr = (ptr_nl - ptr) + ((stop - (ptr_nl + 1)) + 1) by omega, Block.read_add,
        Nat.add_sub_cancel' hlo, Block.read_succ, hnl]
    refine ⟨hstop, Block.read mem ptr (ptr_nl - ptr) :: ls, ?_, ?_⟩
    · rw [hlog, hline', List.append_assoc]
      rfl
    · rw [hafter] at hlines
      rw [hsplit]
      exact hlines.cons hline

end Ivy.Socket

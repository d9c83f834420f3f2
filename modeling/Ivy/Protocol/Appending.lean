import Ivy.Lib.Machine
import Ivy.Protocol.Buffer

/-! The loop of `make_message`, over allocated blocks and with the arithmetic of `int`. -/
namespace Ivy.Appending

/-- The block that `data` points to, if any. -/
structure IvyBuffer where
  data : Option (List UInt8)
  size : ℤ
  offset : ℤ

/-- `malloc` and `realloc`, which may fail and store anything in new bytes. -/
structure Allocator where
  malloc : ℕ → Option (List UInt8)
  realloc : List UInt8 → ℕ → Option (List UInt8)
  length_malloc : ∀ n, ∀ block ∈ malloc n, block.length = n
  length_realloc : ∀ old n, ∀ block ∈ realloc old n, block.length = n
  take_realloc : ∀ old n, ∀ block ∈ realloc old n, block.take old.length = old.take n

/-- The allocations are successful. -/
def Allocator.Succeeds (alloc : Allocator) : Prop :=
  (∀ n, (alloc.malloc n).isSome) ∧ ∀ old n, (alloc.realloc old n).isSome

/-- The result of an operation on `int`, undefined where it overflows. -/
def toInt (z : ℤ) : Option ℤ := if -2 ^ 31 ≤ z ∧ z < 2 ^ 31 then some z else none

def toSizeT (z : ℤ) : ℕ := (z % 2 ^ 64).toNat

/-- Some bytes are stored in a block, undefined outside it. -/
def store (block : List UInt8) (start : ℤ) (bytes : List UInt8) : Option (List UInt8) :=
  if 0 ≤ start ∧ start + bytes.length ≤ block.length then
    some (block.take start.toNat ++ bytes ++ block.drop (start.toNat + bytes.length))
  else none

/-- `vsnprintf` as C99 has it: the length of the whole text, and as much of it as there is room
for, with a terminator. A length that is no `int` is an error. -/
def vsnprintf (block : List UInt8) (start : ℤ) (room : ℕ) (text : Text) :
    Option (ℤ × List UInt8) :=
  (store block start (if room = 0 then [] else text.take (room - 1) ++ [0])).map fun block =>
    (if text.length < 2 ^ 31 then text.length else -1, block)

/-- What a call returns, what it leaves, and how often it has called `vsnprintf`. -/
structure Returned where
  n : ℤ
  buffer : IvyBuffer
  attempts : ℕ

/-- The loop of `make_message`; the fuel bounds its turns. -/
def attempt (alloc : Allocator) (text : Text) : ℕ → ℕ → IvyBuffer → Option Returned
  | 0, _, _ => none
  | fuel + 1, attempts, buffer => do
    let room ← toInt (buffer.size - buffer.offset)
    let (n, block) ← vsnprintf (← buffer.data) buffer.offset (toSizeT room) text
    if n > -1 ∧ n < room then
      let offset ← toInt (buffer.offset + n)
      return ⟨n, ⟨block, buffer.size, offset⟩, attempts + 1⟩
    else
      let size ← if n > -1 then (toInt (buffer.offset + n)).bind fun size => toInt (size + 1)
        else toInt (buffer.size * 2)
      match alloc.realloc block (toSizeT size) with
      | none => return ⟨-1, ⟨none, size, buffer.offset⟩, attempts + 1⟩
      | some block => attempt alloc text fuel (attempts + 1) ⟨block, size, buffer.offset⟩

/-- There is no block yet. -/
def IvyBuffer.Empty (buffer : IvyBuffer) : Prop := buffer.size = 0 ∨ buffer.data = none

instance (buffer : IvyBuffer) : Decidable buffer.Empty := inferInstanceAs (Decidable (_ ∨ _))

/-- `make_message`; `text` is what the format and its arguments print. -/
def makeMessage (fuel : ℕ) (alloc : Allocator) (buffer : IvyBuffer) (text : Text) :
    Option Returned :=
  if buffer.Empty then
    match alloc.malloc ivyBufferSize with
    | none => some ⟨-1, ⟨none, ivyBufferSize, 0⟩, 0⟩
    | some block => attempt alloc text fuel 0 ⟨block, ivyBufferSize, 0⟩
  else attempt alloc text fuel 0 buffer

def makeMessageVar (fuel : ℕ) (alloc : Allocator) (buffer : IvyBuffer) (text : Text) :
    Option Returned :=
  makeMessage fuel alloc buffer text

/-- The calls on one buffer. Each may find other contents in the bytes that it allocates. -/
inductive Call
  | make_message (alloc : Allocator) (text : Text)
  | make_message_var (alloc : Allocator) (text : Text)

/-- `buffer.offset = 0`, or a call. -/
inductive Event
  | reset
  | call (c : Call)

def Call.alloc : Call → Allocator
  | .make_message alloc _ | .make_message_var alloc _ => alloc

def Call.text : Call → Text
  | .make_message _ text | .make_message_var _ text => text

def Call.run (fuel : ℕ) (buffer : IvyBuffer) : Call → Option Returned
  | .make_message alloc text => makeMessage fuel alloc buffer text
  | .make_message_var alloc text => makeMessageVar fuel alloc buffer text

def step (fuel : ℕ) (buffer : IvyBuffer) : Event → Option IvyBuffer
  | .reset => some { buffer with offset := 0 }
  | .call c => (c.run fuel buffer).map (·.buffer)

def sinceReset (events : List Event) : Text :=
  events.foldl (fun held e => match e with
    | .reset => []
    | .call c => held ++ c.text) []

/-- The buffer has a block of its size and the bytes before its offset are `held`. -/
structure Allocated (buffer : IvyBuffer) (held : Text) (block : List UInt8) : Prop where
  data : buffer.data = some block
  size : buffer.size = block.length
  offset : buffer.offset = held.length
  room : buffer.offset < buffer.size
  range : buffer.size < 2 ^ 31
  held : block.take held.length = held

/-- What a call leaves: a terminator behind the bytes. -/
def Contains (buffer : IvyBuffer) (held : Text) : Prop :=
  ∃ block, Allocated buffer held block ∧ block[held.length]? = some 0

/-- The bytes before the offset are `held`; there may be no block yet. -/
def Holds (buffer : IvyBuffer) (held : Text) : Prop :=
  buffer.Empty ∧ held = [] ∨ ∃ block, Allocated buffer held block

/-! ### One print -/

theorem toInt_eq {z : ℤ} (hlo : 0 ≤ z) (hhi : z < 2 ^ 31) : toInt z = some z := by
  apply if_pos
  omega

theorem toSizeT_eq {n : ℕ} (h : n < 2 ^ 31) : toSizeT n = n := by
  unfold toSizeT
  omega

theorem store_held {block held bytes : List UInt8} (htake : block.take held.length = held)
    (hroom : held.length + bytes.length ≤ block.length) :
    store block held.length bytes =
      some (held ++ bytes ++ block.drop (held.length + bytes.length)) := by
  rw [store, if_pos (by omega), Int.toNat_natCast, htake]

section
variable {buffer : IvyBuffer} {held : Text} {block : List UInt8} {text : Text}

theorem Allocated.left (h : Allocated buffer held block) :
    buffer.size - buffer.offset = (block.length - held.length : ℕ) ∧
      held.length < block.length ∧ block.length < 2 ^ 31 := by
  have hroom := h.room
  have hrange := h.range
  rw [h.size, h.offset] at *
  omega

theorem Allocated.attempt_eq (h : Allocated buffer held block) {text : Text} {printed : List UInt8}
    (hprinted : vsnprintf block buffer.offset (block.length - held.length) text =
      some ((text.length : ℤ), printed)) (alloc : Allocator) (fuel attempts : ℕ) :
    attempt alloc text (fuel + 1) attempts buffer =
      if (text.length : ℤ) > -1 ∧ (text.length : ℤ) < (block.length - held.length : ℕ) then
        (toInt (buffer.offset + text.length)).map fun offset =>
          ⟨text.length, ⟨printed, buffer.size, offset⟩, attempts + 1⟩
      else
        (if (text.length : ℤ) > -1 then
            (toInt (buffer.offset + text.length)).bind fun size => toInt (size + 1)
          else toInt (buffer.size * 2)).bind fun size =>
          match alloc.realloc printed (toSizeT size) with
          | none => some ⟨-1, ⟨none, size, buffer.offset⟩, attempts + 1⟩
          | some block => attempt alloc text fuel (attempts + 1) ⟨block, size, buffer.offset⟩ := by
  obtain ⟨hleft, hlt, hrange⟩ := h.left
  have hroom : toInt (block.length - held.length : ℕ) =
      some ((block.length - held.length : ℕ) : ℤ) := by
    apply toInt_eq <;> omega
  have hsize : toSizeT (block.length - held.length : ℕ) = block.length - held.length := by
    apply toSizeT_eq
    omega
  rw [attempt, hleft, hroom, h.data]
  simp only [Option.bind_eq_bind, Option.bind_some, hsize, hprinted]
  split_ifs
  · cases toInt (buffer.offset + text.length) <;> rfl
  · rfl
  · rfl

/-- A print keeps what was there before, and stands behind it if there is room for it. -/
theorem Allocated.printed (h : Allocated buffer held block) {text : Text} (htext : text.length < 2 ^ 31) :
    ∃ printed : List UInt8, vsnprintf block buffer.offset (block.length - held.length) text =
        some ((text.length : ℤ), printed) ∧ printed.length = block.length ∧
      printed.take held.length = held ∧ (held.length + text.length < block.length →
        printed.take (held ++ text).length = held ++ text ∧
          printed[(held ++ text).length]? = some 0) := by
  obtain ⟨-, hroom, hrange⟩ := h.left
  have hsome : ¬ block.length - held.length = 0 := by omega
  let bytes := text.take (block.length - held.length - 1) ++ [0]
  have hbytes : held.length + bytes.length ≤ block.length := by
    simp only [bytes, List.length_append, List.length_take, List.length_singleton]
    omega
  refine ⟨held ++ bytes ++ block.drop (held.length + bytes.length), ?_, ?_, ?_, ?_⟩
  · rw [vsnprintf, if_neg hsome, h.offset, store_held h.held hbytes, Option.map_some,
      if_pos htext]
  · simp only [List.length_append, List.length_drop]
    omega
  · rw [List.append_assoc, List.take_left]
  · intro hfits
    have hbytes : bytes = text ++ [0] := by
      show text.take _ ++ [0] = _
      rw [List.take_of_length_le (by omega)]
    rw [hbytes, ← List.append_assoc, List.append_assoc _ [0], List.take_left]
    exact ⟨rfl, by simp⟩

theorem attempt_fits (h : Allocated buffer held block) (alloc : Allocator)
    (hroom : held.length + text.length < block.length) (fuel attempts : ℕ) :
    ∃ r, attempt alloc text (fuel + 1) attempts buffer = some r ∧ r.n = text.length ∧
      r.attempts = attempts + 1 ∧ r.buffer.size = buffer.size ∧
      Contains r.buffer (held ++ text) := by
  obtain ⟨hleft, hlt, hrange⟩ := h.left
  have htext : text.length < 2 ^ 31 := by omega
  obtain ⟨printed, hprinted, hlength, -, hfits⟩ := h.printed htext
  obtain ⟨htake, hend⟩ := hfits hroom
  refine ⟨⟨text.length, ⟨printed, buffer.size, buffer.offset + text.length⟩, attempts + 1⟩, ?_, rfl,
    rfl, rfl, printed, ⟨rfl, ?_, ?_, ?_, h.range, htake⟩, hend⟩
  · have htest : (text.length : ℤ) > -1 ∧ (text.length : ℤ) < (block.length - held.length : ℕ) := by
      omega
    have hoffset : toInt (buffer.offset + text.length) = some (buffer.offset + text.length) := by
      rw [h.offset]
      apply toInt_eq <;> omega
    rw [h.attempt_eq hprinted, if_pos htest, hoffset, Option.map_some]
  · rw [h.size, hlength]
  · rw [h.offset, List.length_append]
    rfl
  · show buffer.offset + text.length < buffer.size
    rw [h.offset, h.size]
    omega

/-- Else the block is replaced by one with exactly the room that the text needs. -/
theorem attempt_retry (h : Allocated buffer held block) {alloc : Allocator} (halloc : alloc.Succeeds)
    (hroom : ¬ held.length + text.length < block.length)
    (hlen : held.length + text.length + 1 < 2 ^ 31) (fuel attempts : ℕ) :
    ∃ larger block, attempt alloc text (fuel + 1) attempts buffer =
        attempt alloc text fuel (attempts + 1) larger ∧
      larger.size = (held.length + text.length + 1 : ℕ) ∧ Allocated larger held block ∧ held.length + text.length < block.length := by
  obtain ⟨hleft, hlt, hrange⟩ := h.left
  have htext : text.length < 2 ^ 31 := by omega
  obtain ⟨printed, hprinted, hlength, htake, -⟩ := h.printed htext
  obtain ⟨larger, hlarger⟩ := Option.isSome_iff_exists.mp
    (halloc.2 printed (held.length + text.length + 1))
  have hlarge := alloc.length_realloc _ _ _ hlarger
  have hkeep := alloc.take_realloc _ _ _ hlarger
  refine ⟨⟨larger, (held.length + text.length + 1 : ℕ), buffer.offset⟩, larger, ?_, rfl,
    ⟨rfl, by simp [hlarge], h.offset, ?_, ?_, ?_⟩, by omega⟩
  · have htest : ¬ ((text.length : ℤ) > -1 ∧ (text.length : ℤ) < (block.length - held.length : ℕ)) := by
      omega
    have hpos : (text.length : ℤ) > -1 := by omega
    have hsize : ((toInt (buffer.offset + text.length)).bind fun size => toInt (size + 1)) =
        some ((held.length + text.length + 1 : ℕ) : ℤ) := by
      rw [h.offset, toInt_eq (by omega) (by omega), Option.bind_some, toInt_eq (by omega) (by omega)]
      simp
    rw [h.attempt_eq hprinted, if_neg htest, if_pos hpos, hsize, Option.bind_some, toSizeT_eq hlen,
      hlarger]
  · show buffer.offset < ((held.length + text.length + 1 : ℕ) : ℤ)
    rw [h.offset]
    omega
  · show ((held.length + text.length + 1 : ℕ) : ℤ) < 2 ^ 31
    exact_mod_cast hlen
  · have hheld : held.length ≤ printed.length := by omega
    have hmore : held.length ≤ held.length + text.length + 1 := by omega
    calc larger.take held.length = (larger.take printed.length).take held.length := by
          rw [List.take_take, min_eq_left hheld]
      _ = (printed.take (held.length + text.length + 1)).take held.length := by rw [hkeep]
      _ = printed.take held.length := by rw [List.take_take, min_eq_left hmore]
      _ = held := htake

/-! ### A call -/

variable {alloc : Allocator}

/-- What a call does that prints `text` behind `held` in a block of `size` bytes. -/
structure Appended (size : ℤ) (held text : Text) (r : Returned) : Prop where
  n : r.n = text.length
  attempts : r.attempts ≤ 2
  size : r.buffer.size = max size ((held ++ text).length + 1)
  contains : Contains r.buffer (held ++ text)

theorem attempt_spec (h : Allocated buffer held block) (halloc : alloc.Succeeds)
    (hlen : held.length + text.length + 1 < 2 ^ 31) (fuel : ℕ) :
    ∃ r, attempt alloc text (fuel + 2) 0 buffer = some r ∧ Appended buffer.size held text r := by
  have hsize := h.size
  by_cases hroom : held.length + text.length < block.length
  · obtain ⟨r, hr, hn, hattempts, hsame, hcontains⟩ := attempt_fits h alloc hroom (fuel + 1) 0
    refine ⟨r, hr, hn, by omega, ?_, hcontains⟩
    rw [hsame, List.length_append]
    omega
  · obtain ⟨larger, block, hretry, hlarge, hlarger, hroom⟩ :=
      attempt_retry h halloc hroom hlen (fuel + 1) 0
    obtain ⟨r, hr, hn, hattempts, hsame, hcontains⟩ := attempt_fits hlarger alloc hroom fuel 1
    refine ⟨r, hretry.trans hr, hn, by omega, ?_, hcontains⟩
    rw [hsame, hlarge, List.length_append]
    omega

theorem allocated_malloc (hblock : alloc.malloc ivyBufferSize = some block) :
    Allocated ⟨block, ivyBufferSize, 0⟩ [] block where
  data := rfl
  size := by rw [alloc.length_malloc _ _ hblock]
  offset := rfl
  room := by
    show (0 : ℤ) < ivyBufferSize
    simp [ivyBufferSize]
  range := by
    show (ivyBufferSize : ℤ) < 2 ^ 31
    simp [ivyBufferSize]
  held := rfl

theorem Allocated.not_empty (h : Allocated buffer held block) : ¬ buffer.Empty := by
  obtain ⟨-, hlt, -⟩ := h.left
  rintro (hsize | hdata)
  · have hlength := h.size
    omega
  · rw [h.data] at hdata
    cases hdata

def IvyBuffer.firstSize (buffer : IvyBuffer) : ℤ :=
  if buffer.Empty then ivyBufferSize else buffer.size

/-- `make_message` appends its text, whether the block is there, is large enough, or not. -/
theorem makeMessage_spec (h : Holds buffer held) (halloc : alloc.Succeeds)
    (hlen : (held ++ text).length < 2 ^ 31 - 1) (fuel : ℕ) :
    ∃ r, makeMessage (fuel + 2) alloc buffer text = some r ∧
      Appended buffer.firstSize held text r := by
  rw [List.length_append] at hlen
  rcases h with ⟨hempty, rfl⟩ | ⟨block, hblock⟩
  · obtain ⟨block, hmalloc⟩ := Option.isSome_iff_exists.mp (halloc.1 ivyBufferSize)
    rw [makeMessage, IvyBuffer.firstSize, if_pos hempty, if_pos hempty, hmalloc]
    exact attempt_spec (allocated_malloc hmalloc) halloc (by omega) fuel
  · rw [makeMessage, IvyBuffer.firstSize, if_neg hblock.not_empty, if_neg hblock.not_empty]
    exact attempt_spec hblock halloc (by omega) fuel

theorem Contains.holds (h : Contains buffer held) : Holds buffer held := by
  obtain ⟨block, hblock, -⟩ := h
  exact .inr ⟨block, hblock⟩

theorem Holds.reset (h : Holds buffer held) : Holds { buffer with offset := 0 } [] := by
  rcases h with ⟨hempty, -⟩ | ⟨block, hblock⟩
  · exact .inl ⟨hempty, rfl⟩
  · obtain ⟨-, hlt, -⟩ := hblock.left
    refine .inr ⟨block, hblock.data, hblock.size, rfl, ?_, hblock.range, rfl⟩
    show 0 < buffer.size
    rw [hblock.size]
    omega

end

/-! ### The model without blocks -/

/-- The two models of a buffer have the same bytes before the offset. -/
structure Agrees (buffer : IvyBuffer) (b : Ivy.IvyBuffer) (held : Text) : Prop where
  firstSize : buffer.firstSize = (allocBuffer b).size
  holds : Holds buffer held
  allocated : b.Allocated
  contents : b.contents = held

theorem size_makeMessage (b : Ivy.IvyBuffer) (hb : b.Allocated) (text : Text) :
    (Ivy.makeMessage b text).size = max (allocBuffer b).size ((b.contents ++ text).length + 1) := by
  obtain ⟨hcontents, hoffset, -⟩ := allocBuffer_of_allocated hb
  have hlength : b.contents.length = b.offset := Block.length_read _ _ _
  rw [List.length_append, hlength]
  simp only [Ivy.makeMessage, hoffset]
  split_ifs
  · dsimp only
    omega
  · dsimp only
    omega

/-- `make_message` with its loop does what the model without it says. -/
theorem makeMessage_agrees {buffer : IvyBuffer} {b : Ivy.IvyBuffer} {held text : Text}
    (h : Agrees buffer b held) {alloc : Allocator} (halloc : alloc.Succeeds)
    (hlen : (held ++ text).length < 2 ^ 31 - 1) (fuel : ℕ) :
    ∃ r, makeMessage (fuel + 2) alloc buffer text = some r ∧
      Agrees r.buffer (Ivy.makeMessage b text) (held ++ text) := by
  obtain ⟨r, hr, happended⟩ := makeMessage_spec h.holds halloc hlen fuel
  obtain ⟨hcontents, hallocated, -, hroom⟩ := Ivy.makeMessage_spec h.allocated text
  refine ⟨r, hr, ?_, happended.contains.holds, hallocated, ?_⟩
  · obtain ⟨block, hblock, -⟩ := happended.contains
    have hsize : (allocBuffer (Ivy.makeMessage b text)).size = (Ivy.makeMessage b text).size := by
      rw [allocBuffer, if_neg (by omega)]
    rw [IvyBuffer.firstSize, if_neg hblock.not_empty, happended.size, hsize,
      size_makeMessage b h.allocated, h.contents, h.firstSize]
    omega
  · rw [hcontents, h.contents]

theorem agrees_empty {buffer : IvyBuffer} (hempty : buffer.Empty) : Agrees buffer emptyBuffer [] where
  firstSize := by
    rw [IvyBuffer.firstSize, if_pos hempty]
    rfl
  holds := .inl ⟨hempty, rfl⟩
  allocated _ := rfl
  contents := rfl

theorem Agrees.reset {buffer : IvyBuffer} {b : Ivy.IvyBuffer} {held : Text}
    (h : Agrees buffer b held) : Agrees { buffer with offset := 0 } b.reset [] where
  firstSize := by
    have hsize : (allocBuffer b.reset).size = (allocBuffer b).size := by
      unfold allocBuffer IvyBuffer.reset
      split_ifs <;> rfl
    rw [hsize, ← h.firstSize]
    rfl
  holds := h.holds.reset
  allocated := allocated_reset b
  contents := contents_reset b

/-! ### Sequences of calls -/

section
variable {buffer : IvyBuffer} {events : List Event}

theorem Call.run_eq (c : Call) (fuel : ℕ) (buffer : IvyBuffer) :
    c.run fuel buffer = makeMessage fuel c.alloc buffer c.text := by
  cases c <;> rfl

theorem sinceReset_reset (events : List Event) : sinceReset (events ++ [.reset]) = [] := by
  simp [sinceReset]

theorem sinceReset_call (events : List Event) (c : Call) :
    sinceReset (events ++ [.call c]) = sinceReset events ++ c.text := by
  simp [sinceReset]

/-- The allocations of all calls are successful, and between two resets there are fewer than
`2 ^ 31 - 1` bytes of text. -/
structure Fits (events : List Event) : Prop where
  succeeds : ∀ c, .call c ∈ events → c.alloc.Succeeds
  bytes : ∀ past, past <+: events → (sinceReset past).length < 2 ^ 31 - 1

theorem Fits.init {e : Event} (h : Fits (events ++ [e])) : Fits events where
  succeeds c hc := h.succeeds c (List.mem_append_left _ hc)
  bytes past hpast := h.bytes past (hpast.trans (List.prefix_append _ _))

def texts (events : List Event) : Text :=
  events.flatMap fun e => match e with
    | .reset => []
    | .call c => c.text

theorem length_sinceReset_le (events : List Event) :
    (sinceReset events).length ≤ (texts events).length := by
  induction events using List.reverseRecOn with
  | nil => exact le_refl 0
  | append_singleton events e ih =>
    cases e with
    | reset => simp [sinceReset_reset]
    | call c =>
      rw [sinceReset_call, texts, List.flatMap_append, ← texts]
      simpa using ih

/-- It is enough that all texts together have fewer bytes. -/
theorem fits_of_total (hsucceeds : ∀ c, .call c ∈ events → c.alloc.Succeeds)
    (hbytes : (texts events).length < 2 ^ 31 - 1) : Fits events where
  succeeds := hsucceeds
  bytes past hpast := by
    obtain ⟨rest, rfl⟩ := hpast
    have hle := length_sinceReset_le past
    rw [texts, List.flatMap_append, List.length_append, ← texts, ← texts] at hbytes
    omega

def stepContents (b : Ivy.IvyBuffer) : Event → Ivy.IvyBuffer
  | .reset => b.reset
  | .call c => Ivy.makeMessage b c.text

/-- All that is formatted since the last reset stands in the buffer. -/
theorem run_agrees (hempty : buffer.Empty) (h : Fits events) (fuel : ℕ) :
    ∃ b, Machine.run (step (fuel + 2)) buffer events = some b ∧
      Agrees b (events.foldl stepContents emptyBuffer) (sinceReset events) := by
  induction events using List.reverseRecOn with
  | nil => exact ⟨buffer, rfl, agrees_empty hempty⟩
  | append_singleton events e ih =>
    obtain ⟨b, hb, hagrees⟩ := ih h.init
    rw [Machine.run_concat, hb, Option.bind_some, List.foldl_append]
    cases e with
    | reset =>
      rw [sinceReset_reset]
      exact ⟨_, rfl, hagrees.reset⟩
    | call c =>
      have hlen := h.bytes _ (List.prefix_refl _)
      rw [sinceReset_call] at hlen ⊢
      obtain ⟨r, hr, hnext⟩ := makeMessage_agrees hagrees (h.succeeds c (by simp)) hlen fuel
      refine ⟨r.buffer, ?_, hnext⟩
      rw [step, c.run_eq, hr, Option.map_some]

/-- Every call on a buffer that was empty before ends after at most two attempts, returns the
length of its text and leaves all texts since the last reset, with a terminator. -/
theorem messages_append (hempty : buffer.Empty) {c : Call} (h : Fits (events ++ [.call c]))
    (fuel : ℕ) (hfuel : 2 ≤ fuel) :
    ∃ b r, Machine.run (step fuel) buffer events = some b ∧ c.run fuel b = some r ∧
      r.n = c.text.length ∧ r.attempts ≤ 2 ∧
      Contains r.buffer (sinceReset (events ++ [.call c])) := by
  obtain ⟨fuel, rfl⟩ : ∃ k, fuel = k + 2 := ⟨fuel - 2, by omega⟩
  obtain ⟨b, hb, hagrees⟩ := run_agrees hempty h.init fuel
  have hlen := h.bytes _ (List.prefix_refl _)
  rw [sinceReset_call] at hlen ⊢
  obtain ⟨r, hr, happended⟩ := makeMessage_spec hagrees.holds (h.succeeds c (by simp)) hlen fuel
  exact ⟨b, r, hb, (c.run_eq _ b).trans hr, happended.n, happended.attempts, happended.contains⟩

end

/-- An allocator that stores a letter in every new byte. -/
def filling : Allocator where
  malloc n := some (List.replicate n 120)
  realloc old n := some (old.take n ++ List.replicate (n - old.length) 120)
  length_malloc n block hblock := by
    obtain rfl := Option.some.inj hblock
    exact List.length_replicate
  length_realloc old n block hblock := by
    obtain rfl := Option.some.inj hblock
    rw [List.length_append, List.length_take, List.length_replicate]
    omega
  take_realloc old n block hblock := by
    obtain rfl := Option.some.inj hblock
    rw [List.take_append, List.take_take, List.length_take, List.take_replicate]
    by_cases hle : n ≤ old.length
    · simp [hle]
    · have hle := Nat.le_of_not_le hle
      simp [hle, List.take_of_length_le hle]

theorem succeeds_filling : filling.Succeeds := ⟨fun _ => rfl, fun _ _ => rfl⟩

def long : Text := List.replicate 4095 97

/-- A text, a reset, one that fits and one that does not fit behind it. -/
theorem messages_append_example :
    ∃ b r, Machine.run (step 2) ⟨none, 0, 7⟩ [.call (.make_message filling (ascii "old")), .reset,
        .call (.make_message_var filling long)] = some b ∧
      (Call.make_message filling (ascii "new")).run 2 b = some r ∧ r.n = 3 ∧ r.attempts ≤ 2 ∧
      Contains r.buffer (long ++ ascii "new") := by
  have hlong : long.length = 4095 := List.length_replicate
  have hfits : Fits ([.call (.make_message filling (ascii "old")), .reset,
      .call (.make_message_var filling long)] ++ [.call (.make_message filling (ascii "new"))]) := by
    apply fits_of_total
    · simp [Call.alloc, succeeds_filling]
    · simp only [texts, List.cons_append, List.nil_append, List.flatMap_cons, List.flatMap_nil,
        Call.text, List.length_append, hlong]
      decide
  exact messages_append (.inl rfl) hfits 2 (le_refl 2)

end Ivy.Appending

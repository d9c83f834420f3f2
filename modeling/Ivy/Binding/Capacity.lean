import Ivy.Binding.Intervals
import Ivy.Lib.Machine

/-! The static buffers of `IvyBindMsg` and `IvyChangeMsg` over runs of calls. -/
namespace Ivy.Binding
open Ivy.Interval

inductive Binder
  | ivyBindMsg
  | ivyChangeMsg
  deriving DecidableEq

abbrev Buffers := Binder → StaticBuffer

def returned {α : Type} : Outcome α → Option α
  | .returns a => some a
  | .fails _ | .undefined => none

/-- A call with the text that its format prints. -/
abbrev BindCall := Binder × CString

namespace Buffers

def initial : Buffers := fun _ => .initial

def step (regexpGen : ℤ → ℤ → Bool → CString) (uninit : ℕ → UInt8) (s : Buffers) (e : BindCall) :
    Option Buffers :=
  (returned (fillBuffer regexpGen uninit (s e.1) e.2)).map (Function.update s e.1)

end Buffers

/-- The block is as long as `size` says, and the offset lies in it. -/
structure StaticBuffer.InBlock (b : StaticBuffer) : Prop where
  block : b.size ≤ b.allocated
  offset : b.offset < b.size

/-- The buffers of the functions that were called are sound, and the others as at the start. -/
def Kept (past : List BindCall) (s : Buffers) : Prop :=
  ∀ f, if f ∈ past.map Prod.fst then (s f).InBlock else s f = .initial

/-- The intervals of the text are well formed, and their substitution fits the new block. -/
def Fits (regexpGen : ℤ → ℤ → Bool → CString) (text : CString) : Prop :=
  find intervalStart text.bytes ≠ none →
    ∃ dst, substituteLoop regexpGen (text.bytes.length + 1) [] text.bytes = .returns dst

def StaticBuffer.room (b : StaticBuffer) : ℕ := if b.size = 0 then ivyBufferSize else b.size

/-- The text has no interval, or it and the recorded size are within the new block's length. -/
def Small (s : Buffers) (e : BindCall) : Prop :=
  (e.2.bytes.length < (s e.1).room ∨ e.2.bytes.length + 1 < 2 ^ 31) ∧
    (find intervalStart e.2.bytes ≠ none →
      (s e.1).room ≤ dstSize ∧ e.2.bytes.length + 1 ≤ dstSize)

instance (s : Buffers) (e : BindCall) : Decidable (Small s e) := inferInstanceAs (Decidable (_ ∧ _))

/-! ### One call -/

theorem allocBuffer_reset (b : StaticBuffer) : (allocBuffer b.reset).size = b.room ∧
    (allocBuffer b.reset).offset = 0 := by
  unfold allocBuffer StaticBuffer.room
  split_ifs with h h' h'
  · exact ⟨rfl, rfl⟩
  · exact absurd h h'
  · exact absurd h' h
  · exact ⟨rfl, rfl⟩

theorem room_pos (b : StaticBuffer) : 0 < b.room := by
  unfold StaticBuffer.room ivyBufferSize
  split_ifs <;> omega

theorem makeMessage_reset (b : StaticBuffer) (text : CString) :
    let m := Ivy.makeMessage b.reset text.bytes
    m.size = max b.room (text.bytes.length + 1) ∧ m.offset = text.bytes.length ∧
      Block.read m.data 0 text.bytes.length = text.bytes ∧ m.data text.bytes.length = 0 := by
  obtain ⟨hsize, hoffset⟩ := allocBuffer_reset b
  obtain ⟨hcontents, -, hend, -⟩ := makeMessage_spec (allocated_reset b.toIvyBuffer) text.bytes
  have hlength : (Ivy.makeMessage b.reset text.bytes).offset = text.bytes.length := by
    have h := congrArg List.length hcontents
    simpa [IvyBuffer.contents, IvyBuffer.reset] using h
  rw [IvyBuffer.contents, hlength, contents_reset, List.nil_append] at hcontents
  rw [hlength] at hend
  refine ⟨?_, hlength, hcontents, hend⟩
  simp only [Ivy.makeMessage, hsize, hoffset, Nat.sub_zero, Nat.zero_add]
  split_ifs <;> dsimp only <;> omega

/-- The room that `make_message` finds in a sound buffer is there. -/
theorem room_le {b : StaticBuffer} (h : b = .initial ∨ b.InBlock) :
    b.room ≤ if b.size = 0 then ivyBufferSize else b.allocated := by
  unfold StaticBuffer.room
  split_ifs with hsize
  · exact Nat.le_refl _
  · rcases h with h | h
    · exact absurd (by rw [h]; rfl) hsize
    · exact h.block

/-- `make_message` is defined on a sound buffer, unless the new size overflows. -/
theorem makeMessage_undefined {b : StaticBuffer} {text : CString}
    (h : ¬ (text.bytes.length < b.room ∨ text.bytes.length + 1 < 2 ^ 31)) :
    StaticBuffer.makeMessage ⟨b.reset, b.allocated⟩ text = .undefined := by
  obtain ⟨hsize, hoffset⟩ := allocBuffer_reset b
  rw [not_or] at h
  simp only [StaticBuffer.makeMessage, hsize, hoffset, Nat.sub_zero, Nat.zero_add]
  split_ifs <;> first | rfl | omega

theorem makeMessage_sound {b : StaticBuffer} (h : b = .initial ∨ b.InBlock) {text : CString}
    (hint : text.bytes.length < b.room ∨ text.bytes.length + 1 < 2 ^ 31) :
    ∃ m, StaticBuffer.makeMessage ⟨b.reset, b.allocated⟩ text = .returns m ∧ m.InBlock ∧
      m.Holds text.bytes ∧ m.size = max b.room (text.bytes.length + 1) ∧
      m.offset = text.bytes.length := by
  obtain ⟨hsize, hoffset⟩ := allocBuffer_reset b
  obtain ⟨hmsize, hmoffset, hread, hend⟩ := makeMessage_reset b text
  have hroom := room_le h
  have hpos := room_pos b
  have hsame : b.reset.size = b.size := rfl
  have hinside : ¬ (b.room ≠ 0 ∧ (if b.size = 0 then ivyBufferSize else b.allocated) <
      min text.bytes.length (b.room - 1) + 1) := by omega
  simp only [StaticBuffer.makeMessage, hsize, hoffset, Nat.sub_zero, Nat.zero_add, hsame,
    if_neg hinside]
  by_cases hfits : text.bytes.length < b.room
  · rw [if_pos hfits]
    have hmax : max b.room (text.bytes.length + 1) = b.room := by omega
    refine ⟨_, rfl, ⟨?_, ?_⟩, ⟨Nat.lt_of_lt_of_le hfits hroom, hread, hend⟩, hmsize, hmoffset⟩
    · show (Ivy.makeMessage b.reset text.bytes).size ≤ _
      rw [hmsize, hmax]
      exact hroom
    · show (Ivy.makeMessage b.reset text.bytes).offset < (Ivy.makeMessage b.reset text.bytes).size
      omega
  · rw [if_neg hfits, if_neg (by omega)]
    have hmax : max b.room (text.bytes.length + 1) = text.bytes.length + 1 := by omega
    refine ⟨_, rfl, ⟨?_, ?_⟩, ⟨Nat.lt_succ_self _, hread, hend⟩, hmsize, hmoffset⟩
    · show (Ivy.makeMessage b.reset text.bytes).size ≤ _
      rw [hmsize, hmax]
    · show (Ivy.makeMessage b.reset text.bytes).offset < (Ivy.makeMessage b.reset text.bytes).size
      omega

section
variable {regexpGen : ℤ → ℤ → Bool → CString}

theorem substituteInterval_plain (uninit : ℕ → UInt8) {m : StaticBuffer} {text : CString}
    (hplain : find intervalStart text.bytes = none) (hholds : m.Holds text.bytes) :
    substituteInterval regexpGen uninit m = .returns m := by
  rw [substituteInterval, hholds.text_eq text.noZero, hplain]

theorem substituteInterval_block (uninit : ℕ → UInt8) {m : StaticBuffer} {text : CString}
    (hfits : Fits regexpGen text) (hinterval : find intervalStart text.bytes ≠ none)
    (hholds : m.Holds text.bytes) : ∃ data, substituteInterval regexpGen uninit m =
      .returns ⟨{ m.toIvyBuffer with data := data }, dstSize⟩ := by
  obtain ⟨pos, hfind⟩ := Option.ne_none_iff_exists'.mp hinterval
  obtain ⟨dst, hdst⟩ := hfits hinterval
  refine ⟨Block.write uninit 0 (dst ++ [0]), ?_⟩
  rw [substituteInterval, hholds.text_eq text.noZero, hfind]
  dsimp only
  rw [hdst]
  rfl

theorem substituteInterval_inBlock_iff (uninit : ℕ → UInt8) {m : StaticBuffer} {text : CString}
    (hfits : Fits regexpGen text) (hm : m.InBlock) (hholds : m.Holds text.bytes) :
    (∃ t, substituteInterval regexpGen uninit m = .returns t ∧ t.InBlock) ↔
      (find intervalStart text.bytes ≠ none → m.size ≤ dstSize) := by
  by_cases hplain : find intervalStart text.bytes = none
  · exact iff_of_true ⟨m, substituteInterval_plain uninit hplain hholds, hm⟩ fun h => absurd hplain h
  · obtain ⟨data, hreturns⟩ := substituteInterval_block uninit hfits hplain hholds
    constructor
    · intro ⟨t, ht, hblock⟩ _
      rw [hreturns, Outcome.returns.injEq] at ht
      rw [← ht] at hblock
      exact hblock.block
    · exact fun h => ⟨_, hreturns, h hplain, hm.offset⟩

/-- A call leaves its buffer sound exactly if the text is small for it. -/
theorem fillBuffer_inBlock_iff (uninit : ℕ → UInt8) {b : StaticBuffer} (h : b = .initial ∨ b.InBlock)
    {text : CString} (hfits : Fits regexpGen text) :
    (∃ t, fillBuffer regexpGen uninit b text = .returns t ∧ t.InBlock) ↔
      (text.bytes.length < b.room ∨ text.bytes.length + 1 < 2 ^ 31) ∧
        (find intervalStart text.bytes ≠ none →
          b.room ≤ dstSize ∧ text.bytes.length + 1 ≤ dstSize) := by
  by_cases hint : text.bytes.length < b.room ∨ text.bytes.length + 1 < 2 ^ 31
  · obtain ⟨m, hm, hblock, hholds, hsize, -⟩ := makeMessage_sound h hint
    rw [fillBuffer, hm, Outcome.returns_bind, substituteInterval_inBlock_iff uninit hfits hblock hholds,
      hsize, max_le_iff]
    exact (and_iff_right hint).symm
  · rw [fillBuffer, makeMessage_undefined hint]
    refine iff_of_false (fun hexists => ?_) fun h => hint h.1
    obtain ⟨t, ht, -⟩ := hexists
    rw [Outcome.undefined_bind] at ht
    exact absurd ht (by simp)

end

/-! ### Runs -/

theorem kept_initial : Kept [] Buffers.initial := by
  intro f
  rw [if_neg (by simp)]
  rfl

theorem Kept.sound {past : List BindCall} {s : Buffers} (h : Kept past s) (f : Binder) :
    s f = .initial ∨ (s f).InBlock := by
  have hf := h f
  split_ifs at hf
  · exact .inr hf
  · exact .inl hf

theorem kept_update_iff {past : List BindCall} {s : Buffers} (h : Kept past s) (f : Binder)
    (text : CString) (b : StaticBuffer) :
    Kept (past ++ [(f, text)]) (Function.update s f b) ↔ b.InBlock := by
  constructor
  · intro hkept
    have hf := hkept f
    rwa [if_pos (by simp), Function.update_self] at hf
  · intro hb g
    by_cases hg : g = f
    · rw [if_pos (by simp [hg]), hg, Function.update_self]
      exact hb
    · rw [Function.update_of_ne hg]
      have hmem : g ∈ (past ++ [(f, text)]).map Prod.fst ↔ g ∈ past.map Prod.fst := by simp [hg]
      simp only [hmem]
      exact h g

theorem kept_step_iff {regexpGen : ℤ → ℤ → Bool → CString} {uninit : ℕ → UInt8} {past : List BindCall}
    {s : Buffers} {e : BindCall} (h : Kept past s) (hfits : Fits regexpGen e.2) :
    (∃ t, Buffers.step regexpGen uninit s e = some t ∧ Kept (past ++ [e]) t) ↔ Small s e := by
  rw [Small, ← fillBuffer_inBlock_iff uninit (h.sound e.1) hfits]
  constructor
  · intro ⟨t, ht, hkept⟩
    obtain ⟨b, hb, rfl⟩ := Option.map_eq_some_iff.mp ht
    refine ⟨b, ?_, (kept_update_iff h e.1 e.2 b).mp hkept⟩
    cases hfill : fillBuffer regexpGen uninit (s e.1) e.2 with
    | returns b' => rw [hfill] at hb; exact congrArg _ (Option.some.inj hb)
    | fails err => rw [hfill] at hb; exact absurd hb (by simp [returned])
    | undefined => rw [hfill] at hb; exact absurd hb (by simp [returned])
  · intro ⟨b, hb, hblock⟩
    refine ⟨Function.update s e.1 b, ?_, (kept_update_iff h e.1 e.2 b).mpr hblock⟩
    rw [Buffers.step, hb]
    rfl

/-- The buffers are sound after every call of a run exactly if each text is small for the buffer that
it finds. -/
theorem buffers_kept (regexpGen : ℤ → ℤ → Bool → CString) (uninit : ℕ → UInt8)
    (calls : List BindCall) (hfits : ∀ e ∈ calls, Fits regexpGen e.2) :
    Machine.Along (Buffers.step regexpGen uninit) Kept [] Buffers.initial calls ↔
      Machine.Guarded (Buffers.step regexpGen uninit) Small Buffers.initial calls :=
  Machine.along_iff_guarded (P := fun _ e => Fits regexpGen e.2) (fun _ _ _ => kept_step_iff) kept_initial
    (Machine.guarded_of_forall fun _ => hfits)

def fiveText : CString := ⟨ascii "(?I5#5)", by decide⟩

theorem fits_five : Fits (fun _ _ _ => fiveRegexp) fiveText := fun _ => ⟨_, rfl⟩

theorem buffers_kept_example :
    Machine.Along (Buffers.step (fun _ _ _ => fiveRegexp) fun _ => 0) Kept [] Buffers.initial
      [(.ivyBindMsg, fiveText), (.ivyChangeMsg, ⟨ascii "x", by decide⟩)] := by
  have hplain : Fits (fun _ _ _ => fiveRegexp) ⟨ascii "x", by decide⟩ :=
    fun h => absurd (by decide) h
  refine (buffers_kept (fun _ _ _ => fiveRegexp) (fun _ => 0) _ ?_).mpr (by decide)
  simpa using ⟨fits_five, hplain⟩

def longText : CString where
  bytes := List.replicate 9000 97
  noZero h := absurd (List.eq_of_mem_replicate h) (by decide)

/-- A long text, an interval and the long text again: the third print goes past the block. -/
theorem buffer_outgrows_block :
    let regexpGen : ℤ → ℤ → Bool → CString := fun _ _ _ => fiveRegexp
    Fits regexpGen longText ∧ Fits regexpGen fiveText ∧
      ∃ b₁ b₂, fillBuffer regexpGen (fun _ => 0) .initial longText = .returns b₁ ∧
        fillBuffer regexpGen (fun _ => 0) b₁ fiveText = .returns b₂ ∧
        b₂.size = 9001 ∧ b₂.allocated = 8192 ∧
        fillBuffer regexpGen (fun _ => 0) b₂ longText = .undefined := by
  intro regexpGen
  have hplain : find intervalStart longText.bytes = none := find_none (plain_replicate 9000)
  have hlength : longText.bytes.length = 9000 := List.length_replicate
  refine ⟨fun h => absurd hplain h, fits_five, ?_⟩
  have hlong : longText.bytes.length < StaticBuffer.initial.room ∨ longText.bytes.length + 1 < 2 ^ 31 := by
    rw [hlength]
    omega
  have hshort (room : ℕ) : fiveText.bytes.length < room ∨ fiveText.bytes.length + 1 < 2 ^ 31 :=
    .inr (by decide)
  obtain ⟨b₁, hb₁, hblock, hholds, hsize, -⟩ := makeMessage_sound (.inl rfl) hlong
  obtain ⟨m, hm, hblockm, hholdsm, hsizem, -⟩ := makeMessage_sound (.inr hblock) (hshort _)
  obtain ⟨data, hdata⟩ := substituteInterval_block (fun _ => 0) fits_five (by decide) hholdsm
  have hinitial : StaticBuffer.initial.room = 4096 := rfl
  have hsize₁ : b₁.size = 9001 := by
    rw [hsize, hlength, hinitial]
    rfl
  have hroom₁ : b₁.room = 9001 := by
    rw [StaticBuffer.room, hsize₁]
    rfl
  have hsize₂ : m.size = 9001 := by
    rw [hsizem, hroom₁]
    rfl
  refine ⟨b₁, ⟨{ m.toIvyBuffer with data := data }, dstSize⟩, ?_, ?_, hsize₂, rfl, ?_⟩
  · rw [fillBuffer, hb₁, Outcome.returns_bind, substituteInterval_plain _ hplain hholds]
  · rw [fillBuffer, hm, Outcome.returns_bind, hdata]
  · let b₂ : StaticBuffer := ⟨{ m.toIvyBuffer with data := data }, dstSize⟩
    have hroom₂ : b₂.room = 9001 := by
      rw [StaticBuffer.room, show b₂.size = 9001 from hsize₂]
      rfl
    have hpast : StaticBuffer.makeMessage ⟨b₂.reset, b₂.allocated⟩ longText = .undefined := by
      obtain ⟨hsize, hoffset⟩ := allocBuffer_reset b₂
      have hne : b₂.reset.size ≠ 0 := by
        show m.size ≠ 0
        omega
      rw [StaticBuffer.makeMessage, if_neg hne, hsize, hoffset, hroom₂, hlength]
      have hpast : 9001 - 0 ≠ 0 ∧ dstSize < 0 + min 9000 (9001 - 0 - 1) + 1 := by decide
      exact if_pos hpast
    show fillBuffer regexpGen _ b₂ longText = _
    rw [fillBuffer, hpast]
    rfl

end Ivy.Binding

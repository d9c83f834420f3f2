import Ivy.Protocol.Frame
import Ivy.Socket.Stream

/-! Msg frames go out in two sends. The frame stays whole exactly when the two
sends meet the same fate; otherwise the header or the payload travels alone. -/
namespace Ivy.Socket
open Fifo

/-- The bytes that a direct `send()` leaves over, if it does not fail. -/
def left (n : ℕ) : SendResult → Option ℕ
  | .accepted k => some (n - k)
  | .wouldBlock => some n
  | .interrupted => none
  | .failed => none

theorem left_le {n k : ℕ} {result : SendResult} (h : left n result = some k) : k ≤ n := by
  cases result <;> simp [left] at h <;> omega

section Direct
variable {s : Sock} (h : s.client.ifb = none) {buffer : List UInt8} {result : SendResult} {k : ℕ}
include h

theorem emitted_failed (hk : left buffer.length result = none) : emitted s buffer result = [] := by
  cases result <;> simp [left] at hk <;> simp [emitted, h]

theorem emitted_left (hk : left buffer.length result = some k) :
    emitted s buffer result =
      overflow (buffer.take (buffer.length - k)) (buffer.drop (buffer.length - k)) := by
  cases result with
  | accepted n =>
    obtain rfl : buffer.length - n = k := by simpa [left] using hk
    have hmin : buffer.length - (buffer.length - n) = min n buffer.length := by omega
    rw [hmin, ← List.take_eq_take_min, ← List.drop_eq_drop_min]
    simp [emitted, h]
  | wouldBlock =>
    obtain rfl : buffer.length = k := by simpa [left] using hk
    simp [emitted, h]
  | interrupted => simp [left] at hk
  | failed => simp [left] at hk

theorem emitted_fits (hk : left buffer.length result = some k) (hfit : k < ivyFifoMaxAllocSize) :
    emitted s buffer result = buffer := by
  rw [emitted_left h hk, overflow, if_pos (by rw [List.length_drop]; omega), List.take_append_drop]

theorem emitted_torn (hk : left buffer.length result = some k) (hbig : ivyFifoMaxAllocSize ≤ k) :
    emitted s buffer result = buffer.take (buffer.length - k) := by
  have hle := left_le hk
  rw [emitted_left h hk, overflow, if_neg (by rw [List.length_drop]; omega), List.append_nil]

theorem ifb_direct (hne : buffer ≠ [])
    (hk : left buffer.length result = none ∨ left buffer.length result = some 0) :
    (bufferizedSocketSendRaw s buffer result).1.client.ifb = none := by
  unfold bufferizedSocketSendRaw
  rw [h]
  cases result with
  | accepted n =>
    have hn : buffer.length - n = 0 := by simpa [left] using hk
    dsimp only
    rw [if_pos (by omega)]
    exact h
  | wouldBlock => simp [left, hne] at hk
  | interrupted => exact h
  | failed => exact h

theorem ifb_congested (hk : left buffer.length result = some k) (hpos : 0 < k) :
    (bufferizedSocketSendRaw s buffer result).1.client.ifb =
      some (ivyFifoWrite ivyFifoNew (buffer.drop (buffer.length - k))) := by
  unfold bufferizedSocketSendRaw
  rw [h]
  cases result with
  | accepted n =>
    obtain rfl : buffer.length - n = k := by simpa [left] using hk
    have hmin : buffer.length - (buffer.length - n) = min n buffer.length := by omega
    dsimp only
    rw [if_neg (by omega), hmin]
    rfl
  | wouldBlock =>
    obtain rfl : buffer.length = k := by simpa [left] using hk
    rw [Nat.sub_self]
    rfl
  | interrupted => simp [left] at hk
  | failed => simp [left] at hk

end Direct

theorem admits_of_not_full {f : IvyFifoBuffer} (h : f.full = false) (n : ℕ) :
    Admits f n ↔ n + ivyFifoLength f < ivyFifoMaxAllocSize := by
  have hl := ivyFifoLength_lt_stop f
  have hs := f.stop_le
  unfold Admits
  split_ifs with hbig
  · exact Iff.rfl
  · unfold ivyFifoAvail ivyFifoSize at hbig
    exact ⟨fun _ => by omega, fun _ => h⟩

/-- A write right after an admitted one depends on the room left alone. -/
theorem admits_after {f : IvyFifoBuffer} {buf : List UInt8} (hbuf : buf.length ≤ intMax)
    (h : Admits f buf.length) (n : ℕ) :
    Admits (ivyFifoWrite f buf) n ↔ n + (ivyFifoLength f + buf.length) < ivyFifoMaxAllocSize := by
  obtain ⟨hc, hf⟩ := ivyFifoWrite_of_admits f buf hbuf h
  rw [admits_of_not_full hf, ← length_contents, hc, List.length_append, length_contents]

/-- Both sends of a Msg frame meet the same fate, given the state before the first.
With a FIFO, either both are admitted or both refused; without one, either the header goes
out and what is left fits a new FIFO, or both sends put nothing on the stream. -/
def FrameAtomic (s : Sock) (id payload : List UInt8) (result₁ result₂ : SendResult) : Prop :=
  match s.client.ifb with
  | some ifb =>
    (Admits ifb id.length ∧
      payload.length + (ivyFifoLength ifb + id.length) < ivyFifoMaxAllocSize) ∨
    (¬ Admits ifb id.length ∧ ¬ Admits { ifb with full := true } payload.length)
  | none =>
    match left id.length result₁ with
    | none => ∀ k ∈ left payload.length result₂, payload.length = k ∧ ivyFifoMaxAllocSize ≤ k
    | some 0 => ∃ k ∈ left payload.length result₂, k < ivyFifoMaxAllocSize
    | some (k + 1) => payload.length + (k + 1) < ivyFifoMaxAllocSize

theorem emitted_length_le (s : Sock) (buffer : List UInt8) (result : SendResult) :
    (emitted s buffer result).length ≤ buffer.length := by
  cases hifb : s.client.ifb with
  | some ifb =>
    simp only [emitted, hifb]
    split_ifs <;> simp
  | none =>
    cases hk : left buffer.length result with
    | none => simp [emitted_failed hifb hk]
    | some k =>
      rcases Nat.lt_or_ge k ivyFifoMaxAllocSize with hfit | hbig
      · rw [emitted_fits hifb hk hfit]
      · simp [emitted_torn hifb hk hbig]

theorem emitted_some {s : Sock} {ifb : IvyFifoBuffer} (h : s.client.ifb = some ifb)
    (buffer : List UInt8) (result : SendResult) :
    emitted s buffer result = if Admits ifb buffer.length then buffer else [] := by
  simp [emitted, h]

theorem emitted_eq_self {s : Sock} {ifb : IvyFifoBuffer} (h : s.client.ifb = some ifb)
    {buffer : List UInt8} (hne : buffer ≠ []) (result : SendResult) :
    emitted s buffer result = buffer ↔ Admits ifb buffer.length := by
  simp [emitted_some h, Ne.symm hne]

theorem emitted_eq_nil {s : Sock} {ifb : IvyFifoBuffer} (h : s.client.ifb = some ifb)
    {buffer : List UInt8} (hne : buffer ≠ []) (result : SendResult) :
    emitted s buffer result = [] ↔ ¬ Admits ifb buffer.length := by
  simp [emitted_some h, hne]

/-- Without a FIFO, nothing goes out where the send fails or all of it waits and is too much. -/
theorem emitted_direct_eq_nil {s : Sock} (h : s.client.ifb = none) {buffer : List UInt8} (hne : buffer ≠ [])
    (result : SendResult) :
    emitted s buffer result = [] ↔
      ∀ k ∈ left buffer.length result, buffer.length = k ∧ ivyFifoMaxAllocSize ≤ k := by
  cases hk : left buffer.length result with
  | none => simp [emitted_failed h hk]
  | some k =>
    have hle := left_le hk
    simp only [Option.mem_def, Option.some.injEq, forall_eq']
    rcases Nat.lt_or_ge k ivyFifoMaxAllocSize with hfit | hbig
    · have hsent := emitted_fits h hk hfit
      rw [hsent]
      constructor
      · exact fun hnil => absurd hnil hne
      · omega
    · rw [emitted_torn h hk hbig, List.take_eq_nil_iff]
      simp only [hne, or_false]
      omega

/-- Without a FIFO, all goes out where what waits fits a new one. -/
theorem emitted_direct_eq_self {s : Sock} (h : s.client.ifb = none) {buffer : List UInt8} (hne : buffer ≠ [])
    (result : SendResult) :
    emitted s buffer result = buffer ↔ ∃ k ∈ left buffer.length result, k < ivyFifoMaxAllocSize := by
  cases hk : left buffer.length result with
  | none => simp [emitted_failed h hk, Ne.symm hne]
  | some k =>
    have hle := left_le hk
    have hpos : 0 < ivyFifoMaxAllocSize := by decide
    simp only [Option.mem_def, Option.some.injEq, exists_eq_left']
    rcases Nat.lt_or_ge k ivyFifoMaxAllocSize with hfit | hbig
    · simp [emitted_fits h hk hfit, hfit]
    · rw [emitted_torn h hk hbig, List.take_eq_self_iff]
      omega

theorem ifb_some {s : Sock} {ifb : IvyFifoBuffer} (h : s.client.ifb = some ifb)
    (buffer : List UInt8) (result : SendResult) :
    (bufferizedSocketSendRaw s buffer result).1.client.ifb = some (ivyFifoWrite ifb buffer) := by
  simp [bufferizedSocketSendRaw, h]

section TwoSends
variable (s : Sock) {id payload : List UInt8} (result₁ result₂ : SendResult)

def emittedTwice (id payload : List UInt8) : List UInt8 :=
  emitted s id result₁ ++ emitted (bufferizedSocketSendRaw s id result₁).1 payload result₂

theorem socketSendRawWithId_stream (hidlt : id.length ≤ intMax) (hlen : payload.length ≤ intMax) :
    (socketSendRawWithId s id payload result₁ result₂).1.stream =
      s.stream ++ emittedTwice s result₁ result₂ id payload := by
  rw [socketSendRawWithId, bufferizedSocketSendRaw_stream _ _ hlen,
    bufferizedSocketSendRaw_stream _ _ hidlt, List.append_assoc]
  rfl

variable (hid : id ≠ [])
include hid

private theorem whole_of_sent {sent : List UInt8} :
    (id ++ sent = id ++ payload ∨ id ++ sent = []) ↔ sent = payload := by
  simp [hid]

private theorem whole_of_missing {sent : List UInt8} (hle : sent.length ≤ payload.length) :
    ([] ++ sent = id ++ payload ∨ [] ++ sent = []) ↔ sent = [] := by
  constructor
  · rintro (h | h)
    · have hlen := congrArg List.length h
      have hpos := List.length_pos_iff.mpr hid
      simp only [List.nil_append, List.length_append] at hlen
      omega
    · exact h
  · exact .inr

/-- With a FIFO, both sends depend on the room that is left there. -/
theorem emittedTwice_iff_of_some {ifb : IvyFifoBuffer} (hifb : s.client.ifb = some ifb)
    (hpayload : payload ≠ []) (hidmax : id.length ≤ intMax) :
    (emittedTwice s result₁ result₂ id payload = id ++ payload ∨
      emittedTwice s result₁ result₂ id payload = []) ↔
      FrameAtomic s id payload result₁ result₂ := by
  have hle := emitted_length_le (bufferizedSocketSendRaw s id result₁).1 payload result₂
  have hsnd := ifb_some hifb id result₁
  unfold emittedTwice FrameAtomic
  rw [hifb, emitted_some hifb]
  by_cases hadm : Admits ifb id.length
  · rw [if_pos hadm, whole_of_sent hid, emitted_eq_self hsnd hpayload,
      admits_after hidmax hadm]
    simp [hadm]
  · rw [if_neg hadm, whole_of_missing hid hle, emitted_eq_nil hsnd hpayload,
      ivyFifoWrite_of_not_admits ifb id hidmax hadm]
    simp [hadm]

/-- Without a FIFO, the payload follows a header that was not sent, was sent or was sent in part. -/
theorem emittedTwice_iff_of_none (hifb : s.client.ifb = none) (hpayload : payload ≠ [])
    (hidlt : id.length < ivyFifoMaxAllocSize) :
    (emittedTwice s result₁ result₂ id payload = id ++ payload ∨
      emittedTwice s result₁ result₂ id payload = []) ↔
      FrameAtomic s id payload result₁ result₂ := by
  have hle := emitted_length_le (bufferizedSocketSendRaw s id result₁).1 payload result₂
  have hidmax : id.length ≤ intMax := hidlt.le.trans max_le_intMax
  unfold emittedTwice FrameAtomic
  rw [hifb]
  cases hk : left id.length result₁ with
  | none =>
    have hdir := ifb_direct hifb hid (.inl hk)
    rw [emitted_failed hifb hk, whole_of_missing hid hle]
    exact emitted_direct_eq_nil hdir hpayload result₂
  | some k =>
    have hkle := left_le hk
    rw [emitted_fits hifb hk (by omega), whole_of_sent hid]
    cases k with
    | zero =>
      have hdir := ifb_direct hifb hid (.inr hk)
      exact emitted_direct_eq_self hdir hpayload result₂
    | succ k =>
      have hcong := ifb_congested hifb hk (by omega)
      have hdrop : (id.drop (id.length - (k + 1))).length = k + 1 := by
        rw [List.length_drop]
        omega
      have hnew : Admits ivyFifoNew (id.drop (id.length - (k + 1))).length := by
        rw [hdrop, admits_ivyFifoNew]
        omega
      have hlen : ivyFifoLength ivyFifoNew = 0 := rfl
      rw [emitted_eq_self hcong hpayload, admits_after (by rw [hdrop]; omega) hnew, hdrop, hlen,
        Nat.zero_add]

/-- The frame is whole on the stream, or missing from it, exactly under `FrameAtomic`. -/
theorem emittedTwice_iff (hpayload : payload ≠ []) (hidlt : id.length < ivyFifoMaxAllocSize) :
    (emittedTwice s result₁ result₂ id payload = id ++ payload ∨
      emittedTwice s result₁ result₂ id payload = []) ↔
      FrameAtomic s id payload result₁ result₂ := by
  cases hifb : s.client.ifb with
  | some ifb =>
    exact emittedTwice_iff_of_some s result₁ result₂ hid hifb hpayload (hidlt.le.trans max_le_intMax)
  | none => exact emittedTwice_iff_of_none s result₁ result₂ hid hifb hpayload hidlt

end TwoSends

inductive MsgEvent
  | msg (id : ℤ) (args : Text) (result₁ result₂ : SendResult)
  | writable (results : List SendResult)

def msgFrames (events : List MsgEvent) : List (List UInt8) :=
  events.filterMap fun
    | .msg id args _ _ => some (msgFrame .msg id args)
    | .writable _ => none

def msgStep (s : Sock) : MsgEvent → Option Sock
  | .msg id args result₁ result₂ =>
    some (socketSendRawWithId s (bufferId .msg id) (args ++ [newline]) result₁ result₂).1
  | .writable results =>
    if s.client.fd ∈ s.wrdy_fds then (handleCongestionWrite s results).map Prod.fst else some s

/-- `id` and the length of the arguments are values of type `int`. -/
def MsgEvent.Typed : MsgEvent → Prop
  | .msg id args _ _ => -2 ^ 31 ≤ id ∧ id < 2 ^ 31 ∧ args.length < intMax
  | .writable _ => True

/-- The condition under which a step tears no frame. -/
def SameFate (s : Sock) : MsgEvent → Prop
  | .msg id args result₁ result₂ =>
    FrameAtomic s (bufferId .msg id) (args ++ [newline]) result₁ result₂
  | .writable _ => True

/-- After the run, the stream has grown by whole Msg frames only. -/
def MsgFramesWhole (s₀ : Sock) (events : List MsgEvent) : Prop :=
  ∃ s sent, Machine.run msgStep s₀ events = some s ∧ s.stream = s₀.stream ++ sent ∧
    KeptFrames (msgFrames events) sent

theorem bufferId_lt_max {id : ℤ} (hlo : -2 ^ 31 ≤ id) (hhi : id < 2 ^ 31) :
    (bufferId .msg id).length < ivyFifoMaxAllocSize := by
  have := length_bufferId_lt hlo hhi
  unfold ivyFifoMaxAllocSize
  omega

/-- One Msg frame is whole on the stream or missing from it exactly under `SameFate`. -/
theorem msg_step_iff (s : Sock) {id : ℤ} {args : Text} (result₁ result₂ : SendResult)
    (htyped : (MsgEvent.msg id args result₁ result₂).Typed) :
    (∃ t sent, msgStep s (.msg id args result₁ result₂) = some t ∧ t.stream = s.stream ++ sent ∧
      (sent = msgFrame .msg id args ∨ sent = [])) ↔ SameFate s (.msg id args result₁ result₂) := by
  obtain ⟨hlo, hhi, hargs⟩ := htyped
  have hidlt := bufferId_lt_max hlo hhi
  have hlen : (args ++ [newline]).length ≤ intMax := by
    rw [List.length_append]
    exact hargs
  have hiff := emittedTwice_iff s result₁ result₂ (bufferId_ne_nil .msg id)
    (List.append_ne_nil_of_right_ne_nil args (List.cons_ne_nil newline [])) hidlt
  have hstream := socketSendRawWithId_stream s result₁ result₂
    (hidlt.le.trans max_le_intMax) hlen
  rw [SameFate, ← hiff, msgFrame, List.append_assoc]
  constructor
  · rintro ⟨t, sent, ht, hsent, hwhole⟩
    obtain rfl := Option.some.inj ht
    rw [hstream] at hsent
    rwa [List.append_cancel_left hsent]
  · exact fun h => ⟨_, _, rfl, hstream, h⟩

def MsgHistory (s₀ : Sock) (past : List MsgEvent) (s : Sock) : Prop :=
  s.Waits ∧ ∃ sent, s.stream = s₀.stream ++ sent ∧ KeptFrames (msgFrames past) sent

theorem msgStep_history {s₀ s : Sock} {past : List MsgEvent} {e : MsgEvent}
    (h : MsgHistory s₀ past s) (hguard : SameFate s e ∧ e.Typed) :
    ∃ t, msgStep s e = some t ∧ MsgHistory s₀ (past ++ [e]) t := by
  obtain ⟨hwaits, sent, hstream, hkept⟩ := h
  cases e with
  | msg id args result₁ result₂ =>
    obtain ⟨t, more, ht, hmore, hwhole⟩ := (msg_step_iff s _ _ hguard.2).mpr hguard.1
    refine ⟨t, ht, ?_, sent ++ more, by rw [hmore, hstream, List.append_assoc], ?_⟩
    · obtain rfl := Option.some.inj ht
      exact bufferizedSocketSendRaw_waits (bufferizedSocketSendRaw_waits hwaits _ _) _ _
    · simpa [msgFrames] using hkept.snoc hwhole
  | writable results =>
    have hframes : msgFrames (past ++ [.writable results]) = msgFrames past := by simp [msgFrames]
    unfold msgStep
    dsimp only
    split_ifs with hw
    · obtain ⟨t, b, ht, heq, htw⟩ := handleCongestionWrite_stream hwaits hw results
      exact ⟨t, by rw [ht]; rfl, htw, sent, heq.trans hstream, by rwa [hframes]⟩
    · exact ⟨s, rfl, hwaits, sent, hstream, by rwa [hframes]⟩

/-- Msg frames are all or nothing in every run whose steps meet `SameFate`. -/
theorem msg_frames_whole (s₀ : Sock) (hwaits : s₀.Waits) (events : List MsgEvent)
    (htyped : ∀ e ∈ events, e.Typed) (hfate : Machine.Guarded msgStep SameFate s₀ events) :
    MsgFramesWhole s₀ events := by
  have hguard := hfate.and_forall htyped
  have h₀ : MsgHistory s₀ [] s₀ :=
    ⟨hwaits, [], (List.append_nil _).symm, [], List.Sublist.refl _, rfl⟩
  obtain ⟨s, hrun, -, sent, hstream, hkept⟩ :=
    Machine.run_history h₀ (fun _ _ _ => msgStep_history) hguard
  exact ⟨s, sent, hrun, hstream, hkept⟩

theorem msg_frames_whole_example :
    MsgFramesWhole (connected 4) [.msg 7 [65, 3] (.accepted 4) (.accepted 1), .writable [.accepted 9]] :=
  msg_frames_whole _ (connected_waits 4) _ (by simp [MsgEvent.Typed, intMax])
    ⟨⟨2, rfl, by decide⟩, fun _ _ => ⟨trivial, fun _ _ => trivial⟩⟩

/-- The kernel takes the header and then fails: the header is left without its payload. -/
theorem msg_header_without_payload :
    ¬ MsgFramesWhole (connected 4) [.msg 0 [65, 3] (.accepted 4) .failed] := by
  rintro ⟨s, sent, hrun, hstream, kept, hsub, rfl⟩
  have hheader : s.stream = [50, 32, 48, 2] := by
    obtain rfl := Option.some.inj hrun
    rfl
  rw [hheader, connected_stream, List.nil_append] at hstream
  rcases List.sublist_singleton.mp hsub with rfl | rfl <;> revert hstream <;> decide

end Ivy.Socket

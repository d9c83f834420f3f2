import Ivy.Lib.Machine
import Ivy.Socket.Send

/-! The byte stream of a connection: what the kernel has accepted, then what waits in
the FIFO. Draining moves bytes across and changes nothing; a send appends. -/
namespace Ivy.Socket
open Fifo

def Sock.pending (s : Sock) : List UInt8 :=
  match s.client.ifb with
  | some ifb => ifb.contents
  | none => []

def Sock.stream (s : Sock) : List UInt8 := s.client.wire ++ s.pending

/-- A FIFO waits for a writable event, and only a FIFO does. -/
def Sock.Waits (s : Sock) : Prop := s.client.ifb.isSome ↔ s.client.fd ∈ s.wrdy_fds

@[simp] theorem connected_stream (fd : ℕ) : (connected fd).stream = [] := rfl

theorem connected_waits (fd : ℕ) : (connected fd).Waits := by simp [Sock.Waits, connected]

theorem admits_ivyFifoNew (n : ℕ) : Admits ivyFifoNew n ↔ n < ivyFifoMaxAllocSize := by
  unfold Admits
  split_ifs with h
  · exact Iff.rfl
  · have hlt : n < ivyFifoAllocSize := Nat.lt_of_not_ge h
    unfold ivyFifoAllocSize at hlt
    unfold ivyFifoMaxAllocSize
    exact ⟨fun _ => by omega, fun _ => rfl⟩

theorem ivyFifoWrite_contents (f : IvyFifoBuffer) (buf : List UInt8) (hbuf : buf.length ≤ intMax) :
    (ivyFifoWrite f buf).contents = f.contents ++ if Admits f buf.length then buf else [] := by
  split_ifs with h
  · exact (ivyFifoWrite_of_admits f buf hbuf h).1
  · rw [ivyFifoWrite_of_not_admits f buf hbuf h, contents_full, List.append_nil]

/-- What the direct path leaves for the FIFO, and what then reaches the stream. -/
def overflow (taken rest : List UInt8) : List UInt8 :=
  taken ++ if rest.length < ivyFifoMaxAllocSize then rest else []

/-- What a send adds to the stream, from the state before it. -/
def emitted (s : Sock) (buffer : List UInt8) (result : SendResult) : List UInt8 :=
  match s.client.ifb with
  | some ifb => if Admits ifb buffer.length then buffer else []
  | none =>
    match result with
    | .accepted n => overflow (buffer.take n) (buffer.drop n)
    | .wouldBlock => overflow [] buffer
    | .interrupted => []
    | .failed => []

theorem startCongestion_stream {s : Sock} (h : s.client.ifb = none) {rest : List UInt8}
    (hrest : rest.length ≤ intMax) :
    (startCongestion s rest).stream = s.stream ++ overflow [] rest := by
  have hnew : ivyFifoNew.contents = [] := ivyFifoInit_contents
  simp only [Sock.stream, Sock.pending, startCongestion, ivyChannelAddWritableEvent, h, overflow,
    ivyFifoWrite_contents _ _ hrest, admits_ivyFifoNew, hnew, List.append_nil, List.nil_append]

theorem transmit_stream {s : Sock} (h : s.client.ifb = none) (bytes : List UInt8) :
    (transmit s bytes).stream = s.stream ++ bytes := by
  simp [Sock.stream, Sock.pending, transmit, h]

theorem bufferizedSocketSendRaw_stream (s : Sock) {buffer : List UInt8} (result : SendResult)
    (hbuf : buffer.length ≤ intMax) :
    (bufferizedSocketSendRaw s buffer result).1.stream = s.stream ++ emitted s buffer result := by
  unfold bufferizedSocketSendRaw emitted
  cases hifb : s.client.ifb with
  | some ifb =>
    simp only [Sock.stream, Sock.pending, hifb, ivyFifoWrite_contents _ _ hbuf, List.append_assoc]
  | none =>
    cases result with
    | accepted n =>
      dsimp only
      split_ifs with hall
      · have hn : buffer.length ≤ n := by omega
        rw [transmit_stream hifb, List.take_of_length_le hn, List.drop_of_length_le hn]
        simp [overflow]
      · have hn : min n buffer.length = n := by omega
        rw [startCongestion_stream (by exact hifb) (by rw [List.length_drop]; omega),
          transmit_stream hifb, hn, List.append_assoc]
        rfl
    | wouldBlock => exact startCongestion_stream hifb hbuf
    | interrupted => exact (List.append_nil _).symm
    | failed => exact (List.append_nil _).symm

theorem startCongestion_waits (s : Sock) (rest : List UInt8) : (startCongestion s rest).Waits := by
  simp [Sock.Waits, startCongestion, ivyChannelAddWritableEvent]

theorem bufferizedSocketSendRaw_waits {s : Sock} (h : s.Waits) (buffer : List UInt8)
    (result : SendResult) : (bufferizedSocketSendRaw s buffer result).1.Waits := by
  unfold bufferizedSocketSendRaw
  cases hifb : s.client.ifb with
  | some ifb => simpa [Sock.Waits, hifb] using h
  | none =>
    cases result with
    | accepted n =>
      dsimp only
      split_ifs
      · exact h
      · exact startCongestion_waits _ _
    | wouldBlock => exact startCongestion_waits _ _
    | interrupted => exact h
    | failed => exact h

/-- A writable event finds a FIFO, leaves the stream as it is and waits again if bytes remain. -/
theorem handleCongestionWrite_stream {s : Sock} (h : s.Waits) (hw : s.client.fd ∈ s.wrdy_fds)
    (results : List SendResult) :
    ∃ t b, handleCongestionWrite s results = some (t, b) ∧ t.stream = s.stream ∧ t.Waits := by
  obtain ⟨ifb, hifb⟩ := Option.isSome_iff_exists.mp (h.mpr hw)
  have hc := ivyFifoSendSocket_correct ifb results
  have hstream : s.client.wire ++ (ivyFifoSendSocket ifb results).sent ++
      (ivyFifoSendSocket ifb results).fifo.contents = s.stream := by
    rw [Sock.stream, Sock.pending, hifb, List.append_assoc, ← hc.queue]
  unfold handleCongestionWrite
  rw [hifb]
  dsimp only
  cases hret : (ivyFifoSendSocket ifb results).ret with
  | none => exact ⟨_, _, rfl, hstream, by simpa [Sock.Waits, transmit] using hw⟩
  | some remaining =>
    dsimp only
    split_ifs with herror hzero
    · exact ⟨_, _, rfl, hstream, by simpa [Sock.Waits, socketClose, transmit] using hw⟩
    · -- nothing remains, so dropping the FIFO drops no byte
      have hlen := (hc.ret remaining hret).resolve_right herror
      have hnil : (ivyFifoSendSocket ifb results).fifo.contents = [] := by
        rw [← List.length_eq_zero_iff, length_contents]
        omega
      refine ⟨_, _, rfl, ?_, by simp [Sock.Waits, ivyChannelClearWritableEvent, transmit]⟩
      rw [← hstream, hnil]
      rfl
    · exact ⟨_, _, rfl, hstream, by simpa [Sock.Waits, transmit] using hw⟩

/-- A frame below the size limit is appended whole or not at all. -/
theorem emitted_whole (s : Sock) {frame : List UInt8} (result : SendResult)
    (h : frame.length < ivyFifoMaxAllocSize) :
    emitted s frame result = frame ∨ emitted s frame result = [] := by
  unfold emitted
  cases s.client.ifb with
  | some ifb =>
    dsimp only
    split_ifs
    · exact .inl rfl
    · exact .inr rfl
  | none =>
    cases result with
    | accepted n =>
      left
      dsimp only
      rw [overflow, if_pos (by rw [List.length_drop]; omega), List.take_append_drop]
    | wouldBlock => exact .inl (if_pos h)
    | interrupted => exact .inr rfl
    | failed => exact .inr rfl

theorem max_le_intMax : ivyFifoMaxAllocSize ≤ intMax := by decide

/-- The frames kept are some of those sent, in the order sent. -/
def KeptFrames (frames : List (List UInt8)) (stream : List UInt8) : Prop :=
  ∃ kept : List (List UInt8), kept.Sublist frames ∧ stream = kept.flatten

theorem KeptFrames.snoc {frames : List (List UInt8)} {stream frame sent : List UInt8}
    (h : KeptFrames frames stream) (hsent : sent = frame ∨ sent = []) :
    KeptFrames (frames ++ [frame]) (stream ++ sent) := by
  obtain ⟨kept, hsub, rfl⟩ := h
  rcases hsent with rfl | rfl
  · exact ⟨kept ++ [sent], hsub.append (.refl _), by simp⟩
  · exact ⟨kept, hsub.trans (List.sublist_append_left _ _), by simp⟩

section Raw

inductive RawEvent
  | send (frame : List UInt8) (result : SendResult)
  | writable (results : List SendResult)

def rawFrames (events : List RawEvent) : List (List UInt8) :=
  events.filterMap fun
    | .send frame _ => some frame
    | .writable _ => none

/-- `select` reports a connection as writable only if it waits for that. -/
def rawStep (s : Sock) : RawEvent → Option Sock
  | .send frame result => some (socketSendRaw s frame result).1
  | .writable results =>
    if s.client.fd ∈ s.wrdy_fds then (handleCongestionWrite s results).map Prod.fst else some s

def RawHistory (past : List RawEvent) (s : Sock) : Prop :=
  s.Waits ∧ KeptFrames (rawFrames past) s.stream

theorem rawStep_history {past : List RawEvent} {s : Sock} {e : RawEvent} (h : RawHistory past s)
    (hlt : ∀ frame result, e = .send frame result → frame.length < ivyFifoMaxAllocSize) :
    ∃ t, rawStep s e = some t ∧ RawHistory (past ++ [e]) t := by
  obtain ⟨hwaits, hkept⟩ := h
  cases e with
  | send frame result =>
    have hf := hlt frame result rfl
    refine ⟨_, rfl, bufferizedSocketSendRaw_waits hwaits _ _, ?_⟩
    rw [socketSendRaw, bufferizedSocketSendRaw_stream s result (hf.le.trans max_le_intMax)]
    simpa [rawFrames] using hkept.snoc (emitted_whole s result hf)
  | writable results =>
    have hframes : rawFrames (past ++ [.writable results]) = rawFrames past := by simp [rawFrames]
    unfold rawStep
    dsimp only
    split_ifs with hw
    · obtain ⟨t, b, ht, hstream, htw⟩ := handleCongestionWrite_stream hwaits hw results
      exact ⟨t, by rw [ht]; rfl, htw, by rwa [hframes, hstream]⟩
    · exact ⟨s, rfl, hwaits, by rwa [hframes]⟩

/-- Whatever `send()` does, the stream is made of whole frames in call order. -/
theorem stream_integrity (fd : ℕ) (events : List RawEvent)
    (hlen : ∀ frame result, .send frame result ∈ events → frame.length < ivyFifoMaxAllocSize) :
    ∃ s, Machine.run rawStep (connected fd) events = some s ∧
      KeptFrames (rawFrames events) s.stream := by
  have hguard : Machine.Guarded rawStep
      (fun _ e => ∀ frame result, e = .send frame result → frame.length < ivyFifoMaxAllocSize)
      (connected fd) events :=
    Machine.guarded_of_forall fun _ e he frame result heq => hlen frame result (heq ▸ he)
  have h₀ : RawHistory [] (connected fd) := ⟨connected_waits fd, [], List.Sublist.refl _, rfl⟩
  obtain ⟨s, hrun, -, hkept⟩ := Machine.run_history h₀ (fun _ _ _ => rawStep_history) hguard
  exact ⟨s, hrun, hkept⟩

theorem stream_integrity_example :
    ∃ s, Machine.run rawStep (connected 4)
        [.send [65, 66, 10] (.accepted 1), .send [67, 10] .failed, .writable [.accepted 2]] = some s ∧
      KeptFrames (rawFrames
        [.send [65, 66, 10] (.accepted 1), .send [67, 10] .failed, .writable [.accepted 2]])
        s.stream :=
  stream_integrity 4 _ (by
    simp only [List.mem_cons, RawEvent.send.injEq, reduceCtorEq, List.not_mem_nil, or_false]
    rintro frame result (⟨rfl, -⟩ | ⟨rfl, -⟩) <;> decide)

end Raw
end Ivy.Socket

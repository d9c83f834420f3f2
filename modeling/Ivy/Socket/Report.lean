import Ivy.Socket.Stream

/-! What a send tells its caller: it reports the change to congestion exactly when it makes
the FIFO. -/
namespace Ivy.Socket
open Fifo

/-- A step of one connection touches no other descriptor, and keeps FIFO and wake-up together. -/
structure Local (s t : Sock) : Prop where
  fd : t.client.fd = s.client.fd
  others : ∀ fd, fd ≠ s.client.fd → (fd ∈ t.wrdy_fds ↔ fd ∈ s.wrdy_fds)
  waits : s.Waits → t.Waits

theorem Local.refl (s : Sock) : Local s s := ⟨rfl, fun _ _ => Iff.rfl, id⟩

theorem Local.trans {s t u : Sock} (hst : Local s t) (htu : Local t u) : Local s u where
  fd := htu.fd.trans hst.fd
  others fd hfd := (htu.others fd (hst.fd ▸ hfd)).trans (hst.others fd hfd)
  waits hs := htu.waits (hst.waits hs)

/-- A send with its report. -/
structure Reports (s t : Sock) (state : SendState) : Prop extends Local s t where
  keeps : s.client.ifb.isSome → t.client.ifb.isSome
  change : state = .sendStateChangeToCongestion ↔ s.client.ifb.isNone ∧ t.client.ifb.isSome

theorem startCongestion_reports {s : Sock} (h : s.client.ifb = none) (rest : List UInt8) :
    Reports s (startCongestion s rest) .sendStateChangeToCongestion where
  fd := rfl
  others fd hfd := by simp [startCongestion, ivyChannelAddWritableEvent, hfd]
  waits _ := startCongestion_waits s rest
  keeps _ := rfl
  change := by simp [h, startCongestion, ivyChannelAddWritableEvent]

theorem bufferizedSocketSendRaw_reports (s : Sock) (buffer : List UInt8) (result : SendResult) :
    Reports s (bufferizedSocketSendRaw s buffer result).1
      (bufferizedSocketSendRaw s buffer result).2 := by
  unfold bufferizedSocketSendRaw
  cases hifb : s.client.ifb with
  | some ifb =>
    refine { fd := rfl, others := fun _ _ => Iff.rfl, waits := ?_, keeps := fun _ => rfl, change := ?_ }
    · intro h
      simpa [Sock.Waits, hifb] using h
    · dsimp only
      split_ifs <;> simp [hifb]
  | none =>
    have hfailed : Reports s s .sendError := { Local.refl s with keeps := id, change := by simp [hifb] }
    cases result with
    | accepted n =>
      dsimp only
      split_ifs with hall
      · exact { fd := rfl, others := fun _ _ => Iff.rfl, waits := id, keeps := id
                change := by simp [transmit, hifb] }
      · have hstart := startCongestion_reports (s := transmit s (buffer.take (min n buffer.length))) hifb
          (buffer.drop (min n buffer.length))
        exact { fd := hstart.fd, others := hstart.others, waits := hstart.waits
                keeps := hstart.keeps, change := hstart.change }
    | wouldBlock => exact startCongestion_reports hifb buffer
    | interrupted => exact hfailed
    | failed => exact hfailed

/-- Of two sends, the report is that of the one that made the FIFO. -/
theorem socketSendRawWithId_reports (s : Sock) (id buffer : List UInt8) (result₁ result₂ : SendResult) :
    Reports s (socketSendRawWithId s id buffer result₁ result₂).1
      (socketSendRawWithId s id buffer result₁ result₂).2 := by
  have h₁ := bufferizedSocketSendRaw_reports s id result₁
  have h₂ := bufferizedSocketSendRaw_reports (bufferizedSocketSendRaw s id result₁).1 buffer result₂
  refine { h₁.toLocal.trans h₂.toLocal with keeps := fun h => h₂.keeps (h₁.keeps h), change := ?_ }
  unfold socketSendRawWithId
  dsimp only
  split_ifs with hchange
  · obtain ⟨hnone, hsome⟩ := h₁.change.mp hchange
    exact ⟨fun _ => ⟨hnone, h₂.keeps hsome⟩, fun _ => hchange⟩
  · rw [h₂.change]
    have hkeeps := h₁.keeps
    have hstill := mt h₁.change.mpr hchange
    revert hkeeps hstill
    cases s.client.ifb <;> cases (bufferizedSocketSendRaw s id result₁).1.client.ifb <;> simp

theorem socketClose_local (s : Sock) : Local s (socketClose s) := ⟨rfl, fun _ _ => Iff.rfl, id⟩

/-- A writable event that finds a FIFO reports decongestion exactly when it drops the FIFO. -/
theorem handleCongestionWrite_reports {s : Sock} (h : s.client.ifb.isSome) (results : List SendResult) :
    ∃ t decongested, handleCongestionWrite s results = some (t, decongested) ∧
      Local s t ∧ (decongested = true ↔ t.client.ifb.isNone) := by
  obtain ⟨ifb, hifb⟩ := Option.isSome_iff_exists.mp h
  have hsent : Local s (transmit
      { s with client := { s.client with ifb := some (ivyFifoSendSocket ifb results).fifo } }
      (ivyFifoSendSocket ifb results).sent) :=
    ⟨rfl, fun _ _ => Iff.rfl, fun hw => by simpa [Sock.Waits, hifb, transmit] using hw⟩
  unfold handleCongestionWrite
  rw [hifb]
  dsimp only
  cases (ivyFifoSendSocket ifb results).ret with
  | none => exact ⟨_, _, rfl, hsent, by simp [transmit]⟩
  | some remaining =>
    dsimp only
    split_ifs
    · exact ⟨_, _, rfl, hsent.trans (socketClose_local _), by simp [socketClose, transmit]⟩
    · refine ⟨_, _, rfl, ⟨rfl, fun fd hfd => ?_, fun _ => ?_⟩, by simp⟩
      · simp [ivyChannelClearWritableEvent, transmit, hfd]
      · simp [Sock.Waits, ivyChannelClearWritableEvent, transmit]
    · exact ⟨_, _, rfl, hsent, by simp [transmit]⟩

end Ivy.Socket

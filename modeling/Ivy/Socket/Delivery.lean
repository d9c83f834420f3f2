import Ivy.Lib.Pipe
import Ivy.Lib.Simulation
import Ivy.Socket.Message

/-! One direction of a connection, from the calls of the sender to the lines of the receiver, is a pipe
of messages. -/
namespace Ivy.Socket
open Fifo

structure Connection where
  sender : Sock
  taken : ℕ
  receiver : Receiver

def newConnection (fd : ℕ) : Connection := ⟨connected fd, 0, newReceiver⟩

/-- `select` reports what it reports; `n` is how much `recvfrom` would take. -/
inductive ConnectionEvent
  | send (m : Message) (bufferArg : IvyBuffer) (result₁ result₂ : SendResult)
  | writable (results : List SendResult)
  | readable (n : ℕ)

def Connection.incoming (k : Connection) (n : ℕ) : List UInt8 :=
  (k.sender.client.wire.drop k.taken).take (min n (nbToRead k.receiver))

/-- The receiver reads only where there is something to read. A socket that a fatal `send()` closed is
deleted before the next `select`, so it drains no more. -/
def connectionStep (cb : Interpretation) (k : Connection) : ConnectionEvent → Option Connection
  | .send m bufferArg result₁ result₂ => some { k with sender := sendMessage k.sender bufferArg result₁ result₂ m }
  | .writable results =>
    if k.sender.client.fd ∈ k.sender.wrdy_fds ∧ k.sender.client.tobedeleted = false then
      (handleCongestionWrite k.sender results).map fun r => { k with sender := r.1 }
    else some k
  | .readable n =>
    if k.incoming n = [] then some k
    else some { k with
      taken := k.taken + (k.incoming n).length
      receiver := handleSocket cb k.receiver (.bytes (k.incoming n)) }

def pipeEvents (cb : Interpretation) (k : Connection) : ConnectionEvent → List (Pipe.Event Message)
  | .send m _ result₁ _ => [.send m (admits k.sender result₁ m)]
  | .writable _ => []
  | .readable n =>
    if k.incoming n = [] then []
    else
      let receiver := handleSocket cb k.receiver (.bytes (k.incoming n))
      [.deliver (receiver.delivered.length - k.receiver.delivered.length)]

/-- Messages are sendable, and go out whole. -/
def SendsWhole (k : Connection) : ConnectionEvent → Prop
  | .send m _ result₁ result₂ => m.Sendable ∧ SentWhole k.sender result₁ result₂ m
  | _ => True

structure Carries (k : Connection) (p : Pipe Message) : Prop where
  waits : k.sender.Waits
  stream : k.sender.stream = (p.all.map Message.frame).flatten
  taken : k.taken ≤ k.sender.client.wire.length
  fits : k.receiver.Fits
  lines : Lines newline (k.sender.client.wire.take k.taken) k.receiver.delivered k.receiver.held
  delivered : k.receiver.delivered = p.delivered.map Message.line
  sendable : ∀ m ∈ p.all, m.Sendable

section Steps
variable {cb : Interpretation} {k : Connection} {p : Pipe Message}

theorem carries_new (fd : ℕ) : Carries (newConnection fd) .empty where
  waits := connected_waits fd
  stream := rfl
  taken := Nat.zero_le _
  fits := newReceiver_reassembled.1
  lines := .of_not_mem List.not_mem_nil
  delivered := rfl
  sendable := by simp [Pipe.all, Pipe.empty]

/-- The sender goes on, and what was read stays as it is. -/
theorem Carries.sender (h : Carries k p) {q : Pipe Message} {s : Sock} (hwaits : s.Waits)
    (hwire : k.sender.client.wire <+: s.client.wire) (hstream : s.stream = (q.all.map Message.frame).flatten)
    (hdelivered : q.delivered = p.delivered) (hsendable : ∀ m ∈ q.all, m.Sendable) :
    Carries { k with sender := s } q where
  waits := hwaits
  stream := hstream
  taken := h.taken.trans hwire.length_le
  fits := h.fits
  lines := by
    obtain ⟨more, hmore⟩ := hwire
    change Lines newline (s.client.wire.take k.taken) _ _
    rw [← hmore, List.take_append_of_le_length h.taken]
    exact h.lines
  delivered := hdelivered ▸ h.delivered
  sendable := hsendable

theorem Carries.send (h : Carries k p) {m : Message} (bufferArg : IvyBuffer) {result₁ result₂ : SendResult}
    (hm : m.Sendable) (hwhole : SentWhole k.sender result₁ result₂ m) :
    ∃ q, Machine.run Pipe.step p [.send m (admits k.sender result₁ m)] = some q ∧
      Carries { k with sender := sendMessage k.sender bufferArg result₁ result₂ m } q := by
  have hstream := sendMessage_stream bufferArg hm hwhole
  cases hadmits : admits k.sender result₁ m with
  | false =>
    rw [hadmits, if_neg Bool.false_ne_true, List.append_nil, h.stream] at hstream
    exact ⟨p, rfl, h.sender (sendMessage_waits h.waits) sendMessage_wire hstream rfl h.sendable⟩
  | true =>
    rw [hadmits, if_pos rfl, h.stream] at hstream
    have hall : (⟨p.delivered, p.onTheWay ++ [m]⟩ : Pipe Message).all = p.all ++ [m] :=
      (List.append_assoc _ _ _).symm
    refine ⟨⟨p.delivered, p.onTheWay ++ [m]⟩, rfl,
      h.sender (sendMessage_waits h.waits) sendMessage_wire ?_ rfl fun m' hm' => ?_⟩
    · rw [hstream, hall, List.map_append, List.flatten_append]
      simp
    · rw [hall] at hm'
      rcases List.mem_append.mp hm' with hm' | hm'
      · exact h.sendable m' hm'
      · exact List.mem_singleton.mp hm' ▸ hm

theorem Carries.writable (h : Carries k p) (results : List SendResult) :
    ∃ t, connectionStep cb k (.writable results) = some t ∧ Carries t p := by
  unfold connectionStep
  dsimp only
  split_ifs with hw
  · obtain ⟨s, b, hs, hstream, hwaits⟩ := handleCongestionWrite_stream h.waits hw.1 results
    have hwire := handleCongestionWrite_wire hs
    refine ⟨{ k with sender := s }, by rw [hs]; rfl, ?_⟩
    exact h.sender hwaits hwire (hstream.trans h.stream) rfl h.sendable
  · exact ⟨k, rfl, h⟩

theorem Carries.next_lines (h : Carries k p) {n : ℕ} {ls : List Text} {tail : Text}
    (hlines : Lines newline (k.sender.client.wire.take n) (k.receiver.delivered ++ ls) tail) :
    ls = (p.onTheWay.take ls.length).map Message.line := by
  have hwhole := Message.lines_frames h.sendable
  have hsplit : (p.all.map Message.frame).flatten =
      k.sender.client.wire.take n ++ (k.sender.client.wire.drop n ++ k.sender.pending) := by
    rw [← h.stream, ← List.append_assoc, List.take_append_drop]
    rfl
  rw [hsplit] at hwhole
  have hprefix := hlines.isPrefix hwhole
  rw [h.delivered, Pipe.all, List.map_append, List.prefix_append_right_inj] at hprefix
  rw [List.map_take]
  exact List.prefix_iff_eq_take.mp hprefix

theorem Carries.readable (hcb : cb.WritesInside) (h : Carries k p) (n : ℕ) :
    ∃ t q, connectionStep cb k (.readable n) = some t ∧
      Machine.run Pipe.step p (pipeEvents cb k (.readable n)) = some q ∧ Carries t q := by
  unfold connectionStep pipeEvents
  dsimp only
  by_cases hnil : k.incoming n = []
  · rw [if_pos hnil, if_pos hnil]
    exact ⟨k, p, rfl, rfl, h⟩
  · rw [if_neg hnil, if_neg hnil]
    have hpos := List.length_pos_iff.mpr hnil
    have hroom : (k.incoming n).length ≤ nbToRead k.receiver := (List.length_take_le _ _).trans (min_le_right _ _)
    obtain ⟨hfits, ls, hdelivered, hlines⟩ := handleSocket_spec hcb h.fits hpos hroom
    have hread : k.sender.client.wire.take (k.taken + (k.incoming n).length) =
        k.sender.client.wire.take k.taken ++ k.incoming n := by
      have hincoming : k.incoming n <+: k.sender.client.wire.drop k.taken := List.take_prefix _ _
      rw [List.take_add, ← List.prefix_iff_eq_take.mp hincoming]
    have hall : Lines newline (k.sender.client.wire.take (k.taken + (k.incoming n).length))
        (k.receiver.delivered ++ ls) (handleSocket cb k.receiver (.bytes (k.incoming n))).held :=
      hread ▸ h.lines.append hlines
    have hnext := h.next_lines hall
    have hcount : (handleSocket cb k.receiver (.bytes (k.incoming n))).delivered.length -
        k.receiver.delivered.length = ls.length := by
      rw [hdelivered, List.length_append, Nat.add_sub_cancel_left]
    rw [hcount]
    refine ⟨_, _, rfl, rfl, h.waits, ?_, ?_, hfits, hdelivered ▸ hall, ?_, ?_⟩
    · rw [h.stream]
      unfold Pipe.all
      rw [List.append_assoc, List.take_append_drop]
    · have hlen := congrArg List.length hread
      rw [List.length_append, List.length_take, List.length_take] at hlen
      dsimp only
      omega
    · change _ = (p.delivered ++ p.onTheWay.take ls.length).map Message.line
      rw [hdelivered, h.delivered, List.map_append, ← hnext]
    · intro m hm
      apply h.sendable
      unfold Pipe.all at hm ⊢
      rwa [List.append_assoc, List.take_append_drop] at hm

/-- Each step of the connection is made of steps of the pipe. -/
theorem Carries.step (hcb : cb.WritesInside) (h : Carries k p) {e : ConnectionEvent} (he : SendsWhole k e) :
    ∃ t q, connectionStep cb k e = some t ∧ Machine.run Pipe.step p (pipeEvents cb k e) = some q ∧ Carries t q := by
  cases e with
  | send m bufferArg result₁ result₂ =>
    obtain ⟨q, hq, hcarries⟩ := h.send bufferArg he.1 he.2
    exact ⟨_, q, rfl, hq, hcarries⟩
  | writable results =>
    obtain ⟨t, ht, hcarries⟩ := h.writable results
    exact ⟨t, p, ht, rfl, hcarries⟩
  | readable n => exact h.readable hcb n

end Steps

section Progress
variable {cb : Interpretation} {k : Connection} {p : Pipe Message}

/-- A byte that `send()` takes leaves the queue, and is no error. -/
theorem sends_one {queue left : List UInt8} {calls : List (List UInt8 × ℕ)} {ret : Option ℕ}
    (h : Sends queue [.accepted 1] calls left ret) (hne : queue ≠ []) (hlen : queue.length < ivyFifoMaxAllocSize) :
    left.length < queue.length ∧ ret ≠ some ivyFifoSendError := by
  have hpos := List.length_pos_iff.mpr hne
  have hmax : ivyFifoMaxAllocSize < ivyFifoSendError := by decide
  cases h with
  | empty => exact absurd rfl hne
  | part =>
    rw [List.length_drop]
    exact ⟨by omega, fun herr => by have := Option.some.inj herr; omega⟩
  | whole hbuf _ _ hrest =>
    have hbufpos := List.length_pos_iff.mpr hbuf
    generalize hrestq : queue.drop _ = rest at hrest
    cases hrest with
    | empty => exact ⟨hpos, by decide⟩
    | waits =>
      rw [← hrestq, List.length_drop]
      exact ⟨by omega, (Option.some_ne_none _).symm⟩

/-- Where the kernel takes a byte, fewer wait and the socket stays open. -/
theorem handleCongestionWrite_one {s t : Sock} {b : Bool} (hpending : s.pending ≠ [])
    (h : handleCongestionWrite s [.accepted 1] = some (t, b)) :
    t.pending.length < s.pending.length ∧ t.client.tobedeleted = s.client.tobedeleted := by
  unfold handleCongestionWrite at h
  unfold Sock.pending at hpending ⊢
  cases hifb : s.client.ifb with
  | none =>
    rw [hifb] at hpending
    exact absurd rfl hpending
  | some ifb =>
    rw [hifb] at h hpending
    dsimp only at h hpending ⊢
    have hlen : ifb.contents.length < ivyFifoMaxAllocSize := by
      rw [length_contents]
      exact (ivyFifoLength_lt_stop ifb).trans_le ifb.stop_le
    obtain ⟨hless, hret⟩ := sends_one (ivyFifoSendSocket_sends ifb [.accepted 1]) hpending hlen
    split at h
    · obtain ⟨rfl, -⟩ := Prod.mk.inj (Option.some.inj h)
      exact ⟨hless, rfl⟩
    · next heq =>
      rw [heq] at hret
      split_ifs at h with herror
      · exact absurd (congrArg some herror) hret
      · obtain ⟨rfl, -⟩ := Prod.mk.inj (Option.some.inj h)
        exact ⟨List.length_pos_iff.mpr hpending, rfl⟩
      · obtain ⟨rfl, -⟩ := Prod.mk.inj (Option.some.inj h)
        exact ⟨hless, rfl⟩

/-- The events by which what was sent arrives. -/
def Arrival (e : ConnectionEvent) : Prop := e = .writable [.accepted 1] ∨ e = .readable 1

/-- Writable events empty the FIFO of an open socket. -/
theorem Carries.drain (cb : Interpretation) (h : Carries k p) (hopen : k.sender.client.tobedeleted = false) :
    ∃ es t, (∀ e ∈ es, Arrival e) ∧ Machine.run (connectionStep cb) k es = some t ∧ Carries t p ∧
      t.sender.pending = [] := by
  induction hn : k.sender.pending.length using Nat.strong_induction_on generalizing k with
  | _ n ih =>
    by_cases hnil : k.sender.pending = []
    · exact ⟨[], k, fun e he => absurd he List.not_mem_nil, rfl, h, hnil⟩
    · have hifb : k.sender.client.ifb.isSome := by
        apply Option.isSome_iff_ne_none.mpr
        intro hnone
        exact hnil (by rw [Sock.pending, hnone])
      have hw : k.sender.client.fd ∈ k.sender.wrdy_fds := h.waits.mp hifb
      obtain ⟨s, b, hs, hstream, hwaits⟩ := handleCongestionWrite_stream h.waits hw [.accepted 1]
      obtain ⟨hless, hstays⟩ := handleCongestionWrite_one hnil hs
      have hstep : connectionStep cb k (.writable [.accepted 1]) = some { k with sender := s } := by
        unfold connectionStep
        dsimp only
        rw [if_pos ⟨hw, hopen⟩, hs]
        rfl
      have hcarries : Carries { k with sender := s } p :=
        h.sender hwaits (handleCongestionWrite_wire hs) (hstream.trans h.stream) rfl h.sendable
      obtain ⟨es, t, hes, hrun, ht, hempty⟩ := ih _ (hn ▸ hless) hcarries (hstays.trans hopen) rfl
      refine ⟨.writable [.accepted 1] :: es, t, ?_, ?_, ht, hempty⟩
      · exact List.forall_mem_cons.mpr ⟨.inl rfl, hes⟩
      · rw [Machine.run, hstep, Option.bind_some, hrun]

theorem Carries.readAll (hcb : cb.WritesInside) (h : Carries k p) :
    ∃ es t q, (∀ e ∈ es, Arrival e) ∧ Machine.run (connectionStep cb) k es = some t ∧ Carries t q ∧
      q.all = p.all ∧ t.sender = k.sender ∧ t.taken = t.sender.client.wire.length := by
  induction hn : k.sender.client.wire.length - k.taken generalizing k p with
  | zero =>
    have hle := h.taken
    exact ⟨[], k, p, fun e he => absurd he List.not_mem_nil, rfl, h, rfl, rfl, by omega⟩
  | succ n ih =>
    have hroom := (withRoom_spec h.fits).2
    have hone : (k.incoming 1).length = 1 := by
      unfold Connection.incoming
      rw [List.length_take, List.length_drop]
      omega
    have hnil : k.incoming 1 ≠ [] := List.length_pos_iff.mp (by omega)
    obtain ⟨t, q, ht, hq, hcarries⟩ := h.readable hcb 1
    have htaken : t.sender = k.sender ∧ t.taken = k.taken + 1 := by
      unfold connectionStep at ht
      dsimp only at ht
      rw [if_neg hnil, hone] at ht
      obtain rfl := Option.some.inj ht
      exact ⟨rfl, rfl⟩
    have hall : q.all = p.all := by
      rw [Pipe.run_all hq]
      unfold pipeEvents
      dsimp only
      rw [if_neg hnil]
      exact List.append_nil _
    obtain ⟨es, t', q', hes, hrun, ht', hq', hsender, hdone⟩ := ih hcarries (by rw [htaken.1, htaken.2]; omega)
    refine ⟨.readable 1 :: es, t', q', ?_, ?_, ht', hq'.trans hall, hsender.trans htaken.1, hdone⟩
    · exact List.forall_mem_cons.mpr ⟨.inr rfl, hes⟩
    · rw [Machine.run, ht, Option.bind_some, hrun]

/-- With nothing in the FIFO and nothing unread, nothing is on the way. -/
theorem Carries.arrived (h : Carries k p) (hpending : k.sender.pending = [])
    (htaken : k.taken = k.sender.client.wire.length) : p.onTheWay = [] := by
  have hlines := h.lines
  rw [htaken, List.take_length] at hlines
  have hwire : k.sender.client.wire = (p.all.map Message.frame).flatten := by
    rw [← h.stream, Sock.stream, hpending, List.append_nil]
  rw [hwire] at hlines
  have hall := (hlines.unique (Message.lines_frames h.sendable)).1
  rw [h.delivered, Pipe.all, List.map_append] at hall
  have hnil : p.onTheWay.map Message.line = [] := List.append_right_eq_self.mp hall.symm
  exact List.map_eq_nil_iff.mp hnil

end Progress

section Runs
variable {cb : Interpretation} {fd : ℕ} {es : List ConnectionEvent}

def sentMessages (es : List ConnectionEvent) : List Message :=
  es.filterMap fun
    | .send m _ _ _ => some m
    | _ => none

def pipeRun (cb : Interpretation) (fd : ℕ) (es : List ConnectionEvent) : List (Pipe.Event Message) :=
  Machine.labels (connectionStep cb) (pipeEvents cb) (newConnection fd) es

theorem sent_labels {k t : Connection} (hrun : Machine.run (connectionStep cb) k es = some t) :
    Pipe.sent (Machine.labels (connectionStep cb) (pipeEvents cb) k es) = sentMessages es := by
  induction es generalizing k with
  | nil => rfl
  | cons e es ih =>
    obtain ⟨u, hu, hrest⟩ := Option.bind_eq_some_iff.mp hrun
    have hsplit : Pipe.sent (pipeEvents cb k e) = sentMessages [e] := by
      cases e with
      | send m bufferArg result₁ result₂ => rfl
      | writable results => rfl
      | readable n =>
        unfold pipeEvents
        dsimp only
        split_ifs <;> rfl
    have happ : Pipe.sent (pipeEvents cb k e ++ Machine.labels (connectionStep cb) (pipeEvents cb) u es) =
        Pipe.sent (pipeEvents cb k e) ++ Pipe.sent (Machine.labels (connectionStep cb) (pipeEvents cb) u es) :=
      List.filterMap_append
    rw [Machine.labels, hu, Option.elim_some, happ, hsplit, ih hrest]
    exact List.filterMap_append.symm

/-- Every line that was delivered is decoded as its message, whatever bindings and cursors `Receive`
finds at that time. -/
def Decoded (lines : List Text) (ms : List Message) : Prop :=
  lines.Forall₂ (fun line m => ∀ msg_recv c, (receive false msg_recv c line).2 = m.request msg_recv) ms

theorem Carries.decoded {k : Connection} {p : Pipe Message} (h : Carries k p) :
    Decoded k.receiver.delivered p.delivered := by
  have hsendable : ∀ m ∈ p.delivered, m.Sendable := fun m hm => h.sendable m (List.mem_append_left _ hm)
  unfold Decoded
  rw [h.delivered, List.forall₂_map_left_iff, List.forall₂_same]
  intro m hm msg_recv c
  exact Message.receive_line (hsendable m hm) msg_recv c

/-- A connection is a pipe: of the messages sent, those that the socket takes are decoded by the receiver
in their order, each once. -/
theorem delivery (hcb : cb.WritesInside)
    (hwhole : Machine.Guarded (connectionStep cb) SendsWhole (newConnection fd) es) :
    ∃ k p, Machine.run (connectionStep cb) (newConnection fd) es = some k ∧
      Machine.run Pipe.step .empty (pipeRun cb fd es) = some p ∧ p.all = Pipe.admitted (pipeRun cb fd es) ∧
      p.all.Sublist (sentMessages es) ∧ Decoded k.receiver.delivered p.delivered ∧
      (k.sender.pending = [] → k.taken = k.sender.client.wire.length → p.onTheWay = []) := by
  obtain ⟨k, p, hk, hp, hcarries⟩ := Machine.simulation (carries_new fd)
    (fun k p e hR he => hR.step hcb he) (Machine.guarded_both hwhole Pipe.empty)
  have hall : p.all = Pipe.admitted (pipeRun cb fd es) := Pipe.run_all hp
  refine ⟨k, p, hk, hp, hall, ?_, hcarries.decoded, hcarries.arrived⟩
  rw [hall, ← sent_labels hk]
  exact Pipe.admitted_sublist _

/-- The first message goes out at once and is read; the kernel does not take the second. -/
private def twoMessages : List ConnectionEvent :=
  [.send (.msg 7 [some (ascii "a")]) emptyBuffer (.accepted 64) (.accepted 64), .readable 64,
    .send (.control .directMsg 5 (ascii "b")) emptyBuffer .wouldBlock .wouldBlock]

private theorem twoMessages_whole :
    Machine.Guarded (connectionStep stamp) SendsWhole (newConnection 4) twoMessages := by
  have hclean : ∀ capture ∈ [some (ascii "a")], Clean capture := by decide
  have hlong : (msgFrame .directMsg 5 (ascii "b")).length < ivyFifoMaxAllocSize := by decide
  refine ⟨⟨⟨by decide, hclean, by decide⟩, 0, rfl, by decide⟩, fun _ _ => ⟨trivial, fun _ _ => ?_⟩⟩
  exact ⟨⟨⟨by decide, by decide, by decide, by decide⟩, hlong⟩, fun _ _ => trivial⟩

theorem delivery_example : ∃ (k : Connection) (p : Pipe Message),
    Machine.run (connectionStep stamp) (newConnection 4) twoMessages = some k ∧
    p.all.Sublist (sentMessages twoMessages) ∧ Decoded k.receiver.delivered p.delivered := by
  obtain ⟨k, p, hk, -, -, hsent, hdecoded, -⟩ := delivery stamp_writesInside twoMessages_whole
  exact ⟨k, p, hk, hsent, hdecoded⟩

end Runs
end Ivy.Socket

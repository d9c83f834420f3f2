import Ivy.Socket.Injection
import Ivy.Socket.MsgFrame

/-! The messages that a connection carries: how they are sent, and what `Receive` makes of their lines. -/
namespace Ivy.Socket
open Fifo

/-- What an agent sends: a message with the groups it captured, or the text of `MsgSendTo`. -/
inductive Message
  | msg (id : ℤ) (captures : List (Option Text))
  | control (kind : MsgType) (id : ℤ) (arg : Text)

namespace Message

def header : Message → Text
  | msg id _ => bufferId .msg id
  | control kind id _ => bufferId kind id

def text : Message → Text
  | msg _ captures => args (captures.map argText)
  | control _ _ arg => arg

def line (m : Message) : Text := m.header ++ m.text

def frame (m : Message) : Text := m.line ++ [newline]

/-- The message holds none of the bytes that end an argument, a line or a string. -/
def Sendable : Message → Prop
  | msg id captures => (-2 ^ 31 ≤ id ∧ id < 2 ^ 31) ∧ (∀ capture ∈ captures, Clean capture) ∧
    (args (captures.map argText)).length < intMax
  | control kind id arg => (-2 ^ 31 ≤ id ∧ id < 2 ^ 31) ∧ kind ≠ .msg ∧ 0 ∉ arg ∧ newline ∉ arg

/-- What `Receive` is to make of a message with its arguments. -/
def callOf (msg_recv : List MsgRcv) (id : ℤ) (argv : List Text) : Request :=
  match msg_recv.find? (id = ·.id) with
  | none => .notFound id
  | some rcv =>
    if argv.length ≤ maxMatchingArgs then
      match rcv.callback with
      | none => .noCallback id
      | some callback => .call id callback rcv.user_data argv
    else .tooManyArgs id

def request (msg_recv : List MsgRcv) : Message → Request
  | msg id captures => callOf msg_recv id (captures.map argText)
  | control kind id arg => .control kind id arg

variable {m : Message}

theorem newline_not_mem_call (id : ℤ) {captures : List (Option Text)} (hclean : ∀ capture ∈ captures, Clean capture) :
    newline ∉ (msg id captures).line := by
  have hargs : newline ∉ args (captures.map argText) := by
    rw [newline_mem_args]
    rintro ⟨a, ha, hnl⟩
    obtain ⟨capture, hcapture, rfl⟩ := List.mem_map.mp ha
    exact (hclean capture hcapture newline hnl).2.1 rfl
  exact fun hmem => (List.mem_append.mp hmem).elim (newline_not_mem_bufferId .msg id) hargs

theorem newline_not_mem_line (h : m.Sendable) : newline ∉ m.line := by
  cases m with
  | msg id captures => exact newline_not_mem_call id h.2.1
  | control kind id arg =>
    exact fun hmem => (List.mem_append.mp hmem).elim (newline_not_mem_bufferId kind id) h.2.2.2

private theorem receiveMsg_callOf {as : List Text} (has : ∀ a ∈ as, IsArg a) (msg_recv : List MsgRcv) (c : Cursors)
    (pre : Text) (id : ℤ) :
    (receiveMsg msg_recv c (pre ++ args as) id pre.length).2 = callOf msg_recv id as := by
  cases hrcv : msg_recv.find? (id = ·.id) with
  | none => simp only [receiveMsg, callOf, hrcv]
  | some rcv =>
    have hgather := gatherArgs_args has maxMatchingArgs c pre .nil (s := some pre.length) rfl
    simp only [receiveMsg, callOf, hrcv]
    dsimp only at hgather
    generalize nextArg c (pre ++ args as) (some pre.length) argEnd = n at hgather ⊢
    generalize gatherArgs maxMatchingArgs n.1 n.2.1 [] n.2.2 = r at hgather ⊢
    obtain ⟨c', line', argv⟩ := r
    split_ifs at hgather ⊢
    · obtain ⟨argv', rfl, hholds⟩ := hgather
      have hargs : argv'.map (stringAt line') = as := map_stringAt hholds has
      cases rcv.callback with
      | none => rfl
      | some callback => simp only [hargs]
    · obtain rfl : argv = none := hgather
      rfl

theorem receive_call {id : ℤ} (hid : -2 ^ 31 ≤ id ∧ id < 2 ^ 31) {captures : List (Option Text)}
    (hclean : ∀ capture ∈ captures, Clean capture) (msg_recv : List MsgRcv) (c : Cursors) :
    (receive false msg_recv c (msg id captures).line).2 = callOf msg_recv id (captures.map argText) := by
  change (receive false msg_recv c (bufferId .msg id ++ args (captures.map argText))).2 = _
  rw [receive_msg hid.1 hid.2]
  apply receiveMsg_callOf
  intro a ha b hb
  obtain ⟨capture, hcapture, rfl⟩ := List.mem_map.mp ha
  have hb' := hclean capture hcapture b hb
  exact ⟨hb'.1, hb'.2.2⟩

/-- The line of a message is decoded as the message, whatever line came before it. -/
theorem receive_line (h : m.Sendable) (msg_recv : List MsgRcv) (c : Cursors) :
    (receive false msg_recv c m.line).2 = m.request msg_recv := by
  cases m with
  | msg id captures => exact receive_call h.1 h.2.1 msg_recv c
  | control kind id arg =>
    change (receive false msg_recv c (bufferId kind id ++ arg)).2 = _
    rw [receive_control h.2.1 h.1.1 h.1.2 h.2.2.1]
    rfl

theorem lines_frames {ms : List Message} (h : ∀ m ∈ ms, m.Sendable) :
    Lines newline (ms.map frame).flatten (ms.map line) [] where
  eq := by
    rw [List.append_nil, List.map_map]
    rfl
  lines l hl := by
    obtain ⟨m, hm, rfl⟩ := List.mem_map.mp hl
    exact newline_not_mem_line (h m hm)
  tail := List.not_mem_nil

end Message

section Sends

def Message.first : Message → Text
  | .msg id _ => bufferId .msg id
  | .control kind id arg => msgFrame kind id arg

/-- `RegexpCall` sends a message in two parts, `MsgSendTo` in one. -/
def sendMessage (s : Sock) (bufferArg : IvyBuffer) (result₁ result₂ : SendResult) : Message → Sock
  | .msg id captures =>
    (socketSendRawWithId s (bufferId .msg id) (printArgs bufferArg captures).contents result₁ result₂).1
  | .control kind id arg => (socketSendRaw s (msgFrame kind id arg) result₁).1

/-- The socket takes the message, at once or into the FIFO. -/
def admits (s : Sock) (result₁ : SendResult) (m : Message) : Bool := emitted s m.first result₁ ≠ []

/-- The condition under which no part of the message is sent without the others. -/
def SentWhole (s : Sock) (result₁ result₂ : SendResult) : Message → Prop
  | .msg id captures =>
    FrameAtomic s (bufferId .msg id) (args (captures.map argText) ++ [newline]) result₁ result₂
  | .control kind id arg => (msgFrame kind id arg).length < ivyFifoMaxAllocSize

variable {s : Sock} {result₁ result₂ : SendResult} {m : Message}

/-- A message sent whole is on the stream if the socket takes it, and leaves no trace otherwise. -/
theorem sendMessage_stream (bufferArg : IvyBuffer) (h : m.Sendable) (hwhole : SentWhole s result₁ result₂ m) :
    (sendMessage s bufferArg result₁ result₂ m).stream =
      s.stream ++ if admits s result₁ m then m.frame else [] := by
  cases m with
  | msg id captures =>
    have hid := bufferId_lt_max h.1.1 h.1.2
    have hidmax : (bufferId .msg id).length ≤ intMax := hid.le.trans max_le_intMax
    have hlen : (args (captures.map argText) ++ [newline]).length ≤ intMax := by
      rw [List.length_append]
      exact h.2.2
    have htwice := (emittedTwice_iff s result₁ result₂ (bufferId_ne_nil .msg id)
      (List.append_ne_nil_of_right_ne_nil (args (captures.map argText)) (List.cons_ne_nil newline [])) hid).mpr hwhole
    have hframe : (Message.msg id captures).frame =
        bufferId .msg id ++ (args (captures.map argText) ++ [newline]) := List.append_assoc _ _ _
    rw [sendMessage, (printArgs_contents bufferArg captures).1, socketSendRawWithId_stream s _ _ hidmax hlen, hframe]
    congr 1
    unfold emittedTwice at htwice ⊢
    split_ifs with hadmits
    · have hne : emitted s (bufferId .msg id) result₁ ≠ [] := of_decide_eq_true hadmits
      exact htwice.resolve_right fun hnil => hne (List.append_eq_nil_iff.mp hnil).1
    · have hnil : emitted s (bufferId .msg id) result₁ = [] :=
        Decidable.of_not_not fun hne => hadmits (decide_eq_true hne)
      rw [hnil, List.nil_append] at htwice ⊢
      refine htwice.resolve_left fun hall => ?_
      -- the header alone makes the frame longer than what the second part can add
      have hle := emitted_length_le (bufferizedSocketSendRaw s (bufferId .msg id) result₁).1
        (args (captures.map argText) ++ [newline]) result₂
      have hpos := List.length_pos_iff.mpr (bufferId_ne_nil .msg id)
      rw [hall, List.length_append] at hle
      omega
  | control kind id arg =>
    have hframe : (Message.control kind id arg).frame = msgFrame kind id arg := rfl
    have hone := emitted_whole s result₁ hwhole
    change (bufferizedSocketSendRaw s (msgFrame kind id arg) result₁).1.stream = _
    rw [bufferizedSocketSendRaw_stream s result₁ (hwhole.le.trans max_le_intMax), hframe]
    congr 1
    split_ifs with hadmits
    · exact hone.resolve_right (of_decide_eq_true hadmits)
    · exact Decidable.of_not_not fun hne => hadmits (decide_eq_true hne)

theorem sendMessage_waits {bufferArg : IvyBuffer} (h : s.Waits) :
    (sendMessage s bufferArg result₁ result₂ m).Waits := by
  cases m with
  | msg id captures => exact bufferizedSocketSendRaw_waits (bufferizedSocketSendRaw_waits h _ _) _ _
  | control kind id arg => exact bufferizedSocketSendRaw_waits h _ _

theorem bufferizedSocketSendRaw_wire (s : Sock) (buffer : List UInt8) (result : SendResult) :
    s.client.wire <+: (bufferizedSocketSendRaw s buffer result).1.client.wire := by
  unfold bufferizedSocketSendRaw
  cases s.client.ifb with
  | some ifb => exact List.prefix_rfl
  | none =>
    cases result with
    | accepted n =>
      dsimp only
      split_ifs
      · exact List.prefix_append _ _
      · exact List.prefix_append _ _
    | wouldBlock => exact List.prefix_rfl
    | interrupted => exact List.prefix_rfl
    | failed => exact List.prefix_rfl

theorem sendMessage_wire {bufferArg : IvyBuffer} :
    s.client.wire <+: (sendMessage s bufferArg result₁ result₂ m).client.wire := by
  cases m with
  | msg id captures =>
    exact (bufferizedSocketSendRaw_wire s _ _).trans (bufferizedSocketSendRaw_wire _ _ _)
  | control kind id arg => exact bufferizedSocketSendRaw_wire s _ _

theorem handleCongestionWrite_wire {results : List SendResult} {t : Sock} {b : Bool}
    (h : handleCongestionWrite s results = some (t, b)) : s.client.wire <+: t.client.wire := by
  unfold handleCongestionWrite at h
  cases hifb : s.client.ifb with
  | none => simp [hifb] at h
  | some ifb =>
    rw [hifb] at h
    dsimp only at h
    split at h
    · obtain ⟨rfl, -⟩ := Prod.mk.inj (Option.some.inj h)
      exact List.prefix_append _ _
    · split_ifs at h
      · obtain ⟨rfl, -⟩ := Prod.mk.inj (Option.some.inj h)
        exact List.prefix_append _ _
      · obtain ⟨rfl, -⟩ := Prod.mk.inj (Option.some.inj h)
        exact List.prefix_append _ _
      · obtain ⟨rfl, -⟩ := Prod.mk.inj (Option.some.inj h)
        exact List.prefix_append _ _

end Sends

end Ivy.Socket

import Ivy.Lib.Lines
import Ivy.Protocol.Receive

/-! Msg frames, from the captures of a match to the arguments of a callback. -/
namespace Ivy

/-- The bytes that `RegexpCall` hands to `SocketSendRawWithId` for one subscription. -/
def callFrame (bufferArg : IvyBuffer) (id : ℤ) (captures : List (Option Text)) : Text :=
  bufferId .msg id ++ (printArgs bufferArg captures).contents

/-- A capture that the protocol can carry. -/
def Clean (capture : Option Text) : Prop :=
  ∀ b ∈ argText capture, b ≠ 0 ∧ b ≠ newline ∧ b ≠ argEnd

instance (capture : Option Text) : Decidable (Clean capture) :=
  List.decidableBAll (fun b => b ≠ 0 ∧ b ≠ newline ∧ b ≠ argEnd) (argText capture)

theorem not_mem_args {as : List Text} {b : UInt8} (hb : b ≠ argEnd) (h : ∀ a ∈ as, b ∉ a) :
    b ∉ args as := by
  simp only [args, List.mem_flatMap, List.mem_append, List.mem_singleton, not_exists, not_and, not_or]
  exact fun a ha => ⟨h a ha, hb⟩

/-- The frame is one line: the header and the arguments. -/
theorem callFrame_lines (bufferArg : IvyBuffer) (id : ℤ) {captures : List (Option Text)}
    (h : ∀ capture ∈ captures, Clean capture) :
    Lines newline (callFrame bufferArg id captures)
      [bufferId .msg id ++ args (captures.map argText)] [] := by
  have hargs : newline ∉ args (captures.map argText) := by
    refine not_mem_args (by decide) fun a ha hnl => ?_
    obtain ⟨capture, hc, rfl⟩ := List.mem_map.mp ha
    exact (h capture hc newline hnl).2.1 rfl
  have hheader := newline_not_mem_bufferId .msg id
  rw [callFrame, (printArgs_contents bufferArg captures).1, ← List.append_assoc]
  exact .cons (by simpa using ⟨hheader, hargs⟩) (.of_not_mem (by simp))

theorem receiveMsg_args {msg_recv : List MsgRcv} {id : ℤ} {rcv : MsgRcv}
    (hrcv : msg_recv.find? (id = ·.id) = some rcv) {callback : ℕ}
    (hcallback : rcv.callback = some callback) {as : List Text} (has : ∀ a ∈ as, IsArg a)
    (c : Cursors) (pre : Text) :
    (receiveMsg msg_recv c (pre ++ args as) id pre.length).2 =
      if as.length ≤ maxMatchingArgs then .call id callback rcv.user_data as else .tooManyArgs id := by
  have hgather := gatherArgs_args has maxMatchingArgs c pre .nil (s := some pre.length) rfl
  simp only [receiveMsg, hrcv]
  revert hgather
  rcases nextArg c (pre ++ args as) (some pre.length) argEnd with ⟨c', line', next⟩
  dsimp only
  rcases gatherArgs maxMatchingArgs c' line' [] next with ⟨c'', line'', argv⟩
  intro hgather
  dsimp only at hgather
  split_ifs at hgather ⊢
  · obtain ⟨argv', rfl, hholds⟩ := hgather
    simp only [hcallback, map_stringAt hholds has]
    rfl
  · rw [hgather]

/-- The line cut from the frame makes `Receive` call the binding once, with the captures as
arguments, unless there are too many of them; either way it leaves no trace on the next line. -/
theorem msg_round_trip (bufferArg : IvyBuffer) {id : ℤ} (hlo : -2 ^ 31 ≤ id) (hhi : id < 2 ^ 31)
    {captures : List (Option Text)} (hclean : ∀ capture ∈ captures, Clean capture)
    {msg_recv : List MsgRcv} {rcv : MsgRcv} (hrcv : msg_recv.find? (id = ·.id) = some rcv)
    {callback : ℕ} (hcallback : rcv.callback = some callback) (c : Cursors) :
    ∃ line, Lines newline (callFrame bufferArg id captures) [line] [] ∧
      (receive false msg_recv c line).2 =
        (if captures.length ≤ maxMatchingArgs then
          .call id callback rcv.user_data (captures.map argText)
        else .tooManyArgs id) ∧
      ∀ ignore_subsequent_msg next,
        (receive ignore_subsequent_msg msg_recv (receive false msg_recv c line).1 next).2 =
          (receive ignore_subsequent_msg msg_recv c next).2 := by
  refine ⟨_, callFrame_lines bufferArg id hclean, ?_, fun _ _ => receive_cursors _ _ _ _ _⟩
  have has : ∀ a ∈ captures.map argText, IsArg a := by
    intro a ha b hb
    obtain ⟨capture, hc, rfl⟩ := List.mem_map.mp ha
    exact ⟨(hclean capture hc b hb).1, (hclean capture hc b hb).2.2⟩
  rw [receive_msg hlo hhi, receiveMsg_args hrcv hcallback has, List.length_map]

theorem msg_round_trip_example :
    ∃ line, Lines newline (callFrame emptyBuffer 7 [none, some (ascii "x=1"), none]) [line] [] ∧
      (receive false [⟨7, ascii "(.*)", some 1, 0⟩] ⟨0, 0⟩ line).2 =
        .call 7 1 0 [[], ascii "x=1", []] := by
  have hclean : ∀ capture ∈ [none, some (ascii "x=1"), none], Clean capture := by
    intro capture hcapture
    simp only [List.mem_cons, List.not_mem_nil, or_false] at hcapture
    rcases hcapture with rfl | rfl | rfl <;> decide
  have hlo : -2 ^ 31 ≤ (7 : ℤ) := by decide
  have hrcv : [(⟨7, ascii "(.*)", some 1, 0⟩ : MsgRcv)].find? ((7 : ℤ) = ·.id) =
      some ⟨7, ascii "(.*)", some 1, 0⟩ := rfl
  obtain ⟨line, hlines, hcall, -⟩ :=
    msg_round_trip emptyBuffer hlo (by decide) hclean hrcv rfl ⟨0, 0⟩
  exact ⟨line, hlines, hcall⟩

end Ivy

import Ivy.Protocol.RoundTrip
import Ivy.Socket.Reassembly

/-! What a peer makes of the bytes of one frame: a newline in the text cuts it in two. -/
namespace Ivy.Socket

/-- The type and the id of a frame that `Receive` has dispatched. -/
def frameOf : Request → Option (MsgType × ℤ)
  | .control kind id _ => some (kind, id)
  | .call id _ _ _ => some (.msg, id)
  | .noCallback id => some (.msg, id)
  | .tooManyArgs id => some (.msg, id)
  | .notFound id => some (.msg, id)
  | _ => none

/-- However the bytes arrive on a connection that waits for a new line, `HandleSocket` hands one
line to `Receive`, which dispatches it as a frame of the type and the id. -/
def DecodedAs (msg_recv : List MsgRcv) (frame : List UInt8) (kind : MsgType) (id : ℤ) : Prop :=
  ∀ (cb : Interpretation) (start c : Receiver) (chunks : List (List UInt8)), cb.WritesInside →
    start.Fits → start.held = [] → chunks.flatten = frame →
    Machine.run (recvStep cb) start chunks = some c →
    ∃ line, c.delivered = start.delivered ++ [line] ∧ c.held = [] ∧
      ∀ cursors, frameOf (receive false msg_recv cursors line).2 = some (kind, id)

def directFrame (id : Int32) (msg : CString) : Text := msgFrame .directMsg id.toInt msg.bytes

/-- The frame of `IvySendError`, whose static buffer may hold anything before. -/
def errorFrame (buffer : IvyBuffer) (id : Int32) (text : Text) : Text :=
  msgFrame .error id.toInt (makeMessage buffer.reset text).string

theorem run_recvStep_lines {cb : Interpretation} (hcb : cb.WritesInside) {start c : Receiver}
    (hstart : start.Fits) (hheld : start.held = []) {chunks : List (List UInt8)}
    (hrun : Machine.run (recvStep cb) start chunks = some c) :
    ∃ ls, c.delivered = start.delivered ++ ls ∧ Lines newline chunks.flatten ls c.held := by
  have h₀ : start.Fits ∧ ∃ ls, start.delivered = start.delivered ++ ls ∧
      Lines newline ([] : List (List UInt8)).flatten ls start.held := by
    refine ⟨hstart, [], (List.append_nil _).symm, ?_⟩
    rw [hheld]
    exact .of_not_mem (by simp)
  refine (Machine.run_reaches (I := fun past c => c.Fits ∧ ∃ ls, c.delivered = start.delivered ++ ls ∧
    Lines newline past.flatten ls c.held) h₀ ?_ hrun).2
  rintro past s chunk t ⟨hfits, ls, hdelivered, hlines⟩ hstep
  unfold recvStep at hstep
  split_ifs at hstep with hchunk
  obtain rfl := Option.some.inj hstep
  obtain ⟨hfits', ls', hdelivered', hlines'⟩ := handleSocket_spec hcb hfits hchunk.1 hchunk.2
  refine ⟨hfits', ls ++ ls', by rw [hdelivered', hdelivered, List.append_assoc], ?_⟩
  rw [List.flatten_append, List.flatten_singleton]
  exact hlines.append hlines'

theorem exists_run_recvStep {cb : Interpretation} (hcb : cb.WritesInside) {start : Receiver}
    (hstart : start.Fits) (bytes : List UInt8) :
    ∃ c, Machine.run (recvStep cb) start (bytes.map fun b => [b]) = some c := by
  induction bytes generalizing start with
  | nil => exact ⟨start, rfl⟩
  | cons b bytes ih =>
    have hroom := (withRoom_spec hstart).2
    have hpos : 0 < [b].length := Nat.zero_lt_one
    have hfits := (handleSocket_spec hcb hstart hpos hroom).1
    obtain ⟨c, hc⟩ := ih hfits
    have hstep : recvStep cb start [b] = some (handleSocket cb start (.bytes [b])) :=
      if_pos ⟨Nat.zero_lt_one, hroom⟩
    exact ⟨c, by rw [List.map_cons, Machine.run, hstep, Option.bind_some, hc]⟩

theorem flatten_singletons (bytes : List UInt8) : (bytes.map fun b => [b]).flatten = bytes := by
  induction bytes with
  | nil => rfl
  | cons b bytes ih => rw [List.map_cons, List.flatten_cons, ih, List.singleton_append]

/-- A frame is decoded as one exactly if its text has no newline. -/
theorem decodedAs_iff {msg_recv : List MsgRcv} {header body : Text} {kind : MsgType} {id : ℤ}
    (hheader : newline ∉ header)
    (hdecode : ∀ cursors, frameOf (receive false msg_recv cursors (header ++ body)).2 = some (kind, id)) :
    DecodedAs msg_recv (header ++ body ++ [newline]) kind id ↔ newline ∉ body := by
  constructor
  · intro h hmem
    obtain ⟨c, hrun⟩ := exists_run_recvStep stamp_writesInside
      (show newReceiver.Fits from newReceiver_reassembled.1) (header ++ body ++ [newline])
    have hflat : ((header ++ body ++ [newline]).map fun b => [b]).flatten =
        header ++ body ++ [newline] := flatten_singletons _
    have hnew : newReceiver.held = [] := rfl
    obtain ⟨line, hone, -⟩ := h stamp newReceiver c _ stamp_writesInside
      newReceiver_reassembled.1 hnew hflat hrun
    obtain ⟨ls, hls, hlines⟩ := run_recvStep_lines stamp_writesInside newReceiver_reassembled.1 hnew hrun
    have hcount := hlines.count
    rw [hflat, List.append_cancel_left (hls.symm.trans hone)] at hcount
    have hpos := List.count_pos_iff.mpr hmem
    simp only [List.count_append, List.count_singleton_self, List.length_singleton] at hcount
    omega
  · intro hbody cb start c chunks hcb hstart hheld hflat hrun
    obtain ⟨ls, hls, hlines⟩ := run_recvStep_lines hcb hstart hheld hrun
    have hwhole : Lines newline (header ++ body ++ [newline]) [header ++ body] [] :=
      .cons (by simpa using ⟨hheader, hbody⟩) (.of_not_mem (by simp))
    rw [hflat] at hlines
    obtain ⟨rfl, htail⟩ := hlines.unique hwhole
    exact ⟨header ++ body, hls, htail, hdecode⟩

section
variable (msg_recv : List MsgRcv) (id : Int32)

theorem decodedAs_msgFrame {kind : MsgType} (hkind : kind ≠ .msg) {message : Text}
    (hzero : 0 ∉ message) :
    DecodedAs msg_recv (msgFrame kind id.toInt message) kind id.toInt ↔ newline ∉ message := by
  apply decodedAs_iff (newline_not_mem_bufferId kind id.toInt)
  intro cursors
  rw [receive_control hkind id.le_toInt id.toInt_lt hzero]
  rfl

theorem frameOf_receiveMsg (cursors : Cursors) (line : Text) (id : ℤ) (arg : ℕ) :
    frameOf (receiveMsg msg_recv cursors line id arg).2 = some (.msg, id) := by
  unfold receiveMsg
  split
  · rfl
  · dsimp only
    split
    · rfl
    · split <;> rfl

theorem newline_mem_args (as : List Text) : newline ∈ args as ↔ ∃ a ∈ as, newline ∈ a := by
  have hend : newline ≠ argEnd := by decide
  simp [args, hend]

theorem decodedAs_callFrame (bufferArg : IvyBuffer) (captures : List (Option Text)) :
    DecodedAs msg_recv (callFrame bufferArg id.toInt captures) .msg id.toInt ↔
      ∀ capture ∈ captures, newline ∉ argText capture := by
  have hframe : callFrame bufferArg id.toInt captures =
      bufferId .msg id.toInt ++ args (captures.map argText) ++ [newline] := by
    rw [callFrame, (printArgs_contents bufferArg captures).1, List.append_assoc]
  rw [hframe, decodedAs_iff (newline_not_mem_bufferId .msg id.toInt), newline_mem_args]
  · simp
  · intro cursors
    rw [receive_msg id.le_toInt id.toInt_lt]
    exact frameOf_receiveMsg msg_recv cursors _ _ _

end

/-- The groups that the regexp of a subscription captures from a message, if it matches. -/
abbrev Match := Text → Option (List (Option Text))

/-- The frame of `IvySendMsg` for one subscription that matches the text. -/
def messageFrame (regexp : Match) (buffer bufferArg : IvyBuffer) (id : Int32) (text : Text) :
    Option Text :=
  (regexp (makeMessage buffer.reset text).string).map (callFrame bufferArg id.toInt)

/-- The bytes that a sender writes are decoded as its one frame exactly if no newline stands in
the groups that a subscription captures, in the direct message or in the error text. -/
theorem frame_injection (msg_recv : List MsgRcv) (id : Int32) :
    (∀ (regexp : Match) (buffer bufferArg : IvyBuffer) (text : Text),
      ∀ frame ∈ messageFrame regexp buffer bufferArg id text,
        (DecodedAs msg_recv frame .msg id.toInt ↔
          ∀ captures ∈ regexp (text.takeWhile (· ≠ 0)), ∀ capture ∈ captures,
            newline ∉ argText capture)) ∧
    (∀ msg : CString,
      DecodedAs msg_recv (directFrame id msg) .directMsg id.toInt ↔ newline ∉ msg.bytes) ∧
    ∀ (buffer : IvyBuffer) (text : Text),
      DecodedAs msg_recv (errorFrame buffer id text) .error id.toInt ↔
        newline ∉ text.takeWhile (· ≠ 0) := by
  refine ⟨?_, ?_, ?_⟩
  · intro regexp buffer bufferArg text frame hframe
    simp only [messageFrame, string_makeMessage, Option.mem_def, Option.map_eq_some_iff] at hframe
    obtain ⟨captures, hcaptures, rfl⟩ := hframe
    rw [decodedAs_callFrame, hcaptures]
    simp
  · intro msg
    exact decodedAs_msgFrame msg_recv id (by simp) msg.noZero
  · intro buffer text
    rw [errorFrame, string_makeMessage]
    apply decodedAs_msgFrame msg_recv id (by simp)
    intro hmem
    simpa using List.mem_takeWhile_imp hmem

/-- A message of two lines, the second of them the header of a Die frame. -/
def dieMessage : CString := ⟨ascii "x" ++ newline :: bufferId .die 0, by decide⟩

/-- The peer takes the direct message for a direct message and a Die. -/
theorem direct_message_kills :
    ¬ DecodedAs [] (directFrame 5 dieMessage) .directMsg (5 : Int32).toInt ∧
      (Machine.run (recvStep stamp) newReceiver [directFrame 5 dieMessage]).map
        (fun c => c.delivered.map fun line => frameOf (receive false [] ⟨0, 0⟩ line).2) =
          some [some (.directMsg, 5), some (.die, 0)] := by
  have hrun : (Machine.run (recvStep stamp) newReceiver [directFrame 5 dieMessage]).map
      (fun c => c.delivered.map fun line => frameOf (receive false [] ⟨0, 0⟩ line).2) =
        some [some (.directMsg, 5), some (.die, 0)] := by decide +kernel
  refine ⟨fun h => ?_, hrun⟩
  obtain ⟨c, hc, hframes⟩ := Option.map_eq_some_iff.mp hrun
  obtain ⟨line, hone, -⟩ := h stamp newReceiver c _ stamp_writesInside newReceiver_reassembled.1 rfl
    (List.append_nil _) hc
  rw [hone] at hframes
  exact absurd (congrArg List.length hframes) (by simp [newReceiver])

theorem frame_injection_example :
    DecodedAs [] (directFrame 5 ⟨ascii "8 0", by decide⟩) .directMsg (5 : Int32).toInt :=
  ((frame_injection [] 5).2.1 ⟨ascii "8 0", by decide⟩).mpr (by decide)

end Ivy.Socket

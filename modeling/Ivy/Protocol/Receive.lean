import Ivy.Protocol.Args
import Ivy.Protocol.Frame
import Ivy.Protocol.Scan

/-! How `Receive` takes a line apart and dispatches it. -/
namespace Ivy

/-- A binding of `msg_recv`. The callback is the address of a function, `none` a null one. -/
structure MsgRcv where
  id : ℤ
  regexp : Text
  callback : Option ℕ
  user_data : ℕ

/-- What a line asks for; `control` leaves the branch of the message type to be run. -/
inductive Request
  | ignored
  | badFormat
  | unhandled (id : ℤ)
  | control (kind : MsgType) (id : ℤ) (arg : Text)
  | call (id : ℤ) (callback user_data : ℕ) (argv : List Text)
  | noCallback (id : ℤ)
  | tooManyArgs (id : ℤ)
  | notFound (id : ℤ)
  deriving DecidableEq, Repr

def MsgType.ofCode : ℤ → Option MsgType
  | 0 => some .bye
  | 1 => some .addRegexp
  | 2 => some .msg
  | 3 => some .error
  | 4 => some .delRegexp
  | 5 => some .endRegexp
  | 6 => some .startRegexp
  | 7 => some .directMsg
  | 8 => some .die
  | 9 => some .ping
  | 10 => some .pong
  | _ => none

@[simp] theorem MsgType.ofCode_code (kind : MsgType) : MsgType.ofCode kind.code = some kind := by
  cases kind <;> rfl

/-- The branch of `Receive` for `Msg`; the arguments start at offset `arg`. -/
def receiveMsg (msg_recv : List MsgRcv) (c : Cursors) (line : Text) (id : ℤ) (arg : ℕ) :
    Cursors × Request :=
  match msg_recv.find? (id = ·.id) with
  | none => (c, .notFound id)
  | some rcv =>
    let (c, line, next) := nextArg c line (some arg) argEnd
    match gatherArgs maxMatchingArgs c line [] next with
    | (c, _, none) => (c, .tooManyArgs id)
    | (c, line, some argv) =>
      match rcv.callback with
      | none => (c, .noCallback id)
      | some callback => (c, .call id callback rcv.user_data (argv.map (stringAt line)))

def receive (ignore_subsequent_msg : Bool) (msg_recv : List MsgRcv) (c : Cursors) (line : Text) :
    Cursors × Request :=
  if ignore_subsequent_msg then (c, .ignored)
  else
    match scanHeader line, strstr line argStart with
    | some (kind_of_msg, id), some i =>
      let arg := i + 1
      match MsgType.ofCode kind_of_msg with
      | none => (c, .unhandled id)
      | some .msg => receiveMsg msg_recv c line id arg
      | some kind => (c, .control kind id (stringAt line arg))
    | _, _ => (c, .badFormat)

theorem code_mem (kind : MsgType) : -2 ^ 31 ≤ kind.code ∧ kind.code < 2 ^ 31 := by
  cases kind <;> decide

theorem scanHeader_bufferId (kind : MsgType) {id : ℤ} (hlo : -2 ^ 31 ≤ id) (hhi : id < 2 ^ 31)
    (arg : Text) : scanHeader (bufferId kind id ++ arg) = some (kind.code, id) := by
  obtain ⟨hklo, hkhi⟩ := code_mem kind
  have hspace : ¬ IsDigit space := by decide
  have hstart : ¬ IsDigit argStart := by decide
  have hkind := scanInt_decimal hklo hkhi [] (by simp) hspace (decimal id ++ argStart :: arg)
  have hblank : ∀ b ∈ [space], isSpace b = true := by
    intro b hb
    rw [List.mem_singleton.mp hb]
    rfl
  have hid := scanInt_decimal hlo hhi [space] hblank hstart arg
  simp only [List.nil_append, List.cons_append] at hkind hid
  simp [scanHeader, bufferId, hkind, hid]

theorem not_mem_header (kind : MsgType) (id : ℤ) {b : UInt8} (hb : b.toNat < 32) :
    b ∉ decimal kind.code ++ space :: decimal id := by
  have hspace : b ≠ space := by
    rintro rfl
    simp [space] at hb
  simp [not_mem_decimal (show b.toNat < 45 by omega), hspace]

theorem newline_not_mem_bufferId (kind : MsgType) (id : ℤ) : newline ∉ bufferId kind id := by
  have hnot := not_mem_header kind id (show newline.toNat < 32 by decide)
  simp only [bufferId, List.mem_append, List.mem_singleton, not_or] at hnot ⊢
  exact ⟨hnot, by decide⟩

theorem strstr_bufferId (kind : MsgType) (id : ℤ) (arg : Text) :
    ∃ i, strstr (bufferId kind id ++ arg) argStart = some i ∧
      i + 1 = (bufferId kind id).length := by
  have hsplit : bufferId kind id ++ arg =
      decimal kind.code ++ space :: decimal id ++ argStart :: arg := by simp [bufferId]
  refine ⟨(decimal kind.code ++ space :: decimal id).length, ?_, ?_⟩
  · rw [hsplit]
    exact strstr_append (not_mem_header kind id (by decide)) (not_mem_header kind id (by decide)) arg
  · simp only [bufferId, List.length_append, List.length_cons, List.length_nil]

theorem receive_control {kind : MsgType} (hkind : kind ≠ .msg) {id : ℤ} (hlo : -2 ^ 31 ≤ id)
    (hhi : id < 2 ^ 31) {arg : Text} (harg : 0 ∉ arg) (msg_recv : List MsgRcv) (c : Cursors) :
    receive false msg_recv c (bufferId kind id ++ arg) = (c, .control kind id arg) := by
  obtain ⟨i, hi, hlen⟩ := strstr_bufferId kind id arg
  have hstring : stringAt (bufferId kind id ++ arg) (i + 1) = arg := by
    rw [hlen, stringAt, List.drop_left, List.takeWhile_eq_self_iff]
    exact fun b hb => decide_eq_true fun h => harg (h ▸ hb)
  simp only [receive, scanHeader_bufferId kind hlo hhi arg, hi, MsgType.ofCode_code, hstring]
  cases kind with
  | msg => exact absurd rfl hkind
  | _ => rfl

theorem receive_msg {id : ℤ} (hlo : -2 ^ 31 ≤ id) (hhi : id < 2 ^ 31) (arg : Text)
    (msg_recv : List MsgRcv) (c : Cursors) :
    receive false msg_recv c (bufferId .msg id ++ arg) =
      receiveMsg msg_recv c (bufferId .msg id ++ arg) id (bufferId .msg id).length := by
  obtain ⟨i, hi, hlen⟩ := strstr_bufferId .msg id arg
  simp only [receive, scanHeader_bufferId .msg hlo hhi arg, hi, MsgType.ofCode_code, hlen]
  rfl

/-- The first call of `nextArg` for a line forgets where the last line was left. -/
theorem receive_cursors (ignore_subsequent_msg : Bool) (msg_recv : List MsgRcv) (c c' : Cursors)
    (line : Text) :
    (receive ignore_subsequent_msg msg_recv c line).2 =
      (receive ignore_subsequent_msg msg_recv c' line).2 := by
  have hmsg (id : ℤ) (arg : ℕ) :
      (receiveMsg msg_recv c line id arg).2 = (receiveMsg msg_recv c' line id arg).2 := by
    unfold receiveMsg
    cases msg_recv.find? (id = ·.id) <;> rfl
  unfold receive
  split_ifs
  · rfl
  · split
    · split
      · rfl
      · exact hmsg _ _
      · rfl
    · rfl

end Ivy

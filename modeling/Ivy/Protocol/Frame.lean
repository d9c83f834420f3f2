import Ivy.Protocol.Text

/-! The frames that agents exchange: `"%d %d" ARG_START`, the message, a newline. -/
namespace Ivy

inductive MsgType
  | bye
  | addRegexp
  | msg
  | error
  | delRegexp
  | endRegexp
  | startRegexp
  | directMsg
  | die
  | ping
  | pong
  deriving DecidableEq, Repr

def MsgType.code : MsgType → ℤ
  | .bye => 0
  | .addRegexp => 1
  | .msg => 2
  | .error => 3
  | .delRegexp => 4
  | .endRegexp => 5
  | .startRegexp => 6
  | .directMsg => 7
  | .die => 8
  | .ping => 9
  | .pong => 10

/-- `"%d %d" ARG_START`, as `RegexpCall` formats it into `bufferId`. -/
def bufferId (kind : MsgType) (id : ℤ) : Text :=
  decimal kind.code ++ space :: decimal id ++ [argStart]

/-- `"%d %d" ARG_START "%s\n"`, as `MsgSendTo` formats it. -/
def msgFrame (kind : MsgType) (id : ℤ) (message : Text) : Text :=
  bufferId kind id ++ message ++ [newline]

theorem bufferId_ne_nil (kind : MsgType) (id : ℤ) : bufferId kind id ≠ [] := by simp [bufferId]

/-- `char bufferId[16]` has room for the header of a Msg frame and its terminator. -/
theorem length_bufferId_lt {id : ℤ} (hlo : -2 ^ 31 ≤ id) (hhi : id < 2 ^ 31) :
    (bufferId .msg id).length + 1 < 16 := by
  have hid := length_decimal_le hlo hhi
  have hkind : (decimal MsgType.msg.code).length = 1 := rfl
  simp only [bufferId, List.length_append, List.length_cons, List.length_nil, hkind]
  omega

end Ivy

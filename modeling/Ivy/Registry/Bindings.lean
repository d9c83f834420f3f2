import Ivy.Registry.Lines

/-! The subscriber's side: the bindings of an agent, and the lines that announce them. -/
namespace Ivy.Registry

/-- `msg_recv` and the counter `recv_id`. A binding is known by its id: no two share one. -/
structure Bindings where
  msg_recv : List MsgRcv
  recv_id : ℤ
  ids : (msg_recv.map (·.id)).Nodup
  range : ∀ msg ∈ msg_recv, 0 ≤ msg.id ∧ msg.id < recv_id
  recv : 0 ≤ recv_id ∧ recv_id < 2 ^ 31

namespace Bindings

def empty : Bindings := ⟨[], 0, by simp, by simp, by decide⟩

variable (b : Bindings)

def regexp (id : ℤ) : Option Text := (Keyed.find (·.id) b.msg_recv id).map (·.regexp)

def bind (regexp : Text) (callback : Option ℕ) (user_data : ℕ) (h : b.recv_id + 1 < 2 ^ 31) :
    Bindings where
  msg_recv := ⟨b.recv_id, regexp, callback, user_data⟩ :: b.msg_recv
  recv_id := b.recv_id + 1
  ids := by
    rw [List.map_cons]
    refine b.ids.cons fun hmem => ?_
    obtain ⟨msg, hmsg, hid⟩ := List.mem_map.mp hmem
    exact absurd hid (Int.ne_of_lt (b.range msg hmsg).2)
  range msg hmsg := by
    have hrecv := b.recv
    rcases List.mem_cons.mp hmsg with rfl | hmsg
    · exact ⟨hrecv.1, Int.lt_succ _⟩
    · have hrange := b.range msg hmsg
      exact ⟨hrange.1, by omega⟩
  recv := by
    have hrecv := b.recv
    omega

def setRegexp (id : ℤ) (regexp : Text) (msg : MsgRcv) : MsgRcv :=
  if msg.id = id then { msg with regexp := regexp } else msg

theorem id_setRegexp (id : ℤ) (regexp : Text) (msg : MsgRcv) :
    (setRegexp id regexp msg).id = msg.id := by
  unfold setRegexp
  split_ifs <;> rfl

def change (id : ℤ) (regexp : Text) : Bindings where
  msg_recv := b.msg_recv.map (setRegexp id regexp)
  recv_id := b.recv_id
  ids := Keyed.nodup_map (id_setRegexp id regexp) b.ids
  range msg hmsg := by
    obtain ⟨msg, hmem, rfl⟩ := List.mem_map.mp hmsg
    rw [id_setRegexp]
    exact b.range msg hmem
  recv := b.recv

def unbind (id : ℤ) : Bindings where
  msg_recv := b.msg_recv.filter (·.id ≠ id)
  recv_id := b.recv_id
  ids := b.ids.sublist (List.filter_sublist.map _)
  range msg hmsg := b.range msg (List.mem_of_mem_filter hmsg)
  recv := b.recv

theorem regexp_eq_some {id : ℤ} {r : Text} :
    b.regexp id = some r ↔ ∃ msg ∈ b.msg_recv, msg.id = id ∧ msg.regexp = r := by
  simp [regexp, Keyed.find_eq_some b.ids, and_assoc]

theorem regexp_bind (regexp : Text) (callback : Option ℕ) (user_data : ℕ)
    (h : b.recv_id + 1 < 2 ^ 31) :
    (b.bind regexp callback user_data h).regexp = Function.update b.regexp b.recv_id (some regexp) := by
  funext id
  rw [Bindings.regexp, bind, Keyed.find_cons, Function.update_apply]
  by_cases hid : b.recv_id = id
  · simp [hid]
  · simp [hid, Ne.symm hid, Bindings.regexp]

theorem regexp_change {id : ℤ} (h : b.regexp id ≠ none) (regexp : Text) :
    (b.change id regexp).regexp = Function.update b.regexp id (some regexp) := by
  funext id'
  have hmap : Keyed.find (·.id) (b.change id regexp).msg_recv id' =
      (Keyed.find (·.id) b.msg_recv id').map (setRegexp id regexp) :=
    Keyed.find_map (id_setRegexp id regexp)
  rw [Bindings.regexp, hmap, Function.update_apply]
  cases hfind : Keyed.find (·.id) b.msg_recv id' with
  | none =>
    have hid : id' ≠ id := by
      rintro rfl
      simp [Bindings.regexp, hfind] at h
    simp [hid, Bindings.regexp, hfind]
  | some msg =>
    have hmsg : msg.id = id' := Keyed.find_key hfind
    by_cases hid : id' = id
    · simp [setRegexp, hmsg, hid]
    · simp [setRegexp, hmsg, hid, Bindings.regexp, hfind]

theorem regexp_unbind (id : ℤ) : (b.unbind id).regexp = Function.update b.regexp id none := by
  funext id'
  have hfilter : Keyed.find (·.id) (b.unbind id).msg_recv id' =
      (Keyed.find (·.id) b.msg_recv id').filter (·.id ≠ id) := Keyed.find_filter _ b.ids
  rw [Bindings.regexp, hfilter, Function.update_apply]
  cases hfind : Keyed.find (·.id) b.msg_recv id' with
  | none => simp [Bindings.regexp, hfind]
  | some msg =>
    have hmsg : msg.id = id' := Keyed.find_key hfind
    by_cases hid : id' = id
    · simp [Option.filter_some, hmsg, hid]
    · simp [Option.filter_some, hmsg, hid, Bindings.regexp, hfind]

end Bindings

def OneLine (text : Text) : Prop := 0 ∉ text ∧ newline ∉ text

instance (text : Text) : Decidable (OneLine text) := inferInstanceAs (Decidable (_ ∧ _))

namespace Line

def kind : Line → MsgType
  | .addRegexp _ _ => .addRegexp
  | .delRegexp _ _ => .delRegexp
  | .startRegexp _ _ => .startRegexp
  | .endRegexp _ _ => .endRegexp

def arg : Line → Text
  | .addRegexp _ regexp => regexp
  | .delRegexp _ arg => arg
  | .startRegexp _ arg => arg
  | .endRegexp _ arg => arg

/-- The line can be sent and read back. -/
def Sendable (line : Line) : Prop := (-2 ^ 31 ≤ line.id ∧ line.id < 2 ^ 31) ∧ OneLine line.arg

def frame (line : Line) : Text := msgFrame line.kind line.id line.arg

theorem frame_lines {line : Line} (h : line.Sendable) :
    line.frame = bufferId line.kind line.id ++ line.arg ++ [newline] ∧
      newline ∉ bufferId line.kind line.id ++ line.arg := by
  have hheader := newline_not_mem_bufferId line.kind line.id
  exact ⟨rfl, by simpa using ⟨hheader, h.2.2⟩⟩

/-- `Receive` reads back the line that was sent. -/
theorem ofRequest_receive {line : Line} (h : line.Sendable) (msg_recv : List MsgRcv) (c : Cursors) :
    ofRequest (receive false msg_recv c (bufferId line.kind line.id ++ line.arg)).2 = some line := by
  have hkind : line.kind ≠ .msg := by cases line <;> simp [kind]
  rw [receive_control hkind h.1.1 h.1.2 h.2.1]
  cases line <;> rfl

end Line
end Ivy.Registry

import Ivy.Lib.Block
import Ivy.Lib.Lines
import Ivy.Protocol.Scan
import Mathlib.Tactic.SplitIfs

/-! `SocketWaitForReply`, whose loop reads a reply into the caller's buffer. -/
namespace Ivy.Socket

/-- What `select` and `recv` give a turn of the loop. -/
inductive Turn
  | selectFails
  | timeout
  | recvFails
  | closed
  | received (data : List UInt8)
  deriving DecidableEq

/-- How a call stands: it returned and left this in the buffer, waits for more, or has written outside
of the buffer. -/
inductive Reply
  | returns (ret : ℤ) (buffer : ℕ → UInt8)
  | waiting
  | undefined

def store (size : ℕ) (buffer : ℕ → UInt8) (ptr : ℕ) (data : List UInt8) : Option (ℕ → UInt8) :=
  if ptr + data.length ≤ size then some (Block.write buffer ptr data) else none

/-- `ptr` is the offset where the next bytes go. -/
def waitLoop (size : ℕ) (buffer : ℕ → UInt8) (ptr : ℕ) : List Turn → Reply
  | [] => if size - ptr = 0 then .returns (-1) buffer else .waiting
  | t :: turns =>
    if size - ptr = 0 then .returns (-1) buffer
    else
      match t with
      | .selectFails => .returns (-1) buffer
      | .timeout => .returns (-2) buffer
      | .recvFails => .returns (-1) buffer
      | .closed => .returns 0 buffer
      | .received data =>
        let ptr' := ptr + data.length
        match (store size buffer ptr data).bind fun buffer => store size buffer ptr' [0] with
        | none => .undefined
        | some buffer =>
          match strstr (Block.read buffer 0 size) newline with
          | none => waitLoop size buffer ptr' turns
          | some ptr_nl =>
            match store size buffer ptr_nl [0] with
            | none => .undefined
            | some buffer => .returns ptr_nl buffer

def socketWaitForReply (buffer : ℕ → UInt8) (size : ℕ) (turns : List Turn) : Reply :=
  waitLoop size buffer 0 turns

/-- `recv` gives at least one byte and at most as many as there is room for; the stream has no zero. -/
def PiecesFit (size : ℕ) : ℕ → List Turn → Prop
  | _, [] => True
  | ptr, .received data :: turns =>
    data ≠ [] ∧ data.length ≤ size - ptr ∧ 0 ∉ data ∧ PiecesFit size (ptr + data.length) turns
  | _, _ :: _ => True

def streamOf : List Turn → List UInt8
  | .received data :: turns => data ++ streamOf turns
  | _ => []

/-- How many of them are read, up to the end of the piece that has the terminator. -/
def reach : List Turn → ℕ
  | .received data :: turns => data.length + if newline ∈ data then 0 else reach turns
  | _ => 0

/-- The text before the first terminator is in the buffer, terminated, and its length is returned. -/
def Reply.Gives (r : Reply) (text : Text) : Prop :=
  ∃ buffer, r = .returns text.length buffer ∧ Block.read buffer 0 text.length = text ∧
    buffer text.length = 0

/-- Nothing is written outside of the buffer, and a reply whose terminator is among the first
`size - 1` bytes is given. -/
def InBounds (buffer : ℕ → UInt8) (size : ℕ) (turns : List Turn) : Prop :=
  socketWaitForReply buffer size turns ≠ .undefined ∧
    ∀ text rest, streamOf turns = text ++ newline :: rest → newline ∉ text → text.length < size - 1 →
      (socketWaitForReply buffer size turns).Gives text

/-! ### One turn -/

section
variable {size : ℕ} {buffer : ℕ → UInt8} {acc data : Text} {turns : List Turn}

theorem strstr_none {pre : Text} {c : UInt8} (hc : c ∉ pre) (h0 : c ≠ 0) (rest : Text) :
    strstr (pre ++ 0 :: rest) c = none := by
  induction pre with
  | nil => simp [strstr, Ne.symm h0]
  | cons b pre ih =>
    rw [List.mem_cons, not_or] at hc
    rw [List.cons_append, strstr, if_neg (Ne.symm hc.1), ih hc.2]
    simp

theorem store_piece (hacc : Block.read buffer 0 acc.length = acc)
    (hroom : acc.length + data.length < size) : ∃ b, ((store size buffer acc.length data).bind fun buffer =>
      store size buffer (acc.length + data.length) [0]) = some b ∧
        Block.read b 0 (acc ++ data).length = acc ++ data ∧ b (acc ++ data).length = 0 := by
  have hfirst : store size buffer acc.length data = some (Block.write buffer acc.length data) := if_pos hroom.le
  have hlast (b : ℕ → UInt8) : store size b (acc.length + data.length) [0] =
      some (Block.write b (acc.length + data.length) [0]) := if_pos hroom
  refine ⟨_, by rw [hfirst, Option.bind_some, hlast], ?_, ?_⟩
  · rw [List.length_append, Block.read_write_disjoint _ _ _ (.inl (by omega)), Block.read_add, Nat.zero_add,
      Block.read_write_disjoint _ _ _ (.inl (by omega)), hacc, Block.read_write_self]
  · have hzero : (0 : ℕ) < [(0 : UInt8)].length := Nat.zero_lt_one
    rw [List.length_append]
    exact Block.write_of_mem _ [0] hzero

theorem read_string {b : ℕ → UInt8} (hacc : Block.read b 0 acc.length = acc) (hend : b acc.length = 0)
    (hroom : acc.length < size) : ∃ rest, Block.read b 0 size = acc ++ 0 :: rest := by
  obtain ⟨n, rfl⟩ := Nat.exists_eq_add_of_lt hroom
  refine ⟨Block.read b (acc.length + 1) n, ?_⟩
  rw [Nat.add_assoc, Block.read_add, hacc, Nat.zero_add, Block.read_succ, hend]

theorem waitLoop_found {b : ℕ → UInt8} {text rest : Text} (hblock : Block.read b 0 size = text ++ newline :: rest)
    (hnewline : newline ∉ text) (hzero : 0 ∉ text) :
    strstr (Block.read b 0 size) newline = some text.length ∧ ∃ b', store size b text.length [0] = some b' ∧
      Block.read b' 0 text.length = text ∧ b' text.length = 0 := by
  have hlength := congrArg List.length hblock
  rw [Block.length_read, List.length_append, List.length_cons] at hlength
  refine ⟨by rw [hblock, strstr_append hnewline hzero], _, if_pos ?_, ?_, ?_⟩
  · show text.length + 1 ≤ size
    omega
  · rw [Block.read_write_disjoint _ _ _ (.inl (by omega))]
    rw [hlength, Block.read_add] at hblock
    exact (List.append_inj hblock (Block.length_read _ _ _)).1
  · have hone : (0 : ℕ) < [(0 : UInt8)].length := Nat.zero_lt_one
    exact Block.write_of_mem b [0] hone

/-- A piece that leaves room: the reply is complete, or the loop goes on with all that was received. -/
theorem waitLoop_piece (turns : List Turn) (hacc : Block.read buffer 0 acc.length = acc)
    (hroom : acc.length + data.length < size) (hzero : 0 ∉ acc ++ data) : ∃ b, Block.read b 0 (acc ++ data).length = acc ++ data ∧
      (newline ∉ acc ++ data → waitLoop size buffer acc.length (.received data :: turns) =
        waitLoop size b (acc ++ data).length turns) ∧
      ∀ text rest, acc ++ data = text ++ newline :: rest → newline ∉ text →
        (waitLoop size buffer acc.length (.received data :: turns)).Gives text := by
  obtain ⟨b, hb, hread, hend⟩ := store_piece hacc hroom
  obtain ⟨tail, htail⟩ := read_string hread hend (by rw [List.length_append]; exact hroom)
  have hnonzero : ¬ size - acc.length = 0 := by omega
  refine ⟨b, hread, fun hnewline => ?_, fun text rest htext hnewline => ?_⟩
  · rw [waitLoop, if_neg hnonzero]
    dsimp only
    rw [hb]
    dsimp only
    rw [htail, strstr_none hnewline (by decide), List.length_append]
  · have hblock : Block.read b 0 size = text ++ newline :: (rest ++ 0 :: tail) := by
      rw [htail, htext, List.append_assoc, List.cons_append]
    have hzero' : 0 ∉ text := fun h => hzero (by rw [htext]; exact List.mem_append_left _ h)
    obtain ⟨hfound, b', hb', hread', hend'⟩ := waitLoop_found hblock hnewline hzero'
    refine ⟨b', ?_, hread', hend'⟩
    rw [waitLoop, if_neg hnonzero]
    dsimp only
    rw [hb]
    dsimp only
    rw [hfound]
    dsimp only
    rw [hb']

/-- A piece that fills the buffer: the terminator is written behind it. -/
theorem waitLoop_full (hempty : data ≠ []) (hfull : size = acc.length + data.length) :
    waitLoop size buffer acc.length (.received data :: turns) = .undefined := by
  have hpos := List.length_pos_iff.mpr hempty
  have hfirst : store size buffer acc.length data = some (Block.write buffer acc.length data) := if_pos hfull.ge
  have hlast (b : ℕ → UInt8) : store size b (acc.length + data.length) [0] = none := by
    apply if_neg
    show ¬ acc.length + data.length + 1 ≤ size
    omega
  rw [waitLoop, if_neg (by omega)]
  dsimp only
  rw [hfirst, Option.bind_some, hlast]

end

/-! ### The loop -/

section
variable {size : ℕ} {turns : List Turn}

theorem Reply.Gives.ne_undefined {r : Reply} {text : Text} (h : r.Gives text) : r ≠ .undefined := by
  obtain ⟨buffer, rfl, -⟩ := h
  exact Reply.noConfusion

/-- Without room the loop is not entered; with room another turn than a piece ends it. -/
theorem waitLoop_other {buffer : ℕ → UInt8} {ptr : ℕ} {t : Turn} (ht : ∀ data, t ≠ .received data) :
    waitLoop size buffer ptr (t :: turns) ≠ .undefined := by
  unfold waitLoop
  split_ifs with hfull
  · exact Reply.noConfusion
  · cases t with
    | received data => exact absurd rfl (ht data)
    | _ => exact Reply.noConfusion

/-- While the pieces leave room the buffer holds what was received, without a terminator. -/
theorem waitLoop_reach_lt {buffer : ℕ → UInt8} {acc : Text} (hacc : Block.read buffer 0 acc.length = acc)
    (hzero : 0 ∉ acc) (hnewline : newline ∉ acc) (hfits : PiecesFit size acc.length turns)
    (hreach : acc.length + reach turns < size) :
    waitLoop size buffer acc.length turns ≠ .undefined ∧
      ∀ text rest, acc ++ streamOf turns = text ++ newline :: rest → newline ∉ text →
        (waitLoop size buffer acc.length turns).Gives text := by
  have hnone (text rest : Text) (h : acc ++ [] = text ++ newline :: rest) : False := by
    rw [List.append_nil] at h
    exact hnewline (by rw [h]; simp)
  induction turns generalizing buffer acc with
  | nil =>
    refine ⟨?_, fun text rest htext _ => (hnone text rest htext).elim⟩
    unfold waitLoop
    split_ifs
    · exact Reply.noConfusion
    · exact Reply.noConfusion
  | cons t turns ih =>
    cases t with
    | received data =>
      obtain ⟨-, -, hdata, hrest⟩ := hfits
      have hroom : acc.length + data.length < size := by
        have hle : data.length ≤ reach (.received data :: turns) := Nat.le_add_right _ _
        omega
      have hzero' : 0 ∉ acc ++ data := List.not_mem_append hzero hdata
      obtain ⟨b, hread, hgo, hgives⟩ := waitLoop_piece turns hacc hroom hzero'
      by_cases hmem : newline ∈ data
      · obtain ⟨first, tail, hfirst, hnot⟩ := List.eq_append_cons_of_mem (List.mem_append_right acc hmem)
        have hdone := hgives first tail hfirst hnot
        refine ⟨hdone.ne_undefined, fun text rest htext htext' => ?_⟩
        have hsame : first ++ newline :: (tail ++ streamOf turns) = text ++ newline :: rest := by
          rw [← htext, ← List.cons_append, ← List.append_assoc, ← hfirst, List.append_assoc]
          rfl
        rw [← (Lines.cut_unique hnot htext' hsame).1]
        exact hdone
      · have hnewline' : newline ∉ acc ++ data := List.not_mem_append hnewline hmem
        have hreach' : (acc ++ data).length + reach turns < size := by
          rw [reach, if_neg hmem] at hreach
          rw [List.length_append]
          omega
        rw [← List.length_append] at hrest
        obtain ⟨hdefined, hall⟩ := ih hread hzero' hnewline' hrest hreach' fun text rest h =>
          hnewline' (by rw [List.append_nil] at h; rw [h]; simp)
        rw [hgo hnewline']
        refine ⟨hdefined, fun text rest htext => hall text rest ?_⟩
        rw [List.append_assoc]
        exact htext
    | _ => exact ⟨waitLoop_other fun _ => Turn.noConfusion, fun text rest htext _ => (hnone text rest htext).elim⟩

/-- As soon as they do not, a byte is written behind the buffer. -/
theorem waitLoop_reach_ge {buffer : ℕ → UInt8} {acc : Text} (hacc : Block.read buffer 0 acc.length = acc)
    (hzero : 0 ∉ acc) (hnewline : newline ∉ acc) (hfits : PiecesFit size acc.length turns)
    (hroom : acc.length < size) (hreach : size ≤ acc.length + reach turns) :
    waitLoop size buffer acc.length turns = .undefined := by
  induction turns generalizing buffer acc with
  | nil => exact absurd hreach (Nat.not_le.mpr hroom)
  | cons t turns ih =>
    cases t with
    | received data =>
      obtain ⟨hempty, hle, hdata, hrest⟩ := hfits
      rcases Nat.lt_or_eq_of_le (show acc.length + data.length ≤ size by omega) with hlt | hfull
      · have hmem : newline ∉ data := by
          intro hmem
          rw [reach, if_pos hmem] at hreach
          omega
        have hnewline' : newline ∉ acc ++ data := List.not_mem_append hnewline hmem
        have hzero' : 0 ∉ acc ++ data := List.not_mem_append hzero hdata
        obtain ⟨b, hread, hgo, -⟩ := waitLoop_piece turns hacc hlt hzero'
        rw [reach, if_neg hmem] at hreach
        rw [← List.length_append] at hlt hrest
        rw [hgo hnewline']
        refine ih hread hzero' hnewline' hrest hlt ?_
        rw [List.length_append]
        omega
      · exact waitLoop_full hempty hfull.symm
    | _ => exact absurd hreach (Nat.not_le.mpr hroom)

/-- A call keeps to its buffer and gives the reply exactly if the pieces up to the one with the terminator
leave the last byte of the buffer free. -/
theorem socketWaitForReply_iff (buffer : ℕ → UInt8) (hsize : 1 ≤ size) (hfits : PiecesFit size 0 turns) :
    InBounds buffer size turns ↔ reach turns < size := by
  have hnot {c : UInt8} : c ∉ ([] : Text) := List.not_mem_nil
  have hread : Block.read buffer 0 ([] : Text).length = [] := rfl
  constructor
  · intro h
    by_contra hreach
    refine h.1 (waitLoop_reach_ge hread hnot hnot hfits hsize ?_)
    rw [List.length_nil]
    omega
  · intro hreach
    have hreach' : ([] : Text).length + reach turns < size := by rw [List.length_nil]; omega
    obtain ⟨hdefined, hgives⟩ := waitLoop_reach_lt hread hnot hnot hfits hreach'
    exact ⟨hdefined, fun text rest htext hnewline _ => hgives text rest htext hnewline⟩

end

/-- A reply in two pieces. -/
theorem socketWaitForReply_example :
    InBounds (fun _ => 0) 4 [.received (ascii "o"), .received (ascii "k\n")] := by
  have hfits : PiecesFit 4 0 [.received (ascii "o"), .received (ascii "k\n")] :=
    ⟨by decide, by decide, by decide, by decide, by decide, by decide, trivial⟩
  exact (socketWaitForReply_iff (fun _ => 0) (by decide) hfits).mpr (by decide)

/-- `ok` and its terminator fill the buffer. -/
theorem reply_fills_buffer :
    PiecesFit 3 0 [.received (ascii "ok\n")] ∧
      socketWaitForReply (fun _ => 0) 3 [.received (ascii "ok\n")] = .undefined ∧
      ¬ InBounds (fun _ => 0) 3 [.received (ascii "ok\n")] := by
  have hempty : ascii "ok\n" ≠ [] := by decide
  have hlength : 3 = ([] : Text).length + (ascii "ok\n").length := rfl
  have hfull : socketWaitForReply (fun _ => 0) 3 [.received (ascii "ok\n")] = .undefined :=
    waitLoop_full hempty hlength
  exact ⟨⟨by decide, by decide, by decide, trivial⟩, hfull, fun h => h.1 hfull⟩

end Ivy.Socket

import Ivy.Lib.History
import Ivy.Lib.Machine
import Ivy.Protocol.Buffer
import Mathlib.Algebra.Group.Nat.Defs

/-! The functions of `ivysocket.c` that print what they send into a static buffer. -/
namespace Ivy.Socket
open History

/-- `make_message` with the `int` fields of the buffer: undefined where the new size overflows. A text
that no `int` counts doubles the size until it does. -/
def makeMessageInt (buffer : IvyBuffer) (text : Text) : Option IvyBuffer :=
  let b := allocBuffer buffer
  if text.length < b.size - b.offset ∨ b.offset + text.length + 1 < 2 ^ 31 then
    some (Ivy.makeMessage buffer text)
  else none

/-- Each of the functions has its own static buffer. -/
inductive Sender
  | socketSend
  | socketBroadcast
  | socketSendBroadcast
  | socketSendBroadcast6
  deriving DecidableEq

/-- Where the bytes go: to the connection or the FIFO of a client, or from a socket to an address. -/
inductive Destination
  | client (client : ℕ)
  | ipv4 (client : ℕ) (host : UInt32) (port : UInt16)
  | ipv6 (client : ℕ) (host : BitVec 128) (port : UInt16)
  deriving DecidableEq

/-- What a call hands over. -/
abbrev Given := List (Destination × Text)

/-- `handed` has an entry for each call so far. -/
structure Senders where
  buffers : Sender → IvyBuffer
  handed : List Given

/-- A call with the text that its format prints; `clients_list` is the list at the time of the call. -/
inductive SendCall
  | socketSend (client : Option ℕ) (text : Text)
  | socketBroadcast (clients_list : List ℕ) (text : Text)
  | socketSendBroadcast (client : Option ℕ) (host : UInt32) (port : UInt16) (text : Text)
  | socketSendBroadcast6 (client : Option ℕ) (host : BitVec 128) (port : UInt16) (text : Text)
  deriving DecidableEq

namespace Senders

def initial : Senders := ⟨fun _ => emptyBuffer, []⟩

/-- The text is printed into the buffer, and the first `len` bytes of the block are sent. -/
def sendFormatted (f : Sender) (buffer : IvyBuffer) (text : Text) (destinations : List Destination)
    (s : Senders) : Option Senders :=
  (makeMessageInt buffer text).map fun b =>
    { buffers := Function.update s.buffers f b
      handed := s.handed ++ [destinations.map fun d => (d, Block.read b.data 0 text.length)] }

def nothing (s : Senders) : Senders := { s with handed := s.handed ++ [[]] }

/-- `SocketSendRaw` does nothing for a null client. -/
def socketSend (client : Option ℕ) (text : Text) (s : Senders) : Option Senders :=
  sendFormatted .socketSend (s.buffers .socketSend).reset text (client.toList.map .client) s

/-- The offset of the buffer is not reset here. -/
def socketBroadcast (clients_list : List ℕ) (text : Text) (s : Senders) : Option Senders :=
  sendFormatted .socketBroadcast (s.buffers .socketBroadcast) text (clients_list.map .client) s

def socketSendBroadcast (client : Option ℕ) (host : UInt32) (port : UInt16) (text : Text) (s : Senders) :
    Option Senders :=
  match client with
  | none => some s.nothing
  | some client =>
    sendFormatted .socketSendBroadcast (s.buffers .socketSendBroadcast).reset text [.ipv4 client host port] s

def socketSendBroadcast6 (client : Option ℕ) (host : BitVec 128) (port : UInt16) (text : Text)
    (s : Senders) : Option Senders :=
  match client with
  | none => some s.nothing
  | some client =>
    sendFormatted .socketSendBroadcast6 (s.buffers .socketSendBroadcast6).reset text
      [.ipv6 client host port] s

def step (s : Senders) : SendCall → Option Senders
  | .socketSend client text => socketSend client text s
  | .socketBroadcast clients_list text => socketBroadcast clients_list text s
  | .socketSendBroadcast client host port text => socketSendBroadcast client host port text s
  | .socketSendBroadcast6 client host port text => socketSendBroadcast6 client host port text s

end Senders

namespace SendCall

def destinations : SendCall → List Destination
  | .socketSend client _ => client.toList.map .client
  | .socketBroadcast clients_list _ => clients_list.map .client
  | .socketSendBroadcast client host port _ => client.toList.map (.ipv4 · host port)
  | .socketSendBroadcast6 client host port _ => client.toList.map (.ipv6 · host port)

def text : SendCall → Text
  | .socketSend _ text => text
  | .socketBroadcast _ text => text
  | .socketSendBroadcast _ _ _ text => text
  | .socketSendBroadcast6 _ _ _ text => text

/-- The call's own text, for each of its destinations. -/
def own (e : SendCall) : Given := e.destinations.map fun d => (d, e.text)

/-- What the call leaves in the buffer of `SocketBroadcast`. -/
def accumulates : SendCall → Text
  | .socketBroadcast _ text => text
  | _ => []

/-- The text is printed: a null client stops the two functions for datagrams before that. -/
def prints : SendCall → Bool
  | .socketSend _ _ | .socketBroadcast _ _ => true
  | .socketSendBroadcast client _ _ _ | .socketSendBroadcast6 client _ _ _ => client.isSome

end SendCall

def accumulated (past : List SendCall) : Text := past.flatMap SendCall.accumulates

/-- What the call finds in its buffer, for only `SocketBroadcast` does not reset it. -/
def carried (before : List SendCall) : SendCall → Text
  | .socketBroadcast _ _ => accumulated before
  | _ => []

def Counts (before : List SendCall) (e : SendCall) : Prop :=
  e.prints = true → (carried before e).length + e.text.length + 1 < 2 ^ 31

/-- The call has no destination, or its text is the beginning of all that the buffer then holds. -/
def Harmless (before : List SendCall) (e : SendCall) : Prop :=
  Counts before e ∧ (e.destinations = [] ∨ e.text <+: carried before e ++ e.text)

/-! ### One call -/

section
variable {b : IvyBuffer} {text : Text}

/-- A buffer as `make_message` leaves it, or new. -/
structure InRange (b : IvyBuffer) : Prop where
  allocated : b.Allocated
  size : b.size < 2 ^ 31

theorem InRange.reset (h : InRange b) : InRange b.reset := ⟨allocated_reset b, h.size⟩

theorem InRange.alloc (h : InRange b) : (allocBuffer b).size < 2 ^ 31 := by
  unfold allocBuffer
  split_ifs
  · show ivyBufferSize < 2 ^ 31
    decide
  · exact h.size

theorem makeMessageInt_eq (h : InRange b) : makeMessageInt b text =
    if b.offset + text.length + 1 < 2 ^ 31 then some (Ivy.makeMessage b text) else none := by
  obtain ⟨-, hoffset, -⟩ := allocBuffer_of_allocated h.allocated
  have hsize := h.alloc
  simp only [makeMessageInt, hoffset]
  congr 1
  rw [eq_iff_iff]
  omega

theorem InRange.makeMessage (h : InRange b) (hfits : b.offset + text.length + 1 < 2 ^ 31) :
    InRange (Ivy.makeMessage b text) := by
  obtain ⟨hcontents, hoffset, -⟩ := allocBuffer_of_allocated h.allocated
  refine ⟨(makeMessage_spec h.allocated text).2.1, ?_⟩
  simp only [Ivy.makeMessage, hoffset]
  split_ifs
  · exact h.alloc
  · exact hfits

/-- The first `len` bytes are the beginning of all that was printed since the last reset. -/
theorem read_makeMessage (h : b.Allocated) (text : Text) :
    Block.read (Ivy.makeMessage b text).data 0 text.length = (b.contents ++ text).take text.length := by
  obtain ⟨hcontents, -⟩ := makeMessage_spec h text
  have hoffset : (Ivy.makeMessage b text).offset = text.length + b.offset := by
    have hlength := congrArg List.length hcontents
    simpa [IvyBuffer.contents, Nat.add_comm] using hlength
  rw [← hcontents, IvyBuffer.contents, hoffset, Block.read_add, List.take_left' (Block.length_read _ _ _)]

end

namespace Senders

/-- What the calls so far have left in the buffers. -/
structure Holds (past : List SendCall) (s : Senders) : Prop where
  inRange : ∀ f, InRange (s.buffers f)
  contents : (s.buffers .socketBroadcast).contents = accumulated past

theorem holds_initial : Holds [] initial where
  inRange _ := ⟨fun _ => rfl, Nat.two_pow_pos 31⟩
  contents := rfl

section
variable {past : List SendCall} {s : Senders} {buffer : IvyBuffer}

theorem accumulated_concat (past : List SendCall) (e : SendCall) :
    accumulated (past ++ [e]) = accumulated past ++ e.accumulates := by
  simp [accumulated]

/-- The call hands over the beginning of all that the buffer then holds. -/
theorem sendFormatted_some (h : Holds past s) {e : SendCall} (f : Sender) (hbuffer : InRange buffer)
    (destinations : List Destination) (hfits : buffer.contents.length + e.text.length + 1 < 2 ^ 31)
    (hself : f = .socketBroadcast → buffer.contents = accumulated past ∧ e.accumulates = e.text)
    (hother : f ≠ .socketBroadcast → e.accumulates = []) :
    ∃ t, sendFormatted f buffer e.text destinations s = some t ∧ Holds (past ++ [e]) t ∧
      t.handed = s.handed ++
        [destinations.map fun d => (d, (buffer.contents ++ e.text).take e.text.length)] := by
  have hoffset : buffer.offset + e.text.length + 1 < 2 ^ 31 := by simpa [IvyBuffer.contents] using hfits
  have hmake : makeMessageInt buffer e.text = some (Ivy.makeMessage buffer e.text) := by
    rw [makeMessageInt_eq hbuffer, if_pos hoffset]
  refine ⟨_, congrArg (Option.map _) hmake, ⟨fun g => ?_, ?_⟩, ?_⟩
  · dsimp only
    by_cases hg : g = f
    · subst hg
      rw [Function.update_self]
      exact hbuffer.makeMessage hoffset
    · rw [Function.update_of_ne hg]
      exact h.inRange g
  · dsimp only
    rw [accumulated_concat]
    by_cases hf : f = .socketBroadcast
    · obtain ⟨hcontents, haccumulates⟩ := hself hf
      rw [hf, Function.update_self, (makeMessage_spec hbuffer.allocated _).1, hcontents, haccumulates]
    · rw [Function.update_of_ne (Ne.symm hf), hother hf, List.append_nil]
      exact h.contents
  · dsimp only
    rw [read_makeMessage hbuffer.allocated]

theorem sendFormatted_none (f : Sender) (hbuffer : InRange buffer) (destinations : List Destination)
    {text : Text} (hfits : ¬ buffer.contents.length + text.length + 1 < 2 ^ 31) :
    sendFormatted f buffer text destinations s = none := by
  have hoffset : ¬ buffer.offset + text.length + 1 < 2 ^ 31 := by simpa [IvyBuffer.contents] using hfits
  unfold sendFormatted
  rw [makeMessageInt_eq hbuffer, if_neg hoffset, Option.map_none]

theorem nothing_holds (h : Holds past s) {e : SendCall} (he : e.accumulates = []) :
    Holds (past ++ [e]) s.nothing where
  inRange := h.inRange
  contents := by
    rw [accumulated_concat, he, List.append_nil]
    exact h.contents

theorem step_some (h : Holds past s) {e : SendCall} (hcounts : Counts past e) :
    ∃ t, step s e = some t ∧ Holds (past ++ [e]) t ∧
      t.handed = s.handed ++
        [e.destinations.map fun d => (d, (carried past e ++ e.text).take e.text.length)] := by
  cases e with
  | socketSend client text =>
    exact sendFormatted_some h .socketSend (h.inRange _).reset _ (hcounts rfl)
      (fun hf => absurd hf (by decide)) fun _ => rfl
  | socketBroadcast clients_list text =>
    have hcontents := h.contents
    have hfits := hcounts rfl
    obtain ⟨t, ht, hkept, hhanded⟩ := sendFormatted_some h (e := .socketBroadcast clients_list text)
      .socketBroadcast (h.inRange _) (clients_list.map .client) (hcontents ▸ hfits)
      (fun _ => ⟨hcontents, rfl⟩) fun hf => absurd rfl hf
    rw [hcontents] at hhanded
    exact ⟨t, ht, hkept, hhanded⟩
  | socketSendBroadcast client host port text =>
    cases client with
    | none => exact ⟨_, rfl, nothing_holds h rfl, rfl⟩
    | some client =>
      exact sendFormatted_some h .socketSendBroadcast (h.inRange _).reset _ (hcounts rfl)
        (fun hf => absurd hf (by decide)) fun _ => rfl
  | socketSendBroadcast6 client host port text =>
    cases client with
    | none => exact ⟨_, rfl, nothing_holds h rfl, rfl⟩
    | some client =>
      exact sendFormatted_some h .socketSendBroadcast6 (h.inRange _).reset _ (hcounts rfl)
        (fun hf => absurd hf (by decide)) fun _ => rfl

theorem step_none (h : Holds past s) {e : SendCall} (hcounts : ¬ Counts past e) : step s e = none := by
  obtain ⟨hprints, hlong⟩ := Classical.not_imp.mp hcounts
  cases e with
  | socketSend client text => exact sendFormatted_none .socketSend (h.inRange _).reset _ hlong
  | socketBroadcast clients_list text =>
    exact sendFormatted_none .socketBroadcast (h.inRange _) _ (h.contents.symm ▸ hlong)
  | socketSendBroadcast client host port text =>
    cases client with
    | none => exact absurd hprints Bool.false_ne_true
    | some client => exact sendFormatted_none .socketSendBroadcast (h.inRange _).reset _ hlong
  | socketSendBroadcast6 client host port text =>
    cases client with
    | none => exact absurd hprints Bool.false_ne_true
    | some client => exact sendFormatted_none .socketSendBroadcast6 (h.inRange _).reset _ hlong

end

/-- Each destination gets the call's own text exactly if that is what the block begins with. -/
theorem map_take_eq_own {e : SendCall} {carry : Text} :
    (e.destinations.map fun d => (d, (carry ++ e.text).take e.text.length)) = e.own ↔
      e.destinations = [] ∨ e.text <+: carry ++ e.text := by
  unfold SendCall.own
  rw [List.map_inj_left, List.prefix_iff_eq_take]
  constructor
  · intro h
    cases hd : e.destinations with
    | nil => exact .inl rfl
    | cons d ds => exact .inr (congrArg Prod.snd (h d (by rw [hd]; exact List.mem_cons_self))).symm
  · rintro (hnone | htake) d hd
    · rw [hnone] at hd
      exact absurd hd List.not_mem_nil
    · rw [← htake]

/-- In a run every call hands its own text to its destinations exactly if each call is harmless. -/
theorem handed_own_iff (calls : List SendCall) :
    (∃ s, Machine.run step initial calls = some s ∧ s.handed = calls.map SendCall.own) ↔
      Placed Harmless calls := by
  have hholds (calls : List SendCall) {s : Senders} (hs : Machine.run step initial calls = some s) :
      Holds calls s := by
    refine Machine.run_reaches holds_initial (fun past s e t h ht => ?_) hs
    by_cases hcounts : Counts past e
    · obtain ⟨u, hu, hkept, -⟩ := step_some h hcounts
      exact Option.some.inj (ht.symm.trans hu) ▸ hkept
    · rw [step_none h hcounts] at ht
      exact absurd ht (by simp)
  induction calls using List.reverseRecOn with
  | nil => exact ⟨fun _ => placed_nil, fun _ => ⟨initial, rfl, rfl⟩⟩
  | append_singleton calls e ih =>
    rw [placed_concat]
    constructor
    · rintro ⟨t, ht, hhanded⟩
      rw [Machine.run_concat] at ht
      obtain ⟨s, hs, hstep⟩ := Option.bind_eq_some_iff.mp ht
      have hcounts : Counts calls e := by
        by_contra hcounts
        rw [step_none (hholds calls hs) hcounts] at hstep
        exact absurd hstep (by simp)
      obtain ⟨u, hu, -, hgiven⟩ := step_some (hholds calls hs) hcounts
      obtain rfl := Option.some.inj (hstep.symm.trans hu)
      rw [hgiven, List.map_append, List.map_singleton] at hhanded
      obtain ⟨hold, hnew⟩ := List.append_inj' hhanded rfl
      exact ⟨ih.mp ⟨s, hs, hold⟩, hcounts, map_take_eq_own.mp (List.singleton_inj.mp hnew)⟩
    · rintro ⟨hcalls, hcounts, hown⟩
      obtain ⟨s, hs, hold⟩ := ih.mpr hcalls
      obtain ⟨t, ht, -, hgiven⟩ := step_some (hholds calls hs) hcounts
      refine ⟨t, ?_, ?_⟩
      · rw [Machine.run_concat, hs, Option.bind_some, ht]
      · rw [hgiven, hold, map_take_eq_own.mpr hown, List.map_append, List.map_singleton]

/-- The second call hands over the text of the first. -/
theorem broadcast_repeats :
    let calls : List SendCall := [.socketBroadcast [1] (ascii "a"), .socketBroadcast [1] (ascii "b")]
    (∃ s, Machine.run step initial calls = some s ∧
      s.handed = [[(.client 1, ascii "a")], [(.client 1, ascii "a")]]) ∧
    ¬ ∃ s, Machine.run step initial calls = some s ∧ s.handed = calls.map SendCall.own := by
  intro calls
  have hrun : (Machine.run step initial calls).map (·.handed) =
      some [[(.client 1, ascii "a")], [(.client 1, ascii "a")]] := by decide
  obtain ⟨s, hs, hhanded⟩ := Option.map_eq_some_iff.mp hrun
  refine ⟨⟨s, hs, hhanded⟩, ?_⟩
  rintro ⟨t, ht, hown⟩
  obtain rfl := Option.some.inj (hs.symm.trans ht)
  rw [hhanded] at hown
  exact absurd hown (by decide)

end Senders

end Ivy.Socket

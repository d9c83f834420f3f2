import Ivy.Socket.Reassembly

/-! Datagrams of the broadcast socket go through `HandleSocket`, which reassembles a stream. -/
namespace Ivy.Discovery
open Socket

/-- `BroadcastReceive` only reads the line. -/
def broadcastReceive : Interpretation := fun _ mem _ => mem

theorem broadcastReceive_writesInside : broadcastReceive.WritesInside := fun _ _ _ _ _ _ _ => rfl

/-- A channel that was removed is not read again. -/
def receiveDatagram (c : Receiver) (d : List UInt8) : Receiver :=
  if c.tobedeleted then c else handleSocket broadcastReceive c (.bytes d)

def after (ds : List (List UInt8)) : Receiver := Machine.exec receiveDatagram newReceiver ds

/-- A datagram that is one line, of at most `IVY_BUFFER_SIZE` bytes. -/
def SingleLine (line : Text) (d : List UInt8) : Prop :=
  d = line ++ [newline] ∧ newline ∉ line ∧ d.length ≤ ivyBufferSize

/-- The channel stays, and each datagram that is one line is handed to `BroadcastReceive`. -/
structure Isolated (ds : List (List UInt8)) : Prop where
  stays : (after ds).tobedeleted = false
  delivers : ∀ past d rest line, ds = past ++ d :: rest → SingleLine line d →
    (after (past ++ [d])).delivered = (after past).delivered ++ [line]

/-- No datagram is empty, and one that is a line comes when no rest of another is held. -/
def Undisturbed (ds : List (List UInt8)) : Prop :=
  ∀ past d rest, ds = past ++ d :: rest → d ≠ [] ∧ ∀ line, SingleLine line d → (after past).ptr = 0

theorem after_concat (ds : List (List UInt8)) (d : List UInt8) :
    after (ds ++ [d]) = receiveDatagram (after ds) d := Machine.exec_concat _ _ _

/-- What holds of the receiver as long as it is read. -/
structure Listening (c : Receiver) : Prop where
  fits : c.Fits
  tail : newline ∉ c.held
  size : ivyBufferSize ≤ c.buffer_size

theorem le_buffer_size_withRoom (c : Receiver) : c.buffer_size ≤ c.withRoom.buffer_size := by
  unfold Receiver.withRoom
  split_ifs
  · dsimp only
    omega
  · exact Nat.le_refl _

theorem handleSocket_take (cb : Interpretation) (c : Receiver) (d : List UInt8) :
    handleSocket cb c (.bytes d) = handleSocket cb c (.bytes (d.take (nbToRead c))) := by
  have hmin : min d.length (nbToRead c) = min (d.take (nbToRead c)).length (nbToRead c) := by
    rw [List.length_take]
    omega
  have htake : d.take (min d.length (nbToRead c)) =
      (d.take (nbToRead c)).take (min d.length (nbToRead c)) := by
    rw [List.take_take]
    congr 1
    omega
  simp only [handleSocket, ← hmin, ← htake]

theorem handleSocket_buffer_size (cb : Interpretation) (c : Receiver) (r : Received) :
    (handleSocket cb c r).buffer_size = c.withRoom.buffer_size := by
  unfold handleSocket
  grind [ivyChannelRemove]

/-- Only an empty datagram removes the channel. -/
theorem handleSocket_tobedeleted {cb : Interpretation} {c : Receiver} (hc : c.Fits)
    (hopen : c.tobedeleted = false) (d : List UInt8) :
    (handleSocket cb c (.bytes d)).tobedeleted = true ↔ d = [] := by
  have hroom := (withRoom_spec hc).2
  have hsame : c.withRoom.tobedeleted = false := by
    unfold Receiver.withRoom
    split_ifs <;> exact hopen
  have hnb : min d.length (nbToRead c) = 0 ↔ d = [] := by
    rw [← List.length_eq_zero_iff]
    omega
  unfold handleSocket
  dsimp only
  simp only [hnb]
  split_ifs with hd hpartial
  · exact iff_of_true rfl hd
  · exact iff_of_false (by simp [hsame]) hd
  · exact iff_of_false (by simp [hsame]) hd

section
variable {c : Receiver} (h : Listening c) {d : List UInt8} (hd : d ≠ [])
include h hd

/-- One datagram delivers the lines that end in the part that was read. -/
theorem handleSocket_listening :
    Listening (handleSocket broadcastReceive c (.bytes d)) ∧
      ∃ ls, (handleSocket broadcastReceive c (.bytes d)).delivered = c.delivered ++ ls ∧
        Lines newline (c.held ++ d.take (nbToRead c)) ls
          (handleSocket broadcastReceive c (.bytes d)).held := by
  have hroom := (withRoom_spec h.fits).2
  have hlen : 0 < (d.take (nbToRead c)).length := by
    have hpos := List.length_pos_of_ne_nil hd
    rw [List.length_take]
    omega
  have hle : (d.take (nbToRead c)).length ≤ nbToRead c := List.length_take_le _ _
  rw [handleSocket_take]
  obtain ⟨hfits, ls, hdelivered, hlines⟩ :=
    handleSocket_spec broadcastReceive_writesInside h.fits hlen hle
  refine ⟨⟨hfits, hlines.tail, ?_⟩, ls, hdelivered, hlines⟩
  rw [handleSocket_buffer_size]
  exact Nat.le_trans h.size (le_buffer_size_withRoom c)

/-- A line is delivered as it is exactly if nothing was held before it. -/
theorem handleSocket_singleLine {line : Text} (hline : SingleLine line d) :
    (handleSocket broadcastReceive c (.bytes d)).delivered = c.delivered ++ [line] ↔ c.ptr = 0 := by
  obtain ⟨-, ls, hdelivered, hlines⟩ := handleSocket_listening h hd
  obtain ⟨rfl, hnl, hsize⟩ := hline
  have hheld : c.held = [] ↔ c.ptr = 0 := by
    rw [← List.length_eq_zero_iff, Receiver.held, Block.length_read]
  have hwhole : Lines newline (c.held ++ (line ++ [newline])) [c.held ++ line] [] := by
    rw [← List.append_assoc]
    exact .cons (by simpa using ⟨h.tail, hnl⟩) (.of_not_mem (by simp))
  rw [hdelivered, List.append_cancel_left_eq, ← hheld]
  by_cases hcut : nbToRead c ≤ line.length
  · -- the newline is cut off, and no line is delivered
    have hread : newline ∉ c.held ++ (line ++ [newline]).take (nbToRead c) := by
      rw [List.take_append_of_le_length hcut]
      simpa using ⟨h.tail, fun hmem => hnl (List.mem_of_mem_take hmem)⟩
    obtain rfl := (hlines.unique (.of_not_mem hread)).1
    have hfull : c.held ≠ [] := by
      intro hnil
      have hroom := (withRoom_spec h.fits).1
      have hgrows := le_buffer_size_withRoom c
      have hbig := h.size
      rw [List.length_append, List.length_singleton] at hsize
      rw [hheld] at hnil
      omega
    exact iff_of_false (by simp) hfull
  · have hall : (line ++ [newline]).length ≤ nbToRead c := by
      rw [List.length_append, List.length_singleton]
      omega
    rw [List.take_of_length_le hall] at hlines
    obtain rfl := (hlines.unique hwhole).1
    simp

end

theorem newReceiver_listening : Listening newReceiver :=
  ⟨⟨Nat.zero_le _, by decide⟩, by simp [Receiver.held, newReceiver], Nat.le_refl _⟩

/-- As long as no datagram was empty the socket is read. -/
theorem after_listening (ds : List (List UInt8)) (h : (after ds).tobedeleted = false) :
    Listening (after ds) ∧ ∀ d ∈ ds, d ≠ [] := by
  induction ds using List.reverseRecOn with
  | nil => exact ⟨newReceiver_listening, by simp⟩
  | append_singleton ds d ih =>
    rw [after_concat, receiveDatagram] at h ⊢
    have hopen : (after ds).tobedeleted = false := by
      by_contra hgone
      rw [if_pos (by simpa using hgone)] at h
      exact hgone h
    rw [if_neg (by simp [hopen])] at h ⊢
    obtain ⟨hlisten, hds⟩ := ih hopen
    have hd : d ≠ [] := fun hnil => by
      rw [(handleSocket_tobedeleted hlisten.fits hopen d).mpr hnil] at h
      exact Bool.false_ne_true h.symm
    refine ⟨(handleSocket_listening hlisten hd).1, fun d' hd' => ?_⟩
    rcases List.mem_append.mp hd' with hd' | hd'
    · exact hds d' hd'
    · exact List.mem_singleton.mp hd' ▸ hd

theorem after_stays (ds : List (List UInt8)) (h : ∀ d ∈ ds, d ≠ []) :
    (after ds).tobedeleted = false := by
  induction ds using List.reverseRecOn with
  | nil => rfl
  | append_singleton ds d ih =>
    have hopen := ih fun d' hd' => h d' (by simp [hd'])
    have hlisten := (after_listening ds hopen).1
    rw [after_concat, receiveDatagram, if_neg (by simp [hopen])]
    by_contra hgone
    exact h d (by simp) ((handleSocket_tobedeleted hlisten.fits hopen d).mp (by simpa using hgone))

/-- Discovery is isolated exactly if the datagrams do not disturb each other. -/
theorem discovery_isolation (ds : List (List UInt8)) : Isolated ds ↔ Undisturbed ds := by
  have hstep (past d line) (hopen : (after past).tobedeleted = false) (hd : d ≠ [])
      (hline : SingleLine line d) :
      (after (past ++ [d])).delivered = (after past).delivered ++ [line] ↔ (after past).ptr = 0 := by
    have hlisten := (after_listening past hopen).1
    rw [after_concat, receiveDatagram, if_neg (by simp [hopen])]
    exact handleSocket_singleLine hlisten hd hline
  constructor
  · intro h past d rest hds
    have hall := (after_listening ds h.stays).2
    subst hds
    have hopen := after_stays past fun d' hd' => hall d' (by simp [hd'])
    have hd := hall d (by simp)
    exact ⟨hd, fun line hline => (hstep past d line hopen hd hline).mp (h.delivers past d rest line rfl hline)⟩
  · intro h
    have hall : ∀ d ∈ ds, d ≠ [] := by
      intro d hd
      obtain ⟨past, rest, hds⟩ := List.append_of_mem hd
      exact (h past d rest hds).1
    refine ⟨after_stays ds hall, fun past d rest line hds hline => ?_⟩
    obtain ⟨hd, hptr⟩ := h past d rest hds
    subst hds
    have hopen := after_stays past fun d' hd' => hall d' (by simp [hd'])
    exact (hstep past d line hopen hd hline).mpr (hptr line hline)

/-- One byte without a newline, then a hello: the line delivered is the two together. -/
theorem discovery_disturbed : ¬ Isolated [[120], ascii "3 2010 id name" ++ [newline]] := by
  intro h
  have hline : SingleLine (ascii "3 2010 id name") (ascii "3 2010 id name" ++ [newline]) := by
    refine ⟨rfl, ?_, ?_⟩ <;> decide
  have hdelivered := h.delivers [[120]] _ [] _ rfl hline
  exact absurd hdelivered (by decide +kernel)

end Ivy.Discovery

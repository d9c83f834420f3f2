import Ivy.Socket.Receive

/-! The lines delivered are those of the stream, however `recvfrom` cuts it. -/
namespace Ivy.Socket

/-- `ptr` stays inside a buffer that is never empty. -/
def Receiver.Fits (c : Receiver) : Prop := c.ptr ≤ c.buffer_size ∧ 0 < c.buffer_size

theorem withRoom_spec {c : Receiver} (h : c.Fits) :
    c.ptr + nbToRead c = c.withRoom.buffer_size ∧ 0 < nbToRead c := by
  obtain ⟨hle, hpos⟩ := h
  unfold nbToRead Receiver.withRoom
  split_ifs with hfull
  · dsimp only
    omega
  · omega

theorem held_append (c : Receiver) (data : List UInt8) :
    Block.read (Block.write c.buffer c.ptr data) 0 (c.ptr + data.length) = c.held ++ data := by
  rw [Block.read_add, Nat.zero_add, Block.read_write_self,
    Block.read_write_disjoint _ _ _ (.inl (by omega))]
  rfl

/-- One read delivers the lines it completes and holds the new tail. -/
theorem handleSocket_spec {cb : Interpretation} (hcb : cb.WritesInside) {c : Receiver}
    (hc : c.Fits) {data : List UInt8} (hpos : 0 < data.length) (hle : data.length ≤ nbToRead c) :
    (handleSocket cb c (.bytes data)).Fits ∧
      ∃ ls, (handleSocket cb c (.bytes data)).delivered = c.delivered ++ ls ∧
        Lines newline (c.held ++ data) ls (handleSocket cb c (.bytes data)).held := by
  obtain ⟨hroom, hnb⟩ := withRoom_spec hc
  have hmin : min data.length (nbToRead c) = data.length := by omega
  obtain ⟨hstop, ls, hlog, hlines⟩ := deliverLines_spec hcb
    (Block.write c.buffer c.ptr data) 0 c.delivered (Nat.zero_le (c.ptr + data.length))
  rw [Nat.sub_zero, held_append] at hlines
  unfold handleSocket
  dsimp only
  rw [hmin, if_neg (by omega), List.take_length]
  generalize deliverLines cb (c.ptr + data.length) _ 0 c.delivered = r at hstop hlog hlines ⊢
  split_ifs with hpartial
  · refine ⟨⟨by dsimp only; omega, by dsimp only; omega⟩, ls, hlog, ?_⟩
    change Lines newline _ ls (Block.read (Block.write r.1 0 _) 0 _)
    rw [Block.read_write_length _ _ (Block.length_read _ _ _)]
    exact hlines
  · have hdone : r.2.1 = c.ptr + data.length := by omega
    rw [hdone, Nat.sub_self] at hlines
    exact ⟨⟨Nat.zero_le _, by dsimp only; omega⟩, ls, hlog, hlines⟩

/-- A read of a non-empty chunk that `recvfrom` can return. -/
def recvStep (cb : Interpretation) (c : Receiver) (chunk : List UInt8) : Option Receiver :=
  if 0 < chunk.length ∧ chunk.length ≤ nbToRead c then some (handleSocket cb c (.bytes chunk))
  else none

def Reassembled (past : List (List UInt8)) (c : Receiver) : Prop :=
  c.Fits ∧ Lines newline past.flatten c.delivered c.held

theorem newReceiver_reassembled : Reassembled [] newReceiver :=
  ⟨⟨Nat.zero_le _, by decide⟩, .of_not_mem (by simp)⟩

theorem recvStep_reassembled {cb : Interpretation} (hcb : cb.WritesInside)
    {past : List (List UInt8)} {c d : Receiver} {chunk : List UInt8} (h : Reassembled past c)
    (hstep : recvStep cb c chunk = some d) : Reassembled (past ++ [chunk]) d := by
  unfold recvStep at hstep
  split_ifs at hstep with hchunk
  obtain rfl := Option.some.inj hstep
  obtain ⟨hfits, ls, hdelivered, hlines⟩ := handleSocket_spec hcb h.1 hchunk.1 hchunk.2
  refine ⟨hfits, ?_⟩
  rw [hdelivered, List.flatten_append, List.flatten_singleton]
  exact h.2.append hlines

/-- The lines delivered are the terminated segments of the stream and the buffer holds
its tail, so the lines do not depend on the chunks. -/
theorem stream_reassembly (cb : Interpretation) (hcb : cb.WritesInside)
    (chunks : List (List UInt8)) (c : Receiver)
    (hrun : Machine.run (recvStep cb) newReceiver chunks = some c) :
    Lines newline chunks.flatten c.delivered c.held ∧ c.ptr ≤ c.buffer_size ∧
      ∀ chunks' c', Machine.run (recvStep cb) newReceiver chunks' = some c' →
        chunks'.flatten = chunks.flatten → c'.delivered = c.delivered ∧ c'.held = c.held := by
  have hreach : ∀ chunks c, Machine.run (recvStep cb) newReceiver chunks = some c →
      Reassembled chunks c := fun _ _ =>
    Machine.run_reaches newReceiver_reassembled fun _ _ _ _ => recvStep_reassembled hcb
  obtain ⟨hfits, hlines⟩ := hreach chunks c hrun
  refine ⟨hlines, hfits.1, fun chunks' c' hrun' heq => ?_⟩
  exact (heq ▸ (hreach chunks' c' hrun').2).unique hlines

/-- `recvfrom` is offered room in every state. -/
theorem nbToRead_pos {cb : Interpretation} (hcb : cb.WritesInside) {chunks : List (List UInt8)} {c : Receiver}
    (hrun : Machine.run (recvStep cb) newReceiver chunks = some c) : 0 < nbToRead c := by
  have hreach : Reassembled chunks c :=
    Machine.run_reaches newReceiver_reassembled (fun _ _ _ _ => recvStep_reassembled hcb) hrun
  exact (withRoom_spec hreach.1).2

/-- So every stream has a run, byte by byte at the worst. -/
theorem stream_received {cb : Interpretation} (hcb : cb.WritesInside) (stream : List UInt8) :
    ∃ chunks c, chunks.flatten = stream ∧ Machine.run (recvStep cb) newReceiver chunks = some c := by
  have hbytes : Machine.Guarded (recvStep cb) (fun _ chunk => chunk.length = 1) newReceiver
      (stream.map fun b => [b]) := by
    apply Machine.guarded_of_forall
    intro _ chunk hchunk
    obtain ⟨b, -, rfl⟩ := List.mem_map.mp hchunk
    rfl
  obtain ⟨c, hrun, -⟩ := Machine.run_history newReceiver_reassembled (fun past c chunk h hone => by
    have hroom := (withRoom_spec h.1).2
    have hstep : recvStep cb c chunk = some (handleSocket cb c (.bytes chunk)) := if_pos (by omega)
    exact ⟨_, hstep, recvStep_reassembled hcb h hstep⟩) hbytes
  exact ⟨_, c, by rw [← List.flatMap_def]; exact List.flatMap_singleton' stream, hrun⟩

/-- A callback that overwrites the first byte of its line. -/
def stamp : Interpretation := fun _ mem ptr => Function.update mem ptr 0

theorem stamp_writesInside : stamp.WritesInside := fun _ mem ptr n _ i hi =>
  Function.update_of_ne (by omega) _ _

theorem stream_reassembly_example :
    ∃ c, Machine.run (recvStep stamp) newReceiver [[65], [66, 10, 67]] = some c ∧
      Lines newline [[65], [66, 10, 67]].flatten c.delivered c.held := by
  obtain ⟨c, hc⟩ : ∃ c, Machine.run (recvStep stamp) newReceiver [[65], [66, 10, 67]] = some c := by
    apply Option.isSome_iff_exists.mp
    decide +kernel
  exact ⟨c, hc, (stream_reassembly stamp stamp_writesInside _ c hc).1⟩

end Ivy.Socket

import Ivy.Fifo.SendSocket
import Ivy.Lib.Machine

/-! The FIFO as a byte queue: every sequence of calls from `IvyFifoInit` keeps the
queue laws, and a write is refused only at the size limit or while `full` is sticky. -/
namespace Ivy.Fifo

inductive Call
  | write (buf : List UInt8)
  | read (buf_size : ℕ)
  | sendSocket (results : List SendResult)

def Call.size : Call → ℕ
  | .write buf => buf.length
  | .read n => n
  | .sendSocket _ => 0

def call (f : IvyFifoBuffer) : Call → IvyFifoBuffer
  | .write buf => ivyFifoWrite f buf
  | .read n => (ivyFifoRead f n).fifo
  | .sendSocket results => (ivyFifoSendSocket f results).fifo

def drained (f : IvyFifoBuffer) : Call → List UInt8
  | .write _ => []
  | .read n => (ivyFifoRead f n).dest
  | .sendSocket results => (ivyFifoSendSocket f results).sent

def fifoAfter (calls : List Call) : IvyFifoBuffer := Machine.exec call ivyFifoInit calls

/-- A non-empty write left the queue as it was. -/
def Refused (f : IvyFifoBuffer) (buf : List UInt8) : Prop :=
  buf ≠ [] ∧ (ivyFifoWrite f buf).contents = f.contents

/-- Some write of the history was refused and no byte has been drained after it. -/
def RefusedSince (calls : List Call) : Prop :=
  ∃ past buf later, calls = past ++ .write buf :: later ∧ Refused (fifoAfter past) buf ∧
    ∀ mid c rest, later = mid ++ c :: rest →
      drained (fifoAfter (past ++ .write buf :: mid)) c = []

theorem RefusedSince.snoc {calls : List Call} {c : Call} (h : RefusedSince calls)
    (hc : drained (fifoAfter calls) c = []) : RefusedSince (calls ++ [c]) := by
  obtain ⟨past, buf, later, rfl, hrefused, hlater⟩ := h
  refine ⟨past, buf, later ++ [c], by simp, hrefused, fun mid d rest heq => ?_⟩
  rcases List.eq_nil_or_concat rest with rfl | ⟨rest, e, rfl⟩
  · obtain ⟨rfl, rfl⟩ : later = mid ∧ c = d := by simpa using List.append_inj' heq rfl
    exact hc
  · have hinit : later ++ [c] = (mid ++ d :: rest) ++ [e] := by simpa using heq
    exact hlater mid d rest (List.append_inj' hinit rfl).1

theorem refusedSince_concat {calls : List Call} {buf : List UInt8}
    (h : Refused (fifoAfter calls) buf) : RefusedSince (calls ++ [.write buf]) :=
  ⟨calls, buf, [], rfl, h, fun mid c rest heq => by simp at heq⟩

theorem fifoAfter_concat (calls : List Call) (c : Call) :
    fifoAfter (calls ++ [c]) = call (fifoAfter calls) c := Machine.exec_concat _ _ _

/-- A write leaves `full` set if it is refused, or empty and `full` was set before. -/
theorem refusedSince_write {calls : List Call} {buf : List UInt8} (hbuf : buf.length ≤ intMax)
    (hbefore : (fifoAfter calls).full = true → RefusedSince calls)
    (hfull : (ivyFifoWrite (fifoAfter calls) buf).full = true) :
    RefusedSince (calls ++ [.write buf]) := by
  by_cases hadm : Admits (fifoAfter calls) buf.length
  · rw [(ivyFifoWrite_of_admits _ buf hbuf hadm).2] at hfull
    simp at hfull
  have hw := ivyFifoWrite_of_not_admits _ buf hbuf hadm
  by_cases hnil : buf = []
  · have havail : ¬ buf.length ≥ ivyFifoAvail (fifoAfter calls) := by
      have := ivyFifoLength_lt_stop (fifoAfter calls)
      rw [hnil]
      simp only [List.length_nil, ivyFifoAvail, ivyFifoSize]
      omega
    rw [Admits, if_neg havail, Bool.not_eq_false] at hadm
    exact (hbefore hadm).snoc rfl
  · exact refusedSince_concat ⟨hnil, by rw [hw, contents_full]⟩

/-- A set `full` flag is left over from a refused write. -/
theorem refusedSince_of_full {calls : List Call} (hsize : ∀ c ∈ calls, c.size ≤ intMax) :
    (fifoAfter calls).full = true → RefusedSince calls := by
  induction calls using List.reverseRecOn with
  | nil => simp [fifoAfter]
  | append_singleton calls c ih =>
    have ih := ih fun d hd => hsize d (by simp [hd])
    have hc : c.size ≤ intMax := hsize c (by simp)
    rw [fifoAfter_concat]
    cases c with
    | write buf => exact refusedSince_write hc ih
    | read n =>
      obtain ⟨-, hdest, -, hf⟩ := ivyFifoRead_spec (fifoAfter calls) n
      change (ivyFifoRead _ n).fifo.full = true → _
      rw [hf]
      split_ifs with hpos
      · simp
      · intro hfull
        refine (ih hfull).snoc ?_
        change (ivyFifoRead _ n).dest = []
        rw [hdest, List.take_eq_nil_iff, ← List.length_eq_zero_iff, length_contents]
        omega
    | sendSocket results =>
      have hcorrect := ivyFifoSendSocket_correct (fifoAfter calls) results
      change (ivyFifoSendSocket _ results).fifo.full = true → _
      rw [hcorrect.full]
      split_ifs with hnil
      · exact fun hfull => (ih hfull).snoc hnil
      · simp

/-- The laws of a byte queue, for the FIFO reached by `calls` and any next call. -/
structure QueueLaws (calls : List Call) (f : IvyFifoBuffer) : Prop where
  start : calls = [] → f.contents = []
  rptr_lt : f.rptr < ivyFifoSize f
  wptr_lt : f.wptr < ivyFifoSize f
  length_eq : ivyFifoLength f = f.contents.length
  length_lt : ivyFifoLength f < ivyFifoSize f
  size_le : ivyFifoSize f ≤ ivyFifoMaxAllocSize
  write : ∀ buf, 0 < buf.length → buf.length ≤ intMax →
    (ivyFifoWrite f buf).contents = f.contents ++ buf ∧ (ivyFifoWrite f buf).full = false ∨
    (ivyFifoWrite f buf).contents = f.contents ∧ (ivyFifoWrite f buf).full = true ∧
      (alignedNewSize (ivyFifoLength f + buf.length) > ivyFifoMaxAllocSize ∨ RefusedSince calls)
  read : ∀ n, (ivyFifoRead f n).dest = f.contents.take n ∧
    (ivyFifoRead f n).retV = min n f.contents.length ∧
    (ivyFifoRead f n).fifo.contents = f.contents.drop n
  sendSocket : ∀ results, let r := ivyFifoSendSocket f results
    Sends f.contents results r.calls r.fifo.contents r.ret ∧
      OffersPrefixes f.contents r.calls ∧ f.contents = r.sent ++ r.fifo.contents ∧
      (∀ v ∈ r.ret, v = r.fifo.contents.length ∨ v = ivyFifoSendError) ∧
      (2 ≤ (uninterrupted results).length → r.ret.isSome)

/-- The congestion FIFO refines a byte queue. -/
theorem fifo_refines_queue (calls : List Call) (hsize : ∀ c ∈ calls, c.size ≤ intMax) :
    QueueLaws calls (fifoAfter calls) where
  start h := by rw [h]; exact ivyFifoInit_contents
  rptr_lt := (fifoAfter calls).rptr_lt
  wptr_lt := (fifoAfter calls).wptr_lt
  length_eq := (length_contents _).symm
  length_lt := ivyFifoLength_lt_stop _
  size_le := (fifoAfter calls).stop_le
  write buf _ hbuf := by
    by_cases hadm : Admits (fifoAfter calls) buf.length
    · exact .inl (ivyFifoWrite_of_admits _ buf hbuf hadm)
    · rw [ivyFifoWrite_of_not_admits _ buf hbuf hadm]
      refine .inr ⟨rfl, rfl, ?_⟩
      unfold Admits at hadm
      split_ifs at hadm with hbig
      · left
        rw [Nat.add_comm, alignedNewSize_gt_max (request_lt _ buf hbuf)]
        omega
      · exact .inr (refusedSince_of_full hsize (by simpa using hadm))
  read n := by
    obtain ⟨hret, hdest, hc, -⟩ := ivyFifoRead_spec (fifoAfter calls) n
    exact ⟨hdest, by rw [hret, length_contents], hc⟩
  sendSocket results := by
    have h := ivyFifoSendSocket_correct (fifoAfter calls) results
    exact ⟨ivyFifoSendSocket_sends _ results, h.offers, h.queue, by simpa only [length_contents] using h.ret,
      fun h2 => ivyFifoSendSocket_returns _ _ (.inl h2)⟩

theorem fifo_refines_queue_example :
    QueueLaws [.write [65, 66, 67], .read 1, .sendSocket [.interrupted, .accepted 1]]
      (fifoAfter [.write [65, 66, 67], .read 1, .sendSocket [.interrupted, .accepted 1]]) :=
  fifo_refines_queue _ (by simp [Call.size, intMax])

end Ivy.Fifo

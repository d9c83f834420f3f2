import Ivy.Fifo.Buffer

/-! The byte queue that a FIFO holds, and what each operation does to it. -/
namespace Ivy.Fifo

def IvyFifoBuffer.contents (f : IvyFifoBuffer) : List UInt8 :=
  Ring.read f.buffer f.stop f.rptr (ivyFifoLength f)

@[simp] theorem length_contents (f : IvyFifoBuffer) : f.contents.length = ivyFifoLength f :=
  Ring.length_read _ f.rptr_lt.le

theorem advance_length (f : IvyFifoBuffer) :
    Ring.advance f.stop f.rptr (ivyFifoLength f) = f.wptr := by
  have hr := f.rptr_lt
  have hw := f.wptr_lt
  unfold Ring.advance ivyFifoLength
  dsimp only
  split_ifs <;> omega

@[simp] theorem ivyFifoInit_contents : ivyFifoInit.contents = [] :=
  List.length_eq_zero_iff.mp (length_contents _)

@[simp] theorem ivyFifoInit_full : ivyFifoInit.full = false := rfl

section Drain
variable (f : IvyFifoBuffer) {n : ℕ} (h : n ≤ f.stop - f.rptr)

theorem ivyFifoDrain_full : (ivyFifoDrain f n h).full = if n > 0 then false else f.full := rfl

theorem ivyFifoDrain_length (hn : n ≤ ivyFifoLength f) :
    ivyFifoLength (ivyFifoDrain f n h) = ivyFifoLength f - n := by
  have hr := f.rptr_lt
  have hw := f.wptr_lt
  unfold ivyFifoLength ivyFifoDrain at *
  dsimp only at *
  split_ifs at * <;> omega

theorem ivyFifoDrain_contents (hn : n ≤ ivyFifoLength f) :
    f.contents = Block.read f.buffer f.rptr n ++ (ivyFifoDrain f n h).contents := by
  have hr := f.rptr_lt
  have hl := ivyFifoLength_lt_stop f
  have hadv : Ring.advance f.stop f.rptr n = (ivyFifoDrain f n h).rptr := by
    unfold Ring.advance ivyFifoDrain
    dsimp only
    split_ifs <;> omega
  have hsplit : ivyFifoLength f = n + ivyFifoLength (ivyFifoDrain f n h) := by
    rw [ivyFifoDrain_length f h hn]
    omega
  rw [IvyFifoBuffer.contents, IvyFifoBuffer.contents, ← hadv, hsplit,
    Ring.read_add _ _ _ hr (by omega), Ring.read_of_le _ (by omega)]
  rfl

end Drain

theorem ivyFifoReadLoop_spec (f : IvyFifoBuffer) (n : ℕ) (hn : n ≤ ivyFifoLength f) :
    f.contents = (ivyFifoReadLoop f n).1 ++ (ivyFifoReadLoop f n).2.contents ∧
      (ivyFifoReadLoop f n).1.length = n ∧ (ivyFifoReadLoop f n).2.stop = f.stop ∧
      (ivyFifoReadLoop f n).2.full = if n > 0 then false else f.full := by
  fun_induction ivyFifoReadLoop f n with
  | case1 f n len chunk g hmore rest ih =>
    have hr := f.rptr_lt
    have hlen : len ≤ ivyFifoLength f := (Nat.min_le_right _ _).trans hn
    have hg : f.contents = chunk ++ g.contents := ivyFifoDrain_contents f _ hlen
    have hgl : ivyFifoLength g = ivyFifoLength f - len := ivyFifoDrain_length f _ hlen
    obtain ⟨hc, hl, hs, hf⟩ := ih (by omega)
    refine ⟨by rw [hg, hc, List.append_assoc], ?_, hs, ?_⟩
    · rw [List.length_append, hl, Block.length_read]
      omega
    · rw [hf, if_pos hmore, if_pos (by omega)]
  | case2 f n len chunk g hdone =>
    have hlen : len = n := by omega
    have hg : f.contents = chunk ++ g.contents := ivyFifoDrain_contents f _ (hlen.le.trans hn)
    refine ⟨hg, (Block.length_read _ _ _).trans hlen, rfl, ?_⟩
    rw [ivyFifoDrain_full, hlen]

/-- A read returns and removes the oldest `min n length` bytes. -/
theorem ivyFifoRead_spec (f : IvyFifoBuffer) (n : ℕ) :
    (ivyFifoRead f n).retV = min n (ivyFifoLength f) ∧
      (ivyFifoRead f n).dest = f.contents.take n ∧
      (ivyFifoRead f n).fifo.contents = f.contents.drop n ∧
      (ivyFifoRead f n).fifo.full =
        if min n (ivyFifoLength f) > 0 then false else f.full := by
  obtain ⟨hc, hl, -, hf⟩ := ivyFifoReadLoop_spec f (min n (ivyFifoLength f)) (Nat.min_le_right _ _)
  have htake : f.contents.take n = f.contents.take (min n (ivyFifoLength f)) := by
    rw [← length_contents, List.take_eq_take_min]
  have hdrop : f.contents.drop n = f.contents.drop (min n (ivyFifoLength f)) := by
    rw [← length_contents, List.drop_eq_drop_min]
  refine ⟨rfl, ?_, ?_, hf⟩
  · rw [htake, hc, List.take_left' hl]
    rfl
  · rw [hdrop, hc, List.drop_left' hl]
    rfl

theorem ivyFifoStore_length (f : IvyFifoBuffer) (xs : List UInt8)
    (h : xs.length ≤ f.stop - f.wptr) (hroom : ivyFifoLength f + xs.length < f.stop) :
    ivyFifoLength (ivyFifoStore f xs) = ivyFifoLength f + xs.length := by
  have hr := f.rptr_lt
  have hw := f.wptr_lt
  unfold ivyFifoLength ivyFifoStore at *
  dsimp only at *
  split_ifs at * <;> omega

theorem ivyFifoStore_contents (f : IvyFifoBuffer) (xs : List UInt8)
    (h : xs.length ≤ f.stop - f.wptr) (hroom : ivyFifoLength f + xs.length < f.stop) :
    (ivyFifoStore f xs).contents = f.contents ++ xs := by
  have hw := f.wptr_lt
  have hadv := advance_length f
  have hfit : Ring.advance f.stop f.rptr (ivyFifoLength f) + xs.length ≤ f.stop := by omega
  have hpush := Ring.read_push f.buffer xs f.rptr_lt hroom.le hfit
  rw [hadv] at hpush
  rw [IvyFifoBuffer.contents, ivyFifoStore_length f xs h hroom]
  exact hpush

theorem ivyFifoWriteLoop_spec (f : IvyFifoBuffer) (buf : List UInt8)
    (hroom : ivyFifoLength f + buf.length < f.stop) :
    (ivyFifoWriteLoop f buf).contents = f.contents ++ buf ∧
      (ivyFifoWriteLoop f buf).stop = f.stop ∧ (ivyFifoWriteLoop f buf).full = f.full := by
  fun_induction ivyFifoWriteLoop f buf with
  | case1 f buf len g hmore ih =>
    have htake : (buf.take len).length = len := List.length_take_of_le (Nat.min_le_right _ _)
    have hgc : g.contents = f.contents ++ buf.take len :=
      ivyFifoStore_contents f _ (by omega) (by omega)
    have hgl : ivyFifoLength g = ivyFifoLength f + (buf.take len).length :=
      ivyFifoStore_length f _ (by omega) (by omega)
    have hgs : g.stop = f.stop := rfl
    obtain ⟨hc, hs, hf⟩ := ih (by rw [hgl, hgs, List.length_drop]; omega)
    exact ⟨by rw [hc, hgc, List.append_assoc, List.take_append_drop], hs, hf⟩
  | case2 f buf len g hdone =>
    have htake : buf.take len = buf := List.take_of_length_le (by omega)
    refine ⟨?_, rfl, rfl⟩
    have hgc : g.contents = f.contents ++ buf.take len :=
      ivyFifoStore_contents f _ (by rw [htake]; omega) (by rw [htake]; exact hroom)
    rw [hgc, htake]

theorem lt_alignedNewSize {n : ℕ} (h : n < 2 ^ 32 - ivyFifoAllocSize) :
    n < alignedNewSize n := by
  unfold alignedNewSize u32 ivyFifoAllocSize at *
  omega

/-- The block limit is reached exactly by the requests of `IVY_FIFO_MAX_ALLOC_SIZE` bytes or more. -/
theorem alignedNewSize_gt_max {n : ℕ} (h : n < 2 ^ 32 - ivyFifoAllocSize) :
    alignedNewSize n > ivyFifoMaxAllocSize ↔ ivyFifoMaxAllocSize ≤ n := by
  unfold alignedNewSize u32 ivyFifoAllocSize ivyFifoMaxAllocSize at *
  omega

theorem ivyFifoLength_of_rptr_zero (f : IvyFifoBuffer) (h : f.rptr = 0) :
    ivyFifoLength f = f.wptr := by
  unfold ivyFifoLength
  dsimp only
  split_ifs <;> omega

/-- Growing copies the queue to the start of the new block and clears `full`. -/
theorem ivyFifoRealloc_grow (f : IvyFifoBuffer) (n : ℕ)
    (hmax : ¬ alignedNewSize n > ivyFifoMaxAllocSize) (hgrow : f.stop < alignedNewSize n) :
    (ivyFifoRealloc f n).contents = f.contents ∧ (ivyFifoRealloc f n).full = false ∧
      (ivyFifoRealloc f n).stop = alignedNewSize n := by
  have hdest : (ivyFifoRead f (ivyFifoLength f)).dest = f.contents := by
    rw [(ivyFifoRead_spec f _).2.1, ← length_contents, List.take_length]
  have hlen := length_contents f
  have hstop := ivyFifoLength_lt_stop f
  unfold ivyFifoRealloc
  simp only [dif_neg hmax, ivyFifoSize, dif_pos hgrow, hdest, and_self, and_true]
  have hnew : ∀ g : IvyFifoBuffer, g.rptr = 0 → g.wptr = ivyFifoLength f →
      g.buffer = Block.write malloc 0 f.contents → f.stop < g.stop → g.contents = f.contents := by
    intro g hr hw hb hs
    have hl : ivyFifoLength g = f.contents.length := by
      rw [ivyFifoLength_of_rptr_zero g hr, hw, hlen]
    rw [IvyFifoBuffer.contents, hb, hr, hl, Ring.read_of_le _ (by omega), Block.read_write_self]
  exact hnew _ rfl rfl rfl hgrow

/-- Whether `IvyFifoWrite` appends a buffer of `n` bytes. -/
def Admits (f : IvyFifoBuffer) (n : ℕ) : Prop :=
  if n ≥ ivyFifoAvail f then n + ivyFifoLength f < ivyFifoMaxAllocSize else f.full = false

instance (f : IvyFifoBuffer) (n : ℕ) : Decidable (Admits f n) := by
  unfold Admits
  infer_instance

section Write
variable (f : IvyFifoBuffer) (buf : List UInt8) (hbuf : buf.length ≤ intMax)
include hbuf

theorem request_lt : buf.length + ivyFifoLength f < 2 ^ 32 - ivyFifoAllocSize := by
  have hl := ivyFifoLength_lt_stop f
  have hs := f.stop_le
  unfold ivyFifoMaxAllocSize intMax ivyFifoAllocSize at *
  omega

theorem u32_request : u32 (buf.length + ivyFifoLength f) = buf.length + ivyFifoLength f := by
  have := request_lt f buf hbuf
  exact Nat.mod_eq_of_lt (by unfold ivyFifoAllocSize at this; omega)

theorem ivyFifoWrite_of_admits (h : Admits f buf.length) :
    (ivyFifoWrite f buf).contents = f.contents ++ buf ∧ (ivyFifoWrite f buf).full = false := by
  have hl := ivyFifoLength_lt_stop f
  have hlt := request_lt f buf hbuf
  unfold Admits ivyFifoAvail ivyFifoSize at h
  unfold ivyFifoWrite ivyFifoAvail ivyFifoSize
  rw [u32_request f buf hbuf]
  by_cases hbig : buf.length ≥ f.stop - ivyFifoLength f
  · rw [if_pos hbig] at h
    have hmax : ¬ alignedNewSize (buf.length + ivyFifoLength f) > ivyFifoMaxAllocSize := by
      rw [alignedNewSize_gt_max hlt]
      omega
    have hroom := lt_alignedNewSize hlt
    obtain ⟨hc, hf, hs⟩ := ivyFifoRealloc_grow f _ hmax (by omega)
    have hgl := congrArg List.length hc
    rw [length_contents, length_contents] at hgl
    obtain ⟨hwc, -, hwf⟩ := ivyFifoWriteLoop_spec
      (ivyFifoRealloc f (buf.length + ivyFifoLength f)) buf (by omega)
    simp only [if_pos hbig, hf, Bool.false_eq_true, if_false]
    exact ⟨by rw [hwc, hc], hwf.trans hf⟩
  · rw [if_neg hbig] at h
    obtain ⟨hwc, -, hwf⟩ := ivyFifoWriteLoop_spec f buf (by omega)
    simp only [if_neg hbig, h, Bool.false_eq_true, if_false]
    exact ⟨hwc, hwf.trans h⟩

/-- A write that is not appended leaves the queue alone and sets `full`. -/
theorem ivyFifoWrite_of_not_admits (h : ¬ Admits f buf.length) :
    ivyFifoWrite f buf = { f with full := true } := by
  have hlt := request_lt f buf hbuf
  unfold Admits at h
  unfold ivyFifoWrite
  rw [u32_request f buf hbuf]
  by_cases hbig : buf.length ≥ ivyFifoAvail f
  · rw [if_pos hbig] at h
    have hmax := (alignedNewSize_gt_max hlt).mpr (by omega)
    simp only [if_pos hbig, ivyFifoRealloc, dif_pos hmax, if_true]
  · rw [if_neg hbig, Bool.not_eq_false] at h
    simp only [if_neg hbig, h, if_true]
    cases f
    subst h
    rfl

end Write

@[simp] theorem contents_full (f : IvyFifoBuffer) (b : Bool) :
    ({ f with full := b } : IvyFifoBuffer).contents = f.contents := rfl

end Ivy.Fifo

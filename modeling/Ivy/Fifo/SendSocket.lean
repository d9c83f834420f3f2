import Ivy.Fifo.Contents

/-! `IvyFifoSendSocket` hands the kernel the front of the queue and keeps the rest. -/
namespace Ivy.Fifo

/-- The bytes taken by successive calls of `send()`. -/
def accepted (calls : List (List UInt8 × ℕ)) : List UInt8 :=
  (calls.map fun c => c.1.take c.2).flatten

/-- Each buffer handed to `send()` is what the queue holds next. -/
def OffersPrefixes (queue : List UInt8) (calls : List (List UInt8 × ℕ)) : Prop :=
  ∀ past buf n later, calls = past ++ (buf, n) :: later → accepted past ++ buf <+: queue

theorem offersPrefixes_nil (queue : List UInt8) : OffersPrefixes queue [] := by
  intro past buf n later h
  simp at h

theorem OffersPrefixes.cons {queue rest buf : List UInt8} {n : ℕ} {calls : List (List UInt8 × ℕ)}
    (hbuf : buf <+: queue) (hq : queue = buf.take n ++ rest) (h : OffersPrefixes rest calls) :
    OffersPrefixes queue ((buf, n) :: calls) := by
  intro past b k later heq
  cases past with
  | nil =>
    obtain ⟨⟨rfl, rfl⟩, -⟩ : (buf = b ∧ n = k) ∧ calls = later := by simpa using heq
    simpa [accepted] using hbuf
  | cons c past =>
    obtain ⟨rfl, hcalls⟩ : (buf, n) = c ∧ calls = past ++ (b, k) :: later := by simpa using heq
    have hpre := h past b k later hcalls
    rw [hq]
    simpa [accepted, List.append_assoc] using hpre

/-- What `IvyFifoSendSocket` makes of a byte queue: the calls of `send()` with what each took, the bytes
that are left, and the returned value, as the results of `send()` say. -/
inductive Sends : List UInt8 → List SendResult → List (List UInt8 × ℕ) → List UInt8 → Option ℕ → Prop
  | empty (results : List SendResult) : Sends [] results [] [] (some 0)
  | waits {queue : List UInt8} (hpending : queue ≠ []) : Sends queue [] [] queue none
  | interrupted {queue buf left : List UInt8} {results : List SendResult} {calls : List (List UInt8 × ℕ)}
      {ret : Option ℕ} (hne : buf ≠ []) (hbuf : buf <+: queue) (h : Sends queue results calls left ret) :
      Sends queue (.interrupted :: results) ((buf, 0) :: calls) left ret
  | wouldBlock {queue buf : List UInt8} (results : List SendResult) (hne : buf ≠ []) (hbuf : buf <+: queue) :
      Sends queue (.wouldBlock :: results) [(buf, 0)] queue (some queue.length)
  | failed {queue buf : List UInt8} (results : List SendResult) (hne : buf ≠ []) (hbuf : buf <+: queue) :
      Sends queue (.failed :: results) [(buf, 0)] queue (some ivyFifoSendError)
  | nothing {queue buf : List UInt8} (results : List SendResult) (hne : buf ≠ []) (hbuf : buf <+: queue) :
      Sends queue (.accepted 0 :: results) [(buf, 0)] queue (some ivyFifoSendError)
  | part {queue buf : List UInt8} {n : ℕ} (results : List SendResult) (hbuf : buf <+: queue) (hpos : 0 < n)
      (hlt : n < buf.length) :
      Sends queue (.accepted n :: results) [(buf, n)] (queue.drop n) (some (queue.length - n))
  | whole {queue buf left : List UInt8} {n : ℕ} {results : List SendResult}
      {calls : List (List UInt8 × ℕ)} {ret : Option ℕ} (hne : buf ≠ []) (hbuf : buf <+: queue)
      (hle : buf.length ≤ n) (h : Sends (queue.drop buf.length) results calls left ret) :
      Sends queue (.accepted n :: results) ((buf, buf.length) :: calls) left ret

/-- What is taken of the front of a queue, and the rest. -/
theorem take_append_drop {queue buf : List UInt8} (hbuf : buf <+: queue) {n : ℕ} (hn : n ≤ buf.length) :
    queue = buf.take n ++ queue.drop n := by
  obtain ⟨rest, rfl⟩ := hbuf
  rw [List.drop_append_of_le_length hn, ← List.append_assoc, List.take_append_drop]

namespace Sends
variable {queue left : List UInt8} {results : List SendResult} {calls : List (List UInt8 × ℕ)} {ret : Option ℕ}

/-- The bytes that `send()` took leave the front of the queue; all others stay. -/
theorem queue_eq (h : Sends queue results calls left ret) : queue = accepted calls ++ left := by
  induction h with
  | empty => rfl
  | waits => rfl
  | interrupted _ _ _ ih => simpa [accepted] using ih
  | wouldBlock => simp [accepted]
  | failed => simp [accepted]
  | nothing => simp [accepted]
  | part _ hbuf _ hlt => simpa [accepted] using take_append_drop hbuf hlt.le
  | whole _ hbuf _ _ ih =>
    have hsplit := take_append_drop hbuf le_rfl
    rw [ih, ← List.append_assoc] at hsplit
    exact hsplit

theorem offers (h : Sends queue results calls left ret) : OffersPrefixes queue calls := by
  induction h with
  | empty => exact offersPrefixes_nil _
  | waits => exact offersPrefixes_nil _
  | interrupted _ hbuf _ ih => exact .cons hbuf rfl ih
  | wouldBlock _ _ hbuf => exact .cons hbuf rfl (offersPrefixes_nil _)
  | failed _ _ hbuf => exact .cons hbuf rfl (offersPrefixes_nil _)
  | nothing _ _ hbuf => exact .cons hbuf rfl (offersPrefixes_nil _)
  | part _ hbuf _ hlt => exact .cons hbuf (take_append_drop hbuf hlt.le) (offersPrefixes_nil _)
  | whole _ hbuf _ _ ih => exact .cons hbuf (take_append_drop hbuf le_rfl) ih

theorem ret_eq (h : Sends queue results calls left ret) : ∀ v ∈ ret, v = left.length ∨ v = ivyFifoSendError := by
  induction h with
  | empty => simp
  | waits => simp
  | interrupted _ _ _ ih => exact ih
  | wouldBlock => simp
  | failed => simp
  | nothing => simp
  | part => simp
  | whole _ _ _ _ ih => exact ih

end Sends

/-- The buffer of one round: the queue up to the end of the block. -/
theorem offered_prefix (f : IvyFifoBuffer) :
    Block.read f.buffer f.rptr (min (f.stop - f.rptr) (ivyFifoLength f)) <+: f.contents :=
  ⟨_, (ivyFifoDrain_contents f (Nat.min_le_left _ _) (Nat.min_le_right _ _)).symm⟩

theorem contents_drain (f : IvyFifoBuffer) {n : ℕ} (hn : n ≤ f.stop - f.rptr) (hlen : n ≤ ivyFifoLength f) :
    (ivyFifoDrain f n hn).contents = f.contents.drop n := by
  have hq := congrArg (List.drop n) (ivyFifoDrain_contents f hn hlen)
  rw [List.drop_left' (Block.length_read f.buffer f.rptr n)] at hq
  exact hq.symm

theorem contents_eq_nil {f : IvyFifoBuffer} (h : ¬ ivyFifoLength f > 0) : f.contents = [] := by
  rw [← List.length_eq_zero_iff, length_contents]
  omega

theorem contents_ne_nil {f : IvyFifoBuffer} (h : ivyFifoLength f > 0) : f.contents ≠ [] := by
  rw [← List.length_pos_iff, length_contents]
  exact h

/-- The sends are those that the results call for on the queue. -/
theorem ivyFifoSendSocket_sends (f : IvyFifoBuffer) (results : List SendResult) :
    Sends f.contents results (ivyFifoSendSocket f results).calls (ivyFifoSendSocket f results).fifo.contents
      (ivyFifoSendSocket f results).ret := by
  induction results generalizing f with
  | nil =>
    unfold ivyFifoSendSocket
    split_ifs with hlen
    · exact .waits (contents_ne_nil hlen)
    · exact contents_eq_nil hlen ▸ .empty []
  | cons result results ih =>
    have hbuf := offered_prefix f
    unfold ivyFifoSendSocket
    split_ifs with hlen
    · have hr := f.rptr_lt
      have hsize := Block.length_read f.buffer f.rptr (min (f.stop - f.rptr) (ivyFifoLength f))
      have hne : Block.read f.buffer f.rptr (min (f.stop - f.rptr) (ivyFifoLength f)) ≠ [] := by
        rw [← List.length_pos_iff, hsize]
        omega
      have hlength : some (ivyFifoLength f) = some f.contents.length := congrArg some (length_contents f).symm
      cases result with
      | interrupted => exact .interrupted hne hbuf (ih f)
      | wouldBlock =>
        dsimp only
        rw [hlength]
        exact .wouldBlock results hne hbuf
      | failed => exact .failed results hne hbuf
      | accepted n =>
        dsimp only
        split_ifs with hzero hpart
        · obtain rfl : n = 0 := by omega
          exact .nothing results hne hbuf
        · have hn : min n (min (f.stop - f.rptr) (ivyFifoLength f)) = n := by omega
          have hleft (h : min n (min (f.stop - f.rptr) (ivyFifoLength f)) ≤ f.stop - f.rptr) :
              ivyFifoLength (ivyFifoDrain f _ h) = f.contents.length - n := by
            rw [ivyFifoDrain_length f h (by omega), length_contents, hn]
          dsimp only
          rw [contents_drain f _ (by omega), hleft, hn]
          exact .part results hbuf (by omega) (by omega)
        · have hrest := ih (ivyFifoDrain f _ (by omega : min n (min (f.stop - f.rptr) (ivyFifoLength f)) ≤ _))
          rw [contents_drain f _ (by omega)] at hrest
          have hn : min n (min (f.stop - f.rptr) (ivyFifoLength f)) =
              (Block.read f.buffer f.rptr (min (f.stop - f.rptr) (ivyFifoLength f))).length := by omega
          generalize ivyFifoDrain f _ _ = g at hrest ⊢
          rw [hn] at hrest ⊢
          exact .whole hne hbuf (by omega) hrest
    · exact contents_eq_nil hlen ▸ .empty (result :: results)

/-- A byte that leaves the queue clears the flag. -/
theorem full_of_take {f : IvyFifoBuffer} {r : SendSocketRun} {buf : List UInt8} {n : ℕ}
    (hn : n ≤ f.stop - f.rptr) (hpos : 0 < n) (hle : n ≤ buf.length)
    (h : r.fifo.full = if r.sent = [] then (ivyFifoDrain f n hn).full else false) :
    r.fifo.full =
      if (⟨r.fifo, (buf, n) :: r.calls, r.ret⟩ : SendSocketRun).sent = [] then f.full else false := by
  have hne : (⟨r.fifo, (buf, n) :: r.calls, r.ret⟩ : SendSocketRun).sent ≠ [] := by
    rw [← List.length_pos_iff]
    simp only [SendSocketRun.sent, List.map_cons, List.flatten_cons, List.length_append, List.length_take]
    omega
  rw [ivyFifoDrain_full, if_pos hpos, ite_self] at h
  rw [if_neg hne, h]

theorem ivyFifoSendSocket_full {f : IvyFifoBuffer} {results : List SendResult} {r : SendSocketRun}
    (hrun : ivyFifoSendSocket f results = r) : r.fifo.full = if r.sent = [] then f.full else false := by
  induction results generalizing f r with
  | nil =>
    subst hrun
    rfl
  | cons result results ih =>
    unfold ivyFifoSendSocket at hrun
    split_ifs at hrun with hlen
    · have hr := f.rptr_lt
      cases result with
      | interrupted =>
        subst hrun
        have hrest := ih (f := f) rfl
        -- the interrupted call took nothing
        exact hrest
      | wouldBlock =>
        subst hrun
        rfl
      | failed =>
        subst hrun
        rfl
      | accepted n =>
        dsimp only at hrun
        split_ifs at hrun with hzero hpart
        · subst hrun
          rfl
        · subst hrun
          have hn : min n (min (f.stop - f.rptr) (ivyFifoLength f)) ≤ f.stop - f.rptr := by omega
          exact full_of_take (r := ⟨ivyFifoDrain f _ hn, [], _⟩) hn (by omega)
            (by rw [Block.length_read]; omega) rfl
        · subst hrun
          exact full_of_take _ (by omega) (by rw [Block.length_read]; omega) (ih rfl)
    · subst hrun
      rfl

/-- What a run of `IvyFifoSendSocket` owes the queue it started from. -/
structure SendSocketRun.Correct (f : IvyFifoBuffer) (r : SendSocketRun) : Prop where
  queue : f.contents = r.sent ++ r.fifo.contents
  offers : OffersPrefixes f.contents r.calls
  full : r.fifo.full = if r.sent = [] then f.full else false
  ret : ∀ v ∈ r.ret, v = ivyFifoLength r.fifo ∨ v = ivyFifoSendError

theorem ivyFifoSendSocket_correct (f : IvyFifoBuffer) (results : List SendResult) :
    (ivyFifoSendSocket f results).Correct f where
  queue := (ivyFifoSendSocket_sends f results).queue_eq
  offers := (ivyFifoSendSocket_sends f results).offers
  full := ivyFifoSendSocket_full rfl
  ret := by
    rw [← length_contents]
    exact (ivyFifoSendSocket_sends f results).ret_eq

theorem ivyFifoSendSocket_empty (f : IvyFifoBuffer) (results : List SendResult)
    (h : ivyFifoLength f = 0) : ivyFifoSendSocket f results = ⟨f, [], some 0⟩ := by
  cases results <;> simp [ivyFifoSendSocket, h]

def uninterrupted (results : List SendResult) : List SendResult :=
  results.filter (· ≠ .interrupted)

/-- A queue that does not cross the end of the block needs one uninterrupted `send()`,
any other at most two. -/
theorem ivyFifoSendSocket_returns (f : IvyFifoBuffer) (results : List SendResult)
    (h : 2 ≤ (uninterrupted results).length ∨
      1 ≤ (uninterrupted results).length ∧ f.rptr + ivyFifoLength f ≤ f.stop) :
    (ivyFifoSendSocket f results).ret.isSome := by
  induction results generalizing f with
  | nil => simp [uninterrupted] at h
  | cons result results ih =>
    unfold ivyFifoSendSocket
    split_ifs with hlen
    · cases result with
      | interrupted => exact ih f (by simpa [uninterrupted] using h)
      | wouldBlock => rfl
      | failed => rfl
      | accepted n =>
        dsimp only
        split_ifs with hzero hpart
        · rfl
        · rfl
        · have hle : min n (min (f.stop - f.rptr) (ivyFifoLength f)) ≤ f.stop - f.rptr := by omega
          have hgl := ivyFifoDrain_length f hle (by omega)
          by_cases hz : ivyFifoLength (ivyFifoDrain f _ hle) = 0
          · rw [ivyFifoSendSocket_empty _ _ hz]
            rfl
          · -- the part up to the end of the block went out, so the rest starts at offset 0
            have hcross : f.stop < f.rptr + ivyFifoLength f := by omega
            have hzeroed : (ivyFifoDrain f _ hle).rptr = 0 := by
              have hr := f.rptr_lt
              unfold ivyFifoDrain
              dsimp only
              rw [if_pos (by omega)]
              omega
            refine ih _ (.inr ⟨?_, ?_⟩)
            · simp only [uninterrupted, ne_eq, reduceCtorEq, not_false_eq_true, decide_true,
                List.filter_cons_of_pos, List.length_cons] at h ⊢
              omega
            · rw [hzeroed, Nat.zero_add]
              exact (ivyFifoLength_lt_stop _).le
    · rfl

end Ivy.Fifo

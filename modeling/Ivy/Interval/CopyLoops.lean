import Ivy.Interval.Sizes

/-! The loops of `nextMax` and the indices that they use. -/
namespace Ivy.Interval.Loops

inductive Place
  | min
  | max
  | revMin
  | revMax
  deriving DecidableEq

/-- A part of `nextMax` ends, or uses an index outside a string or an array, or still runs when
its fuel is spent. -/
inductive Run (α : Type)
  | ends (a : α)
  | outside (place : Place) (index : ℕ)
  | running

namespace Run
variable {α β : Type}

def bind : Run α → (α → Run β) → Run β
  | .ends a, f => f a
  | .outside place index, _ => .outside place index
  | .running, _ => .running

instance : Monad Run where
  pure := .ends
  bind := Run.bind

@[simp] theorem ends_bind (a : α) (f : α → Run β) : Run.ends a >>= f = f a := rfl

@[simp] theorem outside_bind (place : Place) (index : ℕ) (f : α → Run β) :
    Run.outside place index >>= f = .outside place index := rfl

@[simp] theorem running_bind (f : α → Run β) : Run.running >>= f = .running := rfl

def toOutcome : Run α → Outcome α
  | .ends a => .returns a
  | _ => .undefined

theorem toOutcome_bind (x : Run α) (f : α → Run β) :
    (x >>= f).toOutcome = x.toOutcome >>= fun a => (f a).toOutcome := by
  cases x <;> rfl

theorem toOutcome_bind_eq {x : Run α} {y : Outcome α} {f : α → Run β} {g : α → Outcome β}
    (hx : x.toOutcome = y) (hf : ∀ a, (f a).toOutcome = g a) : (x >>= f).toOutcome = y >>= g := by
  rw [toOutcome_bind, hx]
  exact congrArg _ (funext hf)

end Run

/-! ### `nextMax` again -/

def charAt (place : Place) (s : Text) (i : ℕ) : Run UInt8 :=
  if i < s.length then .ends (s.getD i 0) else if i = s.length then .ends 0 else .outside place i

def load {n : ℕ} (place : Place) (buf : Vector UInt8 n) (i : ℕ) : Run UInt8 :=
  if h : i < n then .ends buf[i] else .outside place i

def store {n : ℕ} (place : Place) (buf : Vector UInt8 n) (i : ℕ) (b : UInt8) : Run (Vector UInt8 n) :=
  if h : i < n then .ends (buf.set i b) else .outside place i

/-- The string that an array holds. Without a terminator its end is searched outside. -/
def string {n : ℕ} (place : Place) (buf : Vector UInt8 n) : Run Text :=
  if 0 ∈ buf.toList then .ends (buf.toList.takeWhile (· ≠ 0)) else .outside place n

/-- `for (i = n; i >= 0; i--)` -/
def forDown {σ : Type} (body : UInt64 → σ → Run σ) : ℕ → UInt64 → σ → Run σ
  | 0, _, _ => .running
  | fuel + 1, i, s => if 0 ≤ i then do forDown body fuel (i - 1) (← body i s) else .ends s

def whileLoop {σ : Type} (test : σ → Run Bool) (body : σ → Run σ) : ℕ → σ → Run σ
  | 0, _ => .running
  | fuel + 1, s => do
    if ← test s then whileLoop test body fuel (← body s) else .ends s

def copyMin (min : Text) (i : UInt64) (revMin : Vector UInt8 32) : Run (Vector UInt8 32) := do
  store .revMin revMin (UInt64.ofNat min.length - i - 1).toNat (← charAt .min min i.toNat)

def nextMax (fuel : ℕ) (revMin revMax : Vector UInt8 32) (min max : Text) : Run NextMax := do
  let nbDigitsMin := UInt64.ofNat min.length
  let nbDigitsMax := UInt64.ofNat max.length
  let revMin ← forDown (copyMin min) fuel (nbDigitsMin - 1) revMin
  let revMin ← forDown (fun i revMin =>
    store .revMin revMin (nbDigitsMax - i).toNat 48) fuel (nbDigitsMax - nbDigitsMin) revMin
  let revMax ← forDown (fun i revMax => do
    store .revMax revMax (nbDigitsMax - i - 1).toNat (← charAt .max max i.toNat)) fuel
      (nbDigitsMax - 1) revMax
  let revMin ← store .revMin revMin nbDigitsMax.toNat 0
  let revMax ← store .revMax revMax nbDigitsMax.toNat 0
  let rankRev ← whileLoop (fun rankRev => do
    return (← load .revMin revMin rankRev) = 48 ∧ rankRev < nbDigitsMax.toNat)
    (fun rankRev => .ends (rankRev + 1)) fuel 0
  let rankForw ← whileLoop (fun rankForw => do
    return (← load .revMin revMin rankForw) = (← load .revMax revMax rankForw) ∧ 0 < rankForw)
    (fun rankForw => .ends (rankForw - 1)) fuel (nbDigitsMax - 1).toNat
  let nines (n : ℕ) (revMin : Vector UInt8 32) : Run (Vector UInt8 32) :=
    (List.range n).foldlM (fun revMin i => store .revMin revMin i 57) revMin
  let (rank, revMin) ←
    if rankForw ≤ rankRev then do
      let b ← load .revMax revMax rankForw
      let revMin ← store .revMin revMin rankForw (b - if rankForw = 0 then 0 else 1)
      pure (rankForw, ← nines rankForw revMin)
    else do
      pure (rankRev, ← nines (rankRev + 1) revMin)
  let nextMaxi := atoi (reverse (← string .revMin revMin))
  let currMax := atoi max
  return ⟨if nextMaxi > currMax then currMax else nextMaxi, rank + 1⟩

/-- `nextMax` is given the two strings when `regexpGen` is called with the bounds. -/
def Passes (a b : ℤ) (min max : Text) : Prop :=
  ∃ fuel uninit buflen flottant,
    .asks min max ∈ (Logged.regexpGen fuel uninit buflen a b flottant).events

/-- With enough turns all loops end, and every index lies inside. -/
def EndsInside (revMin revMax : Vector UInt8 32) (min max : Text) : Prop :=
  ∃ fuel nMax, nextMax fuel revMin revMax min max = .ends nMax

/-! ### The same `nextMax` -/

theorem toOutcome_charAt (place : Place) (s : Text) (i : ℕ) :
    (charAt place s i).toOutcome = Interval.charAt s i := by
  unfold charAt Interval.charAt
  split_ifs <;> rfl

section
variable {n : ℕ} (place : Place) (buf : Vector UInt8 n)

theorem toOutcome_load (i : ℕ) : (load place buf i).toOutcome = Interval.load buf i := by
  unfold load Interval.load
  split_ifs <;> rfl

theorem toOutcome_store (i : ℕ) (b : UInt8) :
    (store place buf i b).toOutcome = Interval.store buf i b := by
  unfold store Interval.store
  split_ifs <;> rfl

theorem toOutcome_string : (string place buf).toOutcome = Interval.string buf := by
  unfold string Interval.string
  split_ifs <;> rfl

end

section
variable {σ : Type}

theorem toOutcome_forDown {body : UInt64 → σ → Run σ} {body' : UInt64 → σ → Outcome σ}
    (h : ∀ i s, (body i s).toOutcome = body' i s) (fuel : ℕ) (i : UInt64) (s : σ) :
    (forDown body fuel i s).toOutcome = Interval.forDown body' fuel i s := by
  induction fuel generalizing i s with
  | zero => rfl
  | succ fuel ih =>
    rw [forDown, Interval.forDown, apply_ite Run.toOutcome, Run.toOutcome_bind, h]
    simp only [ih]
    rfl

theorem toOutcome_whileLoop {test : σ → Run Bool} {test' : σ → Outcome Bool} {body : σ → Run σ}
    {body' : σ → Outcome σ} (htest : ∀ s, (test s).toOutcome = test' s)
    (hbody : ∀ s, (body s).toOutcome = body' s) (fuel : ℕ) (s : σ) :
    (whileLoop test body fuel s).toOutcome = Interval.whileLoop test' body' fuel s := by
  induction fuel generalizing s with
  | zero => rfl
  | succ fuel ih =>
    rw [whileLoop, Interval.whileLoop, Run.toOutcome_bind, htest]
    congr 1
    funext test
    rw [apply_ite Run.toOutcome, Run.toOutcome_bind, hbody]
    simp only [ih]
    rfl

end

theorem toOutcome_nines (l : List ℕ) (revMin : Vector UInt8 32) :
    (l.foldlM (fun revMin i => store .revMin revMin i 57) revMin).toOutcome =
      l.foldlM (fun revMin i => Interval.store revMin i 57) revMin := by
  induction l generalizing revMin with
  | nil => rfl
  | cons i l ih =>
    rw [List.foldlM_cons, List.foldlM_cons]
    exact Run.toOutcome_bind_eq (toOutcome_store _ _ _ _) fun revMin => ih revMin

/-- With one outcome for all that does not end inside, this is `nextMax`. -/
theorem toOutcome_nextMax (fuel : ℕ) (revMin revMax : Vector UInt8 32) (min max : Text) :
    (nextMax fuel revMin revMax min max).toOutcome = Interval.nextMax fuel revMin revMax min max := by
  have hcopy : ∀ i revMin, (copyMin min i revMin).toOutcome = Interval.charAt min i.toNat >>=
      fun b => Interval.store revMin (UInt64.ofNat min.length - i - 1).toNat b := by
    intro i revMin
    rw [copyMin, Run.toOutcome_bind, toOutcome_charAt]
    simp only [toOutcome_store]
  refine Run.toOutcome_bind_eq (toOutcome_forDown hcopy _ _ _) fun revMin => ?_
  refine Run.toOutcome_bind_eq (toOutcome_forDown (fun _ _ => toOutcome_store _ _ _ _) _ _ _)
    fun revMin => ?_
  refine Run.toOutcome_bind_eq (toOutcome_forDown (fun i revMax => ?_) _ _ _) fun revMax => ?_
  · exact Run.toOutcome_bind_eq (toOutcome_charAt _ _ _) fun b => toOutcome_store _ _ _ _
  refine Run.toOutcome_bind_eq (toOutcome_store _ _ _ _) fun revMin => ?_
  refine Run.toOutcome_bind_eq (toOutcome_store _ _ _ _) fun revMax => ?_
  refine Run.toOutcome_bind_eq (toOutcome_whileLoop (fun rankRev => ?_) (fun _ => rfl) _ _)
    fun rankRev => ?_
  · exact Run.toOutcome_bind_eq (toOutcome_load _ _ _) fun _ => rfl
  refine Run.toOutcome_bind_eq (toOutcome_whileLoop (fun rankForw => ?_) (fun _ => rfl) _ _)
    fun rankForw => ?_
  · exact Run.toOutcome_bind_eq (toOutcome_load _ _ _) fun _ =>
      Run.toOutcome_bind_eq (toOutcome_load _ _ _) fun _ => rfl
  have hend : ∀ (rank : ℕ) (revMin : Vector UInt8 32),
      (string .revMin revMin >>= fun revMin => (pure ⟨if atoi (reverse revMin) > atoi max then atoi max
        else atoi (reverse revMin), rank + 1⟩ : Run NextMax)).toOutcome =
      (Interval.string revMin >>= fun revMin => pure ⟨if atoi (reverse revMin) > atoi max then atoi max
        else atoi (reverse revMin), rank + 1⟩) := fun rank revMin =>
    Run.toOutcome_bind_eq (toOutcome_string _ _) fun _ => rfl
  dsimp only
  by_cases hrank : rankForw ≤ rankRev
  · rw [if_pos hrank, if_pos hrank]
    refine Run.toOutcome_bind_eq (toOutcome_load _ _ _) fun b => ?_
    refine Run.toOutcome_bind_eq (toOutcome_store _ _ _ _) fun revMin => ?_
    exact Run.toOutcome_bind_eq (toOutcome_nines _ _) fun revMin => hend _ _
  · rw [if_neg hrank, if_neg hrank]
    exact Run.toOutcome_bind_eq (toOutcome_nines _ _) fun revMin => hend _ _

/-! ### The first loop -/

/-- The test of the loop holds in every turn. -/
theorem forDown_never_ends {σ : Type} (body : UInt64 → σ → Run σ) (fuel : ℕ) (i : UInt64) (s t : σ) :
    forDown body fuel i s ≠ .ends t := by
  induction fuel generalizing i s with
  | zero => simp [forDown]
  | succ fuel ih =>
    have hi : 0 ≤ i := UInt64.zero_le
    rw [forDown, if_pos hi]
    cases body i s with
    | ends s' => exact ih (i - 1) s'
    | outside place index => simp
    | running => simp

theorem copyMin_outside {min : Text} (hlen : min.length ≤ 32) {k fuel : ℕ} (hk : k ≤ min.length)
    (hfuel : k < fuel) (revMin : Vector UInt8 32) :
    forDown (copyMin min) fuel (UInt64.ofNat k - 1) revMin = .outside .min (2 ^ 64 - 1) := by
  induction k generalizing fuel revMin with
  | zero =>
    obtain ⟨fuel, rfl⟩ : ∃ m, fuel = m + 1 := ⟨fuel - 1, by omega⟩
    have hi : 0 ≤ UInt64.ofNat 0 - 1 := UInt64.zero_le
    have hindex : (UInt64.ofNat 0 - 1).toNat = 2 ^ 64 - 1 := rfl
    have hchar : charAt .min min (2 ^ 64 - 1) = .outside .min (2 ^ 64 - 1) := by
      rw [charAt, if_neg (by omega), if_neg (by omega)]
    rw [forDown, if_pos hi, copyMin, hindex, hchar, Run.outside_bind, Run.outside_bind]
  | succ k ih =>
    obtain ⟨fuel, rfl⟩ : ∃ m, fuel = m + 1 := ⟨fuel - 1, by omega⟩
    have hi : 0 ≤ UInt64.ofNat (k + 1) - 1 := UInt64.zero_le
    have hpred : UInt64.ofNat (k + 1) - 1 = UInt64.ofNat k := by
      rw [UInt64.ofNat_add]
      exact UInt64.add_sub_cancel _ _
    have hindex : (UInt64.ofNat k).toNat = k := UInt64.toNat_ofNat_of_lt' (Nat.lt_of_lt_of_le (show k < 32 by omega) (by decide))
    have hplace : (UInt64.ofNat min.length - UInt64.ofNat k - 1).toNat < 32 := by
      have hsub : UInt64.ofNat min.length - UInt64.ofNat k - 1 = UInt64.ofNat (min.length - k - 1) := by
        rw [UInt64.ofNat_sub (show 1 ≤ min.length - k by omega), UInt64.ofNat_sub (show k ≤ min.length by omega)]
        rfl
      rw [hsub, UInt64.toNat_ofNat_of_lt' (Nat.lt_of_lt_of_le (show min.length - k - 1 < 32 by omega) (by decide))]
      omega
    rw [forDown, if_pos hi, hpred, copyMin, hindex, charAt, if_pos (by omega), Run.ends_bind, store,
      dif_pos hplace, Run.ends_bind]
    exact ih (by omega) (by omega) _

/-! ### Every call -/

/-- No call of `nextMax` ends. -/
theorem not_endsInside (revMin revMax : Vector UInt8 32) (min max : Text) :
    ¬ EndsInside revMin revMax min max := by
  rintro ⟨fuel, nMax, hends⟩
  rw [nextMax] at hends
  cases hloop : forDown (copyMin min) fuel (UInt64.ofNat min.length - 1) revMin with
  | ends revMin' => exact forDown_never_ends _ _ _ _ _ hloop
  | outside place index => simp [hloop] at hends
  | running => simp [hloop] at hends

/-- The numerals that `regexpGen` asks for are short enough for the arrays. -/
theorem length_le_of_passes (a b : Int32) {s t : Text} (h : Passes a.toInt b.toInt s t) :
    s.length ≤ 32 := by
  obtain ⟨fuel, uninit, buflen, flottant, hasks⟩ := h
  have ha := a.le_toInt
  have ha' := a.toInt_lt
  have hb := b.le_toInt
  have hb' := b.toInt_lt
  let P : Logged.Event → Prop := fun e => ∀ s t, e = .asks s t → s.length ≤ 32
  have hP : Logged.Allows P :=
    ⟨fun _ _ _ _ _ _ h => Logged.Event.noConfusion h, fun _ _ _ h => Logged.Event.noConfusion h⟩
  rw [Logged.regexpGen_sorted] at hasks
  refine hP.regexpGen fuel uninit buflen flottant min_le_max (le_min ha hb) (max_lt ha' hb') ?_ _
    hasks s t rfl
  intro lo hi hlo hhi s t heq
  cases heq
  obtain ⟨n, rfl⟩ := Int.eq_ofNat_of_zero_le hlo.le
  have hn : n < 10 ^ 10 := by omega
  have hlen : (decimalAux (n + 1) n).length ≤ 10 := length_decimalAux_le (by omega) hn
  exact hlen.trans (by decide)

/-- For every pair of strings that it is given, `nextMax` reads `min[2 ^ 64 - 1]` after as many turns
as `min` has characters, and does not end. -/
theorem nextMax_outside (a b : Int32) {s t : Text} (h : Passes a.toInt b.toInt s t)
    (revMin revMax : Vector UInt8 32) :
    ¬ EndsInside revMin revMax s t ∧ ∀ fuel, s.length < fuel →
      nextMax fuel revMin revMax s t = .outside .min (2 ^ 64 - 1) := by
  refine ⟨not_endsInside revMin revMax s t, fun fuel hfuel => ?_⟩
  rw [nextMax, copyMin_outside (length_le_of_passes a b h) (le_refl _) hfuel, Run.outside_bind]

/-- `regexpGen` asks for `1` and `2` when it is called with the bounds `1` and `3`. -/
theorem passes_one_two : Passes (1 : Int32).toInt (3 : Int32).toInt (ascii "1") (ascii "2") := by
  refine ⟨2, fun _ => .holding [], 8192, false, ?_⟩
  have hevents : (Logged.regexpGen 2 (fun _ => .holding []) 8192 1 3 false).events =
      [.asks (ascii "1") (ascii "2")] := rfl
  exact hevents ▸ List.mem_singleton_self _

theorem nextMax_outside_example :
    ¬ EndsInside (.replicate 32 0) (.replicate 32 0) (ascii "1") (ascii "2") ∧
    ∀ fuel, 1 < fuel → nextMax fuel (.replicate 32 0) (.replicate 32 0) (ascii "1") (ascii "2") =
      .outside .min (2 ^ 64 - 1) :=
  nextMax_outside 1 3 passes_one_two _ _

theorem one_two_not_endsInside : Passes (1 : Int32).toInt (3 : Int32).toInt (ascii "1") (ascii "2") ∧
    ∀ revMin revMax, ¬ EndsInside revMin revMax (ascii "1") (ascii "2") :=
  ⟨passes_one_two, fun revMin revMax => not_endsInside revMin revMax _ _⟩

end Ivy.Interval.Loops

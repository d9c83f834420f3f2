import Ivy.Timers.Fair

/-! How often a timer is called before it is freed. The second walk of a scan charges the timers
that are due then, and these need not be those that the first walk called. -/
namespace Ivy.Timers
open Linked History

def calls (log : List Entry) (timer : ℕ) : ℕ := log.count (.call timer)

/-- A timer was made to be called so many times, and it was not removed. -/
def Asked (log : List Entry) (timer : ℕ) (count : ℤ) : Prop :=
  (∃ when, .create timer count when ∈ log) ∧ 0 ≤ count ∧ .remove timer ∉ log

/-- No timer is called more often than asked, and one that is freed has been called as often. -/
def Exact (log : List Entry) : Prop :=
  ∀ timer count, Asked log timer count →
    (calls log timer : ℤ) ≤ count ∧ (.free timer ∈ log → (calls log timer : ℤ) = count)

/-- The counts are of type `int`. -/
def Event.Typed : Event → Prop
  | .timerRepeatAfter count _ _ _ _ => -2 ^ 31 ≤ count ∧ count < 2 ^ 31
  | _ => True

instance : ∀ e, Decidable (Event.Typed e)
  | .timerRepeatAfter count _ _ _ _ => inferInstanceAs (Decidable (-2 ^ 31 ≤ count ∧ count < 2 ^ 31))
  | .timerRemove _ _ => .isTrue trivial
  | .timerModify _ _ _ => .isTrue trivial
  | .timerGetSmallestTimeout _ => .isTrue trivial
  | .timerScan _ => .isTrue trivial
  | .next => .isTrue trivial
  | .ret => .isTrue trivial

/-- No timer is made to be called zero times, and the second walk charges a call to exactly those
timers that the first one called. -/
def Agrees (s : State) : Event → Prop
  | .timerRepeatAfter count _ _ _ _ => count ≠ 0
  | .next => ∀ stamp timer, s.pc = .charge stamp (some timer) → ∀ n ∈ s.timers.node timer,
    n.val.mark2Remove = false → 0 < n.val.repeats → (n.val.when ≤ stamp ↔ timer ∈ (past s.log).called)
  | _ => True

instance decidableCharging (pc : Pc) {P : ℕ → ℕ → Prop} [∀ stamp timer, Decidable (P stamp timer)] :
    Decidable (∀ stamp timer, pc = .charge stamp (some timer) → P stamp timer) :=
  match pc with
  | .charge stamp (some timer) => decidable_of_iff (P stamp timer) (by simp)
  | .charge _ none => .isTrue (by simp)
  | .idle => .isTrue (by simp)
  | .scan _ _ => .isTrue (by simp)
  | .callback _ _ => .isTrue (by simp)

instance : ∀ s e, Decidable (Agrees s e)
  | _, .timerRepeatAfter count _ _ _ _ => inferInstanceAs (Decidable (count ≠ 0))
  | s, .next => decidableCharging s.pc (P := fun stamp timer => ∀ n ∈ s.timers.node timer,
    n.val.mark2Remove = false → 0 < n.val.repeats → (n.val.when ≤ stamp ↔ timer ∈ (past s.log).called))
  | _, .timerRemove _ _ => .isTrue trivial
  | _, .timerModify _ _ _ => .isTrue trivial
  | _, .timerGetSmallestTimeout _ => .isTrue trivial
  | _, .timerScan _ => .isTrue trivial
  | _, .ret => .isTrue trivial

def Owed (l : Schedule) (a : ℕ) : Prop :=
  match l.pc with
  | .idle => False
  | .scan _ _ => a ∈ (past l.log).called
  | .callback _ _ => a ∈ (past l.log).called
  | .charge _ timer => a ∈ (past l.log).called ∧ ∃ rest, Walks l.timers timer rest ∧ a ∈ rest.map Prod.fst

/-- What is left of the count is what has not been charged. -/
structure Balance (l : Schedule) (a : ℕ) (repeats count : ℤ) : Prop where
  pos : 0 < repeats
  owed : Owed l a → calls l.log a + repeats = count + 1
  paid : ¬ Owed l a → calls l.log a + repeats = count

structure Balanced (l : Schedule) : Prop where
  sound : Sound l
  created : ∀ a count when, .create a count when ∈ l.log → a < l.brk ∧ count < 2 ^ 31
  called : ∀ a, .call a ∈ l.log → a < l.brk
  freed : ∀ a, .free a ∈ l.log → a < l.brk ∧ a ∉ l.timers.map Prod.fst
  live : ∀ n ∈ l.timers, ∀ count, Asked l.log n.1 count → Balance l n.1 n.2.repeats count
  gone : ∀ a count, Asked l.log a count → a ∉ l.timers.map Prod.fst → (calls l.log a : ℤ) = count

theorem calls_concat (log : List Entry) (e : Entry) (a : ℕ) :
    calls (log ++ [e]) a = calls log a + if e = .call a then 1 else 0 := by
  simp [calls, List.count_singleton]

theorem calls_concat_of_ne {log : List Entry} {e : Entry} {a : ℕ} (he : e ≠ .call a) :
    calls (log ++ [e]) a = calls log a := by
  rw [calls_concat, if_neg he, Nat.add_zero]

theorem mem_of_concat {log : List Entry} {e e' : Entry} (h : e' ∈ log ++ [e]) (hne : e' ≠ e) : e' ∈ log :=
  (List.mem_append.mp h).resolve_right fun hnew => hne (List.mem_singleton.mp hnew)

theorem calls_eq_zero {log : List Entry} {a : ℕ} (h : .call a ∉ log) : calls log a = 0 :=
  List.count_eq_zero.mpr h

/-- A timer was asked for before an entry, or by it. -/
theorem Asked.of_concat {log : List Entry} {e : Entry} {a : ℕ} {count : ℤ} (h : Asked (log ++ [e]) a count) :
    e ≠ .remove a ∧ (Asked log a count ∨ ∃ when, e = .create a count when) := by
  obtain ⟨⟨when, hcreate⟩, hcount, hremove⟩ := h
  rw [List.mem_append, List.mem_singleton, not_or] at hremove
  constructor
  · exact Ne.symm hremove.2
  · rcases List.mem_append.mp hcreate with hold | hnew
    · exact .inl ⟨⟨when, hold⟩, hcount, hremove.1⟩
    · exact .inr ⟨when, (List.mem_singleton.mp hnew).symm⟩

theorem Asked.old {log : List Entry} {e : Entry} {a : ℕ} {count : ℤ} (h : Asked (log ++ [e]) a count)
    (he : ∀ when, e ≠ .create a count when) : Asked log a count := by
  rcases h.of_concat.2 with hold | hnew
  · exact hold
  · obtain ⟨when, hcreate⟩ := hnew
    exact absurd hcreate (he when)

theorem of_past (log : List Entry) (a : ℕ) :
    (a ∈ (past log).called → .call a ∈ log) ∧ (a ∈ (past log).removed → .remove a ∈ log) := by
  induction log using List.reverseRecOn with
  | nil => exact ⟨fun h => absurd h List.not_mem_nil, fun h => absurd h List.not_mem_nil⟩
  | append_singleton log e ih =>
    obtain ⟨hcalled, hremoved⟩ := ih
    rw [past_concat]
    constructor
    · intro h
      cases e with
      | call b =>
        rcases List.mem_append.mp h with hold | hnew
        · exact List.mem_append_left _ (hcalled hold)
        · rw [List.mem_singleton.mp hnew]
          simp
      | scan => exact absurd h List.not_mem_nil
      | _ => exact List.mem_append_left _ (hcalled h)
    · intro h
      cases e with
      | remove b =>
        rcases List.mem_append.mp h with hold | hnew
        · exact List.mem_append_left _ (hremoved hold)
        · rw [List.mem_singleton.mp hnew]
          simp
      | _ => exact List.mem_append_left _ (hremoved h)

section
variable {l m : Schedule} {a : ℕ} {repeats count : ℤ}

theorem Balance.congr (h : Balance l a repeats count) (hcalls : calls m.log a = calls l.log a)
    (howed : Owed m a ↔ Owed l a) : Balance m a repeats count where
  pos := h.pos
  owed ho := hcalls ▸ h.owed (howed.mp ho)
  paid ho := hcalls ▸ h.paid fun hl => ho (howed.mpr hl)

theorem Balance.uncalled (hpos : 0 < count) (hcalls : calls l.log a = 0) (hnot : ¬ Owed l a) :
    Balance l a count count where
  pos := hpos
  owed howes := absurd howes hnot
  paid _ := by
    rw [hcalls]
    simp

/-- The second walk owes the calls of the timers that it has before it. -/
theorem owed_iff {stamp : ℕ} {timer : Option ℕ} {rest : List (ℕ × Timer)} (hnodup : (l.timers.map Prod.fst).Nodup)
    (hpc : l.pc = .charge stamp timer) (hw : Walks l.timers timer rest) :
    Owed l a ↔ a ∈ (past l.log).called ∧ a ∈ rest.map Prod.fst := by
  unfold Owed
  rw [hpc]
  constructor
  · intro h
    obtain ⟨hcalled, rest', hw', hmem⟩ := h
    exact ⟨hcalled, hw'.unique hnodup hw ▸ hmem⟩
  · exact fun h => ⟨h.1, rest, hw, h.2⟩

/-- While the application runs, what is owed does not depend on the list. -/
theorem owed_outside (hpc : l.pc.outside = true) (hsame : m.pc = l.pc)
    (hcalled : (past m.log).called = (past l.log).called) : Owed m a ↔ Owed l a := by
  unfold Owed
  rw [hsame, hcalled]
  cases hs : l.pc with
  | charge stamp timer => simp [hs, Pc.outside] at hpc
  | _ => rfl

/-- Only calls that were made are owed. -/
theorem Owed.call_mem (h : Owed l a) : .call a ∈ l.log := by
  have hcalled : a ∈ (past l.log).called := by
    unfold Owed at h
    cases hs : l.pc with
    | idle => simp [hs] at h
    | scan stamp timer => simpa [hs] using h
    | callback stamp next => simpa [hs] using h
    | charge stamp timer =>
      rw [hs] at h
      exact h.1
  exact (of_past l.log a).1 hcalled

end

def Plain (e : Entry) : Prop :=
  ∀ a, e ≠ .call a ∧ e ≠ .free a ∧ ∀ count when, e ≠ .create a count when

/-- All but three kinds of entries. -/
def Entry.isPlain : Entry → Bool
  | .call _ | .free _ | .create _ _ _ => false
  | _ => true

theorem Plain.of_isPlain {e : Entry} (h : e.isPlain = true) : Plain e := by
  intro a
  refine ⟨?_, ?_, fun count when => ?_⟩ <;>
    rintro rfl <;>
    cases h

theorem Plain.calls_eq {log : List Entry} {e : Entry} (he : Plain e) (a : ℕ) :
    calls (log ++ [e]) a = calls log a :=
  calls_concat_of_ne (he a).1

theorem Plain.asked {log : List Entry} {e : Entry} (he : Plain e) {a : ℕ} {count : ℤ}
    (h : Asked (log ++ [e]) a count) : Asked log a count := by
  exact h.old fun when => (he a).2.2 count when

namespace Balanced
variable {l m : Schedule}

theorem initial : Balanced ⟨[], 0, .idle, []⟩ where
  sound := Sound.initial
  created _ _ _ h := absurd h List.not_mem_nil
  called _ h := absurd h List.not_mem_nil
  freed _ h := absurd h List.not_mem_nil
  live _ hn := absurd hn List.not_mem_nil
  gone _ _ h := absurd h.1.choose_spec List.not_mem_nil

theorem goto (h : Balanced l) {pc : Pc} (hm : Sound { l with pc := pc })
    (howed : ∀ n ∈ l.timers, ∀ count, Asked l.log n.1 count → (Owed { l with pc := pc } n.1 ↔ Owed l n.1)) :
    Balanced { l with pc := pc } where
  sound := hm
  created := h.created
  called := h.called
  freed := h.freed
  live n hn count hasked := (h.live n hn count hasked).congr rfl (howed n hn count hasked)
  gone := h.gone

theorem plain (h : Balanced l) (hm : Sound m) {e : Entry} (he : Plain e) (hlog : m.log = l.log ++ [e])
    (hbrk : m.brk = l.brk) (haddr : m.timers.map Prod.fst = l.timers.map Prod.fst)
    (hlive : ∀ n ∈ m.timers, ∀ count, e ≠ .remove n.1 → Asked l.log n.1 count → Balance m n.1 n.2.repeats count) :
    Balanced m where
  sound := hm
  created a count when hcreate := by
    rw [hlog] at hcreate
    rw [hbrk]
    exact h.created a count when (mem_of_concat hcreate ((he a).2.2 count when).symm)
  called a hcall := by
    rw [hlog] at hcall
    rw [hbrk]
    exact h.called a (mem_of_concat hcall (he a).1.symm)
  freed a hfree := by
    rw [hlog] at hfree
    rw [hbrk, haddr]
    exact h.freed a (mem_of_concat hfree (he a).2.1.symm)
  live n hn count hasked := by
    rw [hlog] at hasked
    exact hlive n hn count hasked.of_concat.1 (he.asked hasked)
  gone a count hasked ha := by
    rw [hlog] at hasked
    rw [hlog, he.calls_eq]
    exact h.gone a count (he.asked hasked) (haddr ▸ ha)

theorem pass (h : Balanced l) {e : Entry} {pc : Pc} (he : Plain e)
    (hm : Sound { l with pc := pc, log := l.log ++ [e] })
    (howed : ∀ n ∈ l.timers, Owed { l with pc := pc, log := l.log ++ [e] } n.1 ↔ Owed l n.1) :
    Balanced { l with pc := pc, log := l.log ++ [e] } := by
  apply h.plain hm he rfl rfl rfl
  intro n hn count _ hasked
  exact (h.live n hn count hasked).congr (he.calls_eq n.1) (howed n hn)

theorem assign (h : Balanced l) {e : Entry} {a : ℕ} {v w : Timer} (hv : (a, v) ∈ l.timers)
    (hm : Sound { l with timers := l.timers.map (Linked.assign a w), log := l.log ++ [e] }) (he : Plain e)
    (hpc : l.pc.outside = true) (hcalled : ((past l.log).after e).called = (past l.log).called)
    (hrepeats : w.repeats = v.repeats) :
    Balanced { l with timers := l.timers.map (Linked.assign a w), log := l.log ++ [e] } := by
  apply h.plain hm he rfl rfl (map_fst_assign a w l.timers)
  intro n hn count _ hasked
  obtain ⟨k, hk, rfl⟩ := List.mem_map.mp hn
  rw [fst_assign] at *
  have hsame : (Linked.assign a w k).2.repeats = k.2.repeats := by
    by_cases ha : k.1 = a
    · have hkv : k = (a, v) := List.inj_on_of_nodup_map h.sound.nodup hk hv ha
      simp [Linked.assign, hrepeats, hkv]
    · simp [Linked.assign, ha]
  rw [hsame]
  apply (h.live k hk count hasked).congr (he.calls_eq k.1)
  apply owed_outside hpc
  · rfl
  · rw [past_concat, hcalled]

theorem create (h : Balanced l) {v : Timer} {count : ℤ} {when : ℕ} (hpc : l.pc.outside = true)
    (hrepeats : v.repeats = count) (hcount : count ≠ 0) (hint : count < 2 ^ 31)
    (hm : Sound { l with
      timers := (l.brk, v) :: l.timers
      brk := l.brk + 1
      log := l.log ++ [.create l.brk count when] }) :
    Balanced { l with
      timers := (l.brk, v) :: l.timers
      brk := l.brk + 1
      log := l.log ++ [.create l.brk count when] } := by
  let m : Schedule := { l with
    timers := (l.brk, v) :: l.timers
    brk := l.brk + 1
    log := l.log ++ [.create l.brk count when] }
  have hcalls (a : ℕ) : calls m.log a = calls l.log a := calls_concat_of_ne Entry.noConfusion
  have howed (a : ℕ) : Owed m a ↔ Owed l a := by
    apply owed_outside hpc
    · rfl
    · rw [past_concat]
      rfl
  have hnew {c : ℤ} (hasked : Asked m.log l.brk c) : c = count := by
    rcases hasked.of_concat.2 with hold | hnew
    · obtain ⟨⟨when', hcreate⟩, -⟩ := hold
      exact absurd (h.created _ _ _ hcreate).1 (Nat.lt_irrefl _)
    · obtain ⟨when', hcreate⟩ := hnew
      injection hcreate with _ hc _
      exact hc.symm
  have hold {a : ℕ} {c : ℤ} (ha : a ≠ l.brk) (hasked : Asked m.log a c) : Asked l.log a c :=
    hasked.old fun when' hcreate => by
      injection hcreate with haddr _ _
      exact ha haddr.symm
  have hnone : .call l.brk ∉ l.log := fun hcall => Nat.lt_irrefl _ (h.called _ hcall)
  constructor
  · exact hm
  · intro a c w hcreate
    rcases List.mem_append.mp hcreate with hcreate | hcreate
    · obtain ⟨hlt, hint⟩ := h.created a c w hcreate
      exact ⟨Nat.lt_succ_of_lt hlt, hint⟩
    · injection List.mem_singleton.mp hcreate with haddr hc _
      exact ⟨haddr ▸ Nat.lt_succ_self _, hc ▸ hint⟩
  · exact fun a hcall => Nat.lt_succ_of_lt (h.called a (mem_of_concat hcall Entry.noConfusion))
  · intro a hfree
    obtain ⟨hlt, hmem⟩ := h.freed a (mem_of_concat hfree Entry.noConfusion)
    constructor
    · exact Nat.lt_succ_of_lt hlt
    · intro hcons
      rcases List.mem_cons.mp hcons with heq | hold
      · exact Nat.ne_of_lt hlt heq
      · exact hmem hold
  · intro n hn c hasked
    rcases List.mem_cons.mp hn with rfl | hn
    · obtain rfl := hnew hasked
      have hzero : calls m.log l.brk = 0 := (hcalls l.brk).trans (calls_eq_zero hnone)
      have hnot : ¬ Owed m l.brk := fun howes => hnone ((howed l.brk).mp howes).call_mem
      have hpos : 0 < c := lt_of_le_of_ne hasked.2.1 hcount.symm
      show Balance m l.brk v.repeats c
      rw [hrepeats]
      exact .uncalled hpos hzero hnot
    · exact (h.live n hn c (hold (Nat.ne_of_lt (h.sound.below n hn)) hasked)).congr (hcalls n.1) (howed n.1)
  · intro a c hasked ha
    rw [List.map_cons, List.mem_cons, not_or] at ha
    rw [hcalls]
    exact h.gone a c (hold ha.1 hasked) ha.2

theorem call (h : Balanced l) {stamp a : ℕ} {v : Timer} {rest : List (ℕ × Timer)}
    (hpc : l.pc = .scan stamp (some a)) (hw : Walks l.timers (some a) ((a, v) :: rest))
    (hm : Sound { l with pc := .callback stamp (first rest), log := l.log ++ [.call a] }) :
    Balanced { l with pc := .callback stamp (first rest), log := l.log ++ [.call a] } := by
  let m : Schedule := { l with pc := .callback stamp (first rest), log := l.log ++ [.call a] }
  have hasked {b : ℕ} {count : ℤ} (hb : Asked m.log b count) : Asked l.log b count :=
    hb.old fun _ => Entry.noConfusion
  have howed (b : ℕ) : Owed l b ↔ b ∈ (past l.log).called := by simp [Owed, hpc]
  have howed' (b : ℕ) : Owed m b ↔ b ∈ (past l.log).called ∨ b = a := by
    simp [m, Owed, Past.after]
  have hnot : a ∉ (past l.log).called := fun hcalled => (h.sound.passes hpc hw).2.1 (h.sound.called hcalled)
  have hother {b : ℕ} (hb : b ≠ a) : calls m.log b = calls l.log b :=
    calls_concat_of_ne fun heq => hb (Entry.call.inj heq).symm
  constructor
  · exact hm
  · exact fun b count when hcreate => h.created b count when (mem_of_concat hcreate Entry.noConfusion)
  · intro b hcall
    rcases List.mem_append.mp hcall with hcall | hcall
    · exact h.called b hcall
    · injection List.mem_singleton.mp hcall with hb
      exact hb ▸ h.sound.below _ hw.mem
  · exact fun b hfree => h.freed b (mem_of_concat hfree Entry.noConfusion)
  · intro n hn count hb
    have hlive : Balance l n.1 n.2.repeats count := h.live n hn count (hasked hb)
    by_cases ha : n.1 = a
    · have hpaid := hlive.paid fun howes => hnot (ha ▸ (howed n.1).mp howes)
      have hmore : calls m.log n.1 = calls l.log n.1 + 1 := by rw [calls_concat, if_pos (by rw [ha])]
      constructor
      · exact hlive.pos
      · intro _
        rw [hmore]
        push_cast
        omega
      · exact fun howes => absurd ((howed' n.1).mpr (.inr ha)) howes
    · exact hlive.congr (hother ha) (by rw [howed, howed', or_iff_left ha])
  · intro b count hb hgone
    have hmem : a ∈ l.timers.map Prod.fst := List.mem_map_of_mem hw.mem
    have hne : b ≠ a := fun heq => hgone (heq ▸ hmem)
    rw [hother hne]
    exact h.gone b count (hasked hb) hgone

theorem free (h : Balanced l) {stamp a : ℕ} {v : Timer} {rest : List (ℕ × Timer)}
    (hpc : l.pc = .charge stamp (some a)) (hw : Walks l.timers (some a) ((a, v) :: rest))
    (hlast : ∀ count, Asked l.log a count → (calls l.log a : ℤ) = count)
    (hm : Sound { l with
      timers := l.timers.filter (·.1 ≠ a)
      pc := .charge stamp (first rest)
      log := l.log ++ [.free a] }) :
    Balanced { l with
      timers := l.timers.filter (·.1 ≠ a)
      pc := .charge stamp (first rest)
      log := l.log ++ [.free a] } := by
  let m : Schedule := { l with
    timers := l.timers.filter (·.1 ≠ a)
    pc := .charge stamp (first rest)
    log := l.log ++ [.free a] }
  have hasked {b : ℕ} {count : ℤ} (hb : Asked m.log b count) : Asked l.log b count :=
    hb.old fun _ => Entry.noConfusion
  have hcalls (b : ℕ) : calls m.log b = calls l.log b := calls_concat_of_ne Entry.noConfusion
  have hmem {b : ℕ} : b ∈ m.timers.map Prod.fst ↔ b ∈ l.timers.map Prod.fst ∧ b ≠ a := by
    simp [m]
  constructor
  · exact hm
  · exact fun b count when hcreate => h.created b count when (mem_of_concat hcreate Entry.noConfusion)
  · exact fun b hcall => h.called b (mem_of_concat hcall Entry.noConfusion)
  · intro b hfree
    rcases List.mem_append.mp hfree with hfree | hfree
    · obtain ⟨hlt, hgone⟩ := h.freed b hfree
      exact ⟨hlt, fun hb => hgone (hmem.mp hb).1⟩
    · injection List.mem_singleton.mp hfree with hb
      exact ⟨hb ▸ h.sound.below _ hw.mem, fun hmem' => (hmem.mp hmem').2 hb⟩
  · intro n hn count hb
    obtain ⟨hold, ha⟩ := hmem.mp (List.mem_map_of_mem hn)
    apply (h.live n (List.mem_of_mem_filter hn) count (hasked hb)).congr (hcalls n.1)
    rw [owed_iff hm.nodup rfl (hw.filter h.sound.nodup), owed_iff h.sound.nodup hpc hw, past_concat,
      List.map_cons, List.mem_cons, or_iff_right ha]
    rfl
  · intro b count hb hgone
    rw [hcalls]
    by_cases ha : b = a
    · exact ha ▸ hlast count (ha ▸ hasked hb)
    · exact h.gone b count (hasked hb) fun hold => hgone (hmem.mpr ⟨hold, ha⟩)

/-- A count goes down with each call that is charged. -/
theorem bmod_pred {repeats count : ℤ} {a : ℕ} (h : Balanced l) (hasked : Asked l.log a count)
    (hbalance : Balance l a repeats count) : Int.bmod (repeats - 1) (2 ^ 32) = repeats - 1 := by
  obtain ⟨⟨when, hcreate⟩, -⟩ := hasked
  have hint := (h.created a count when hcreate).2
  have hpos := hbalance.pos
  have hle : repeats ≤ count + 1 := by
    by_cases howes : Owed l a
    · have hcalls := hbalance.owed howes
      omega
    · have hcalls := hbalance.paid howes
      omega
  apply Int.bmod_eq_of_le <;> omega

/-- The second walk goes on, and owes no call of the timer any more. -/
theorem charged (h : Balanced l) {stamp a : ℕ} {v : Timer} {rest : List (ℕ × Timer)}
    (hpc : l.pc = .charge stamp (some a)) (hw : Walks l.timers (some a) ((a, v) :: rest)) :
    (Owed l a ↔ a ∈ (past l.log).called) ∧ a ∉ rest.map Prod.fst := by
  constructor
  · rw [owed_iff h.sound.nodup hpc hw]
    simp
  · obtain ⟨-, pre, hl⟩ := hw
    have hnodup := h.sound.nodup
    rw [hl, List.map_append, List.map_cons, List.nodup_append] at hnodup
    exact (List.nodup_cons.mp hnodup.2.1).1

/-- A call that the second walk charges is owed, and takes one off the count. -/
theorem due (h : Balanced l) {stamp a : ℕ} {v : Timer} {rest : List (ℕ × Timer)} {count : ℤ}
    (hpc : l.pc = .charge stamp (some a)) (hw : Walks l.timers (some a) ((a, v) :: rest))
    (hcalled : a ∈ (past l.log).called) (hasked : Asked l.log a count) :
    calls l.log a + v.repeats = count + 1 ∧ Int.bmod (v.repeats - 1) (2 ^ 32) = v.repeats - 1 := by
  have hbalance : Balance l a v.repeats count := h.live _ hw.mem count hasked
  constructor
  · exact hbalance.owed ((h.charged hpc hw).1.mpr hcalled)
  · exact h.bmod_pred hasked hbalance

/-- A timer whose call is charged has one call less to come. -/
theorem rearm (h : Balanced l) {stamp a when : ℕ} {v : Timer} {rest : List (ℕ × Timer)} {repeats : ℤ}
    (hpc : l.pc = .charge stamp (some a)) (hw : Walks l.timers (some a) ((a, v) :: rest))
    (hcalled : 0 < v.repeats → a ∈ (past l.log).called)
    (hrepeats : if v.repeats = timerLoop then repeats = v.repeats
      else repeats = Int.bmod (v.repeats - 1) (2 ^ 32) ∧ repeats ≠ 0)
    (hm : Sound { l with
      timers := l.timers.map (Linked.assign a { v with repeats := repeats, when := when })
      pc := .charge stamp (first rest)
      log := l.log ++ [.rearm a when] }) :
    Balanced { l with
      timers := l.timers.map (Linked.assign a { v with repeats := repeats, when := when })
      pc := .charge stamp (first rest)
      log := l.log ++ [.rearm a when] } := by
  have he : Plain (.rearm a when) := .of_isPlain rfl
  apply h.plain hm he rfl rfl (map_fst_assign a _ l.timers)
  intro n hn count _ hasked
  obtain ⟨k, hk, rfl⟩ := List.mem_map.mp hn
  rw [fst_assign] at *
  have howed' (b : ℕ) := owed_iff (a := b) hm.nodup rfl (hw.next.assign a _)
  by_cases ha : k.1 = a
  · obtain rfl : k = (a, v) := List.inj_on_of_nodup_map h.sound.nodup hk hw.mem ha
    have hpos : 0 < v.repeats := (h.live _ hk count hasked).pos
    obtain ⟨howes, hpred⟩ := h.due hpc hw (hcalled hpos) hasked
    have hloop : v.repeats ≠ timerLoop := fun heq => absurd (heq ▸ hpos) (by decide)
    rw [if_neg hloop, hpred] at hrepeats
    obtain ⟨rfl, hne⟩ := hrepeats
    simp only [Linked.assign, if_true]
    constructor
    · omega
    · intro hnow
      rw [howed', map_fst_assign] at hnow
      exact absurd hnow.2 (h.charged hpc hw).2
    · intro _
      dsimp only
      rw [he.calls_eq]
      omega
  · simp only [Linked.assign, if_neg ha]
    apply (h.live k hk count hasked).congr (he.calls_eq k.1)
    rw [howed', map_fst_assign, owed_iff h.sound.nodup hpc hw, past_concat, List.map_cons, List.mem_cons,
      or_iff_right ha]
    rfl

end Balanced

def Charges (l : Schedule) : Event → Prop
  | .timerRepeatAfter count _ _ _ _ => count ≠ 0 ∧ count < 2 ^ 31
  | .next => ∀ stamp a v, l.pc = .charge stamp (some a) → (a, v) ∈ l.timers → v.mark2Remove = false →
    0 < v.repeats → (v.when ≤ stamp ↔ a ∈ (past l.log).called)
  | _ => True

theorem Holds.charges {s : State} {l : Schedule} {e : Event} (h : Holds s l) (he : Agrees s e) (htyped : e.Typed) :
    Charges l e := by
  cases e with
  | timerRepeatAfter count ltime cb user_data stamp => exact ⟨he, htyped.2⟩
  | next =>
    intro stamp a v hpc hv hmark hpos
    obtain ⟨next, hnode⟩ := h.timers.path.node_eq hv
    rw [← h.log]
    exact he stamp a (h.pc.trans hpc) ⟨v, next⟩ hnode hmark hpos
  | _ => trivial

namespace Balanced
variable {l : Schedule} {stamp a : ℕ} {v : Timer} {rest : List (ℕ × Timer)}

/-- The second walk frees a timer when all its calls were charged. -/
theorem spent (h : Balanced l) (hcharges : Charges l .next) (hpc : l.pc = .charge stamp (some a))
    (hw : Walks l.timers (some a) ((a, v) :: rest))
    (hlast : v.mark2Remove = false → v.when ≤ stamp ∧ v.repeats ≠ timerLoop ∧
      Int.bmod (v.repeats - 1) (2 ^ 32) = 0) {count : ℤ} (hasked : Asked l.log a count) :
    (calls l.log a : ℤ) = count := by
  have hpos : 0 < v.repeats := (h.live _ hw.mem count hasked).pos
  have hmark : v.mark2Remove = false := by
    rw [← Bool.not_eq_true, h.sound.marked _ hw.mem]
    exact fun hremoved => hasked.2.2 ((of_past l.log a).2 hremoved)
  obtain ⟨hdue, -, hzero⟩ := hlast hmark
  obtain ⟨hcalls, hpred⟩ := h.due hpc hw ((hcharges stamp a v hpc hw.mem hmark hpos).mp hdue) hasked
  omega

/-- A timer that is not due then owes no call. -/
theorem keep (h : Balanced l) (hcharges : Charges l .next) (hpc : l.pc = .charge stamp (some a))
    (hw : Walks l.timers (some a) ((a, v) :: rest)) (hmark : v.mark2Remove = false)
    (hdue : stamp < v.when) (hm : Sound { l with pc := .charge stamp (first rest) }) :
    Balanced { l with pc := .charge stamp (first rest) } := by
  apply h.goto hm
  intro n hn count hasked
  rw [owed_iff hm.nodup rfl hw.next, owed_iff h.sound.nodup hpc hw, List.map_cons, List.mem_cons]
  by_cases ha : n.1 = a
  · obtain rfl : n = (a, v) := List.inj_on_of_nodup_map h.sound.nodup hn hw.mem ha
    have hpos := (h.live _ hn count hasked).pos
    have hnot : a ∉ (past l.log).called :=
      fun hcalled => Nat.not_le_of_lt hdue ((hcharges stamp a v hpc hn hmark hpos).mpr hcalled)
    exact ⟨fun howes => absurd howes.1 hnot, fun howes => absurd howes.1 hnot⟩
  · rw [or_iff_right ha]

/-- At the end of the second walk no call is owed. -/
theorem done (h : Balanced l) (hpc : l.pc = .charge stamp none) (hm : Sound { l with pc := .idle }) :
    Balanced { l with pc := .idle } := by
  apply h.goto hm
  intro n hn count hasked
  constructor
  · exact fun howes => howes.elim
  · intro howes
    simp only [Owed, hpc] at howes
    obtain ⟨-, rest, hw, hmem⟩ := howes
    rw [hw.eq_nil] at hmem
    exact absurd hmem List.not_mem_nil

end Balanced

theorem Balanced.change {l m : Schedule} {e : Event} (h : Balanced l) (hcharges : Charges l e)
    (hchange : Change l e m) : Balanced m := by
  have hm : Sound m := h.sound.change hchange
  cases hchange with
  | same => exact h
  | create hpc => exact h.create hpc rfl hcharges.1 hcharges.2 hm
  | @remove a stamp v hpc hv hmark =>
    exact h.assign hv hm (.of_isPlain rfl) hpc rfl rfl
  | @modify a stamp ltime v hpc hv hmark =>
    exact h.assign hv hm (.of_isPlain rfl) hpc rfl rfl
  | @scan stamp hpc =>
    apply h.pass (.of_isPlain rfl) hm
    intro n hn
    simp [Owed, hpc, Past.after]
  | @call stamp a v rest hpc hw hdue hmark => exact h.call hpc hw hm
  | @skip stamp a v rest hpc hw hdue =>
    apply h.pass (.of_isPlain rfl) hm
    intro n hn
    simp [Owed, hpc, Past.after]
  | @ret stamp next hpc =>
    apply h.goto hm
    intro n hn count hasked
    simp [Owed, hpc]
  | @charge stamp hpc =>
    apply h.pass (.of_isPlain rfl) hm
    intro n hn
    have hmem : n.1 ∈ l.timers.map Prod.fst := List.mem_map_of_mem hn
    rw [owed_iff hm.nodup rfl Walks.start, past_concat]
    simp only [Owed, hpc, hmem, and_true]
    rfl
  | @free stamp a v rest hpc hw hlast =>
    exact h.free hpc hw (fun count hasked => h.spent hcharges hpc hw hlast hasked) hm
  | @rearm stamp a v rest repeats hpc hw hmark hdue hrepeats =>
    exact h.rearm hpc hw (fun hpos => (hcharges stamp a v hpc hw.mem hmark hpos).mp hdue) hrepeats hm
  | keep hpc hw hmark hdue => exact h.keep hcharges hpc hw hmark hdue hm
  | done hpc => exact h.done hpc hm

theorem Balanced.exact {l : Schedule} (h : Balanced l) : Exact l.log := by
  intro a count hasked
  by_cases hmem : a ∈ l.timers.map Prod.fst
  · obtain ⟨n, hn, rfl⟩ := List.mem_map.mp hmem
    have hbalance := h.live n hn count hasked
    have hpos := hbalance.pos
    constructor
    · by_cases howes : Owed l n.1
      · have hcalls := hbalance.owed howes
        omega
      · have hcalls := hbalance.paid howes
        omega
    · exact fun hfree => absurd hmem (h.freed n.1 hfree).2
  · have hcalls := h.gone a count hasked hmem
    exact ⟨hcalls.le, fun _ => hcalls⟩

/-- Where the second walks charge the calls of the first ones, no timer is called more often than
asked, nor less before it is freed. -/
theorem run_exact {es : List Event} (h : Machine.Guarded step (fun s e => Possible s e ∧ Agrees s e) initial es)
    (htyped : ∀ e ∈ es, e.Typed) : ∃ t, Machine.run step initial es = some t ∧ Exact t.log := by
  have hguard : Machine.Guarded step (fun s e => Possible s e ∧ Agrees s e ∧ e.Typed) initial es :=
    (h.and_forall htyped).imp (I := fun _ => True) trivial (fun _ _ _ _ _ _ => trivial)
      fun _ _ _ he => ⟨he.1.1, he.1.2, he.2⟩
  obtain ⟨t, m, ht, hm, hbalanced⟩ := run_invariant Balanced.initial
    (fun _ _ _ _ hs hl _ he hchange => hl.change (hs.charges he.1 he.2) hchange) hguard
  exact ⟨t, ht, hm.log ▸ hbalanced.exact⟩

def twice : List Event :=
  [.timerRepeatAfter 2 3 (some 0) 0 0, .timerScan 3, .next, .ret, .next, .next, .next,
    .timerScan 6, .next, .ret, .next, .next, .next]

theorem run_exact_twice : ∃ t, Machine.run step initial twice = some t ∧ Exact t.log :=
  run_exact (by decide) (by decide)

/-- A timer that is to be called once, and whose callback puts its deadline off. -/
def putOff : List Event :=
  [.timerRepeatAfter 1 0 (some 0) 0 5, .timerScan 5, .next, .timerModify (some 0) 10 5, .ret, .next, .next, .next,
    .timerScan 15, .next]

/-- It is called again. -/
theorem putOff_not_exact : Machine.Guarded step Possible initial putOff ∧ (∀ e ∈ putOff, e.Typed) ∧
    ¬ ∃ t, Machine.run step initial putOff = some t ∧ Exact t.log := by
  refine ⟨by decide, by decide, fun hexact => ?_⟩
  obtain ⟨t, ht, hexact⟩ := hexact
  have hlog : (Machine.run step initial putOff).map State.log = some
      [.create 0 1 5, .scan 5 [0], .call 0, .modify 0 15, .charge, .scan 15 [0], .call 0] := by decide
  rw [ht] at hlog
  rw [Option.some.inj hlog] at hexact
  have hcalls := (hexact 0 1 ⟨⟨5, by decide⟩, by decide, by decide⟩).1
  exact absurd hcalls (by decide)

end Ivy.Timers

import Ivy.Timers.Scan

/-! The timers as a list, and what each step of the module makes of it. -/
namespace Ivy.Timers
open Linked

/-- The timers are in use as the application is to use them. -/
def Possible (s : State) : Event → Prop
  | .timerRepeatAfter _ _ _ _ _ => s.pc.outside = true
  | .timerRemove timer _ => s.pc.outside = true ∧ ∀ a ∈ timer, (s.timers.node a).isSome
  | .timerModify timer _ _ => s.pc.outside = true ∧ ∀ a ∈ timer, (s.timers.node a).isSome
  | .timerGetSmallestTimeout _ => s.pc.outside = true
  | .timerScan _ => s.pc = .idle
  | .next => s.pc.outside = false
  | .ret => ∃ stamp next, s.pc = .callback stamp next

instance : ∀ s e, Decidable (Possible s e)
  | s, .timerRepeatAfter _ _ _ _ _ => inferInstanceAs (Decidable (s.pc.outside = true))
  | s, .timerRemove timer _ =>
    inferInstanceAs (Decidable (s.pc.outside = true ∧ ∀ a ∈ timer, (s.timers.node a).isSome))
  | s, .timerModify timer _ _ =>
    inferInstanceAs (Decidable (s.pc.outside = true ∧ ∀ a ∈ timer, (s.timers.node a).isSome))
  | s, .timerGetSmallestTimeout _ => inferInstanceAs (Decidable (s.pc.outside = true))
  | s, .timerScan _ => inferInstanceAs (Decidable (s.pc = .idle))
  | s, .next => inferInstanceAs (Decidable (s.pc.outside = false))
  | s, .ret =>
    match hpc : s.pc with
    | .callback stamp next => .isTrue ⟨stamp, next, hpc⟩
    | .idle => .isFalse (by simp [Possible, hpc])
    | .scan _ _ => .isFalse (by simp [Possible, hpc])
    | .charge _ _ => .isFalse (by simp [Possible, hpc])

/-- The walk stands before the last nodes of the list. -/
def Walks (ns : List (ℕ × Timer)) (timer : Option ℕ) (rest : List (ℕ × Timer)) : Prop :=
  timer = first rest ∧ ∃ pre, ns = pre ++ rest

section Walking
variable {ns : List (ℕ × Timer)} {timer : Option ℕ} {rest : List (ℕ × Timer)} {n : ℕ × Timer}

theorem Walks.start : Walks ns (first ns) ns := ⟨rfl, [], rfl⟩

theorem Walks.push (hw : Walks ns timer rest) : Walks (n :: ns) timer rest := by
  obtain ⟨hfirst, pre, rfl⟩ := hw
  exact ⟨hfirst, n :: pre, rfl⟩

theorem Walks.assign (a : ℕ) (v : Timer) (hw : Walks ns timer rest) :
    Walks (ns.map (assign a v)) timer (rest.map (assign a v)) := by
  obtain ⟨hfirst, pre, rfl⟩ := hw
  exact ⟨hfirst.trans (first_map_assign a v rest).symm, pre.map (Linked.assign a v), List.map_append⟩

theorem Walks.next (hw : Walks ns timer (n :: rest)) : Walks ns (first rest) rest := by
  obtain ⟨-, pre, rfl⟩ := hw
  exact ⟨rfl, pre ++ [n], by simp⟩

theorem Walks.mem (hw : Walks ns timer (n :: rest)) : n ∈ ns := by
  obtain ⟨-, pre, rfl⟩ := hw
  simp

theorem Walks.eq_nil (hw : Walks ns none rest) : rest = [] := by
  cases rest with
  | nil => rfl
  | cons n rest => exact absurd hw.1.symm (Option.some_ne_none n.1)

theorem Walks.eq_cons {a : ℕ} (hw : Walks ns (some a) rest) : ∃ v rest', rest = (a, v) :: rest' := by
  cases rest with
  | nil => exact absurd hw.1 (Option.some_ne_none a)
  | cons n rest =>
    obtain rfl : a = n.1 := Option.some.inj hw.1
    exact ⟨n.2, rest, rfl⟩

theorem Walks.filter (hnodup : (ns.map Prod.fst).Nodup) (hw : Walks ns timer (n :: rest)) :
    Walks (ns.filter (·.1 ≠ n.1)) (first rest) rest := by
  obtain ⟨-, pre, rfl⟩ := hw
  exact ⟨rfl, pre, filter_address hnodup⟩

theorem Walks.eq_dropWhile {a : ℕ} (hnodup : (ns.map Prod.fst).Nodup) (hw : Walks ns (some a) rest) :
    rest = ns.dropWhile (·.1 ≠ a) := by
  obtain ⟨v, rest, rfl⟩ := hw.eq_cons
  obtain ⟨-, pre, rfl⟩ := hw
  have hpre : ∀ m ∈ pre, decide (m.1 ≠ a) = true := by
    rw [List.map_append, List.nodup_append] at hnodup
    intro m hm
    exact decide_eq_true (hnodup.2.2 m.1 (List.mem_map_of_mem hm) a (by simp))
  rw [List.dropWhile_append_of_pos hpre, List.dropWhile_cons_of_neg (by simp)]

theorem Walks.unique {rest' : List (ℕ × Timer)} (hnodup : (ns.map Prod.fst).Nodup)
    (hw : Walks ns timer rest) (hw' : Walks ns timer rest') : rest = rest' := by
  cases timer with
  | none => rw [hw.eq_nil, hw'.eq_nil]
  | some a => rw [hw.eq_dropWhile hnodup, hw'.eq_dropWhile hnodup]

end Walking

structure Schedule where
  timers : List (ℕ × Timer)
  brk : ℕ
  pc : Pc
  log : List Entry

inductive Change (l : Schedule) : Event → Schedule → Prop
  | same {e : Event} (hpc : l.pc.outside = true) : Change l e l
  | create {count ltime : ℤ} {cb user_data stamp : ℕ} (hpc : l.pc.outside = true) :
    Change l (.timerRepeatAfter count ltime (some cb) user_data stamp)
      { l with
        timers := (l.brk, ⟨count, u64 ltime, u64 (stamp + ltime), cb, user_data, false⟩) :: l.timers
        brk := l.brk + 1
        log := l.log ++ [.create l.brk count (u64 (stamp + ltime))] }
  | remove {a stamp : ℕ} {v : Timer} (hpc : l.pc.outside = true) (hv : (a, v) ∈ l.timers)
      (hmark : v.mark2Remove = false) :
    Change l (.timerRemove (some a) stamp)
      { l with
        timers := l.timers.map (assign a { v with mark2Remove := true })
        log := l.log ++ [.remove a] }
  | modify {a stamp : ℕ} {ltime : ℤ} {v : Timer} (hpc : l.pc.outside = true) (hv : (a, v) ∈ l.timers)
      (hmark : v.mark2Remove = false) :
    Change l (.timerModify (some a) ltime stamp)
      { l with
        timers := l.timers.map (assign a { v with period := u64 ltime, when := u64 (stamp + ltime) })
        log := l.log ++ [.modify a (u64 (stamp + ltime))] }
  | scan {stamp : ℕ} (hpc : l.pc = .idle) :
    Change l (.timerScan stamp)
      { l with pc := .scan stamp (first l.timers), log := l.log ++ [.scan stamp (l.timers.map Prod.fst)] }
  | call {stamp a : ℕ} {v : Timer} {rest : List (ℕ × Timer)} (hpc : l.pc = .scan stamp (some a))
      (hw : Walks l.timers (some a) ((a, v) :: rest)) (hdue : v.when ≤ stamp) (hmark : v.mark2Remove = false) :
    Change l .next { l with pc := .callback stamp (first rest), log := l.log ++ [.call a] }
  | skip {stamp a : ℕ} {v : Timer} {rest : List (ℕ × Timer)} (hpc : l.pc = .scan stamp (some a))
      (hw : Walks l.timers (some a) ((a, v) :: rest)) (hdue : v.mark2Remove = false → stamp < v.when) :
    Change l .next { l with pc := .scan stamp (first rest), log := l.log ++ [.skip a] }
  | ret {stamp : ℕ} {next : Option ℕ} (hpc : l.pc = .callback stamp next) :
    Change l .ret { l with pc := .scan stamp next }
  | charge {stamp : ℕ} (hpc : l.pc = .scan stamp none) :
    Change l .next { l with pc := .charge stamp (first l.timers), log := l.log ++ [.charge] }
  | free {stamp a : ℕ} {v : Timer} {rest : List (ℕ × Timer)} (hpc : l.pc = .charge stamp (some a))
      (hw : Walks l.timers (some a) ((a, v) :: rest))
      (hlast : v.mark2Remove = false →
        v.when ≤ stamp ∧ v.repeats ≠ timerLoop ∧ Int.bmod (v.repeats - 1) (2 ^ 32) = 0) :
    Change l .next
      { l with
        timers := l.timers.filter (·.1 ≠ a)
        pc := .charge stamp (first rest)
        log := l.log ++ [.free a] }
  | rearm {stamp a : ℕ} {v : Timer} {rest : List (ℕ × Timer)} {repeats : ℤ}
      (hpc : l.pc = .charge stamp (some a)) (hw : Walks l.timers (some a) ((a, v) :: rest))
      (hmark : v.mark2Remove = false) (hdue : v.when ≤ stamp)
      (hrepeats : if v.repeats = timerLoop then repeats = v.repeats
        else repeats = Int.bmod (v.repeats - 1) (2 ^ 32) ∧ repeats ≠ 0) :
    Change l .next
      { l with
        timers := l.timers.map (assign a { v with repeats := repeats, when := u64 (stamp + v.period) })
        pc := .charge stamp (first rest)
        log := l.log ++ [.rearm a (u64 (stamp + v.period))] }
  | keep {stamp a : ℕ} {v : Timer} {rest : List (ℕ × Timer)} (hpc : l.pc = .charge stamp (some a))
      (hw : Walks l.timers (some a) ((a, v) :: rest)) (hmark : v.mark2Remove = false) (hdue : stamp < v.when) :
    Change l .next { l with pc := .charge stamp (first rest) }
  | done {stamp : ℕ} (hpc : l.pc = .charge stamp none) : Change l .next { l with pc := .idle }

/-- A walk stands somewhere in the list. -/
def Standing (ns : List (ℕ × Timer)) : Pc → Prop
  | .idle => True
  | .scan _ timer => ∃ rest, Walks ns timer rest
  | .callback _ next => ∃ rest, Walks ns next rest
  | .charge _ timer => ∃ rest, Walks ns timer rest

structure Holds (s : State) (l : Schedule) : Prop where
  timers : s.timers.Holds l.timers
  brk : s.timers.brk = l.brk
  pc : s.pc = l.pc
  log : s.log = l.log
  standing : Standing l.timers l.pc

section Standing
variable {ns : List (ℕ × Timer)} {pc : Pc}

theorem Standing.push {n : ℕ × Timer} (h : Standing ns pc) : Standing (n :: ns) pc := by
  cases pc with
  | idle => trivial
  | scan stamp timer => exact h.imp fun _ hw => hw.push
  | callback stamp next => exact h.imp fun _ hw => hw.push
  | charge stamp timer => exact h.imp fun _ hw => hw.push

theorem Standing.assign (a : ℕ) (v : Timer) (h : Standing ns pc) : Standing (ns.map (assign a v)) pc := by
  cases pc with
  | idle => trivial
  | scan stamp timer =>
    obtain ⟨rest, hw⟩ := h
    exact ⟨_, hw.assign a v⟩
  | callback stamp next =>
    obtain ⟨rest, hw⟩ := h
    exact ⟨_, hw.assign a v⟩
  | charge stamp timer =>
    obtain ⟨rest, hw⟩ := h
    exact ⟨_, hw.assign a v⟩

end Standing

namespace Holds
variable {s : State} {l : Schedule}

theorem initial : Holds initial ⟨[], 0, .idle, []⟩ :=
  ⟨holds_empty, rfl, rfl, rfl, trivial⟩

theorem nodup (h : Holds s l) : (l.timers.map Prod.fst).Nodup := h.timers.path.nodup

theorem mem (h : Holds s l) {a : ℕ} (ha : (s.timers.node a).isSome) :
    ∃ v, (a, v) ∈ l.timers ∧ s.timers.val a = some v := by
  obtain ⟨n, hn, rfl⟩ := List.mem_map.mp (h.timers.linked a (Option.isSome_iff_ne_none.mp ha))
  exact ⟨n.2, hn, h.timers.val_eq hn⟩

theorem node_eq (h : Holds s l) {a : ℕ} {rest : List (ℕ × Timer)} (hw : Walks l.timers (some a) rest) :
    ∃ v rest', rest = (a, v) :: rest' ∧ s.timers.node a = some ⟨v, first rest'⟩ := by
  obtain ⟨v, rest, rfl⟩ := hw.eq_cons
  obtain ⟨-, pre, hl⟩ := hw
  obtain ⟨-, next, hnode, hpath⟩ := (hl ▸ h.timers.path).suffix
  exact ⟨v, rest, rfl, hpath.first_eq ▸ hnode⟩

theorem adjTimeout (h : Holds s l) (current : ℕ) : ∃ t, adjTimeout current s = some t ∧ Holds t l := by
  unfold Timers.adjTimeout
  cases hhead : s.timers.head with
  | none => exact ⟨_, rfl, h.timers, h.brk, h.pc, h.log, h.standing⟩
  | some a =>
    have hwalks : Walks l.timers (some a) l.timers := ⟨hhead ▸ h.timers.path.first_eq, [], rfl⟩
    obtain ⟨t, rest, -, hnode⟩ := h.node_eq hwalks
    have hwalk := each_eq h.timers.path (fun newTimeout _ timer =>
      if !timer.mark2Remove && timer.when < newTimeout then timer.when else newTimeout) t.when h.timers.length_le
    rw [hhead] at hwalk
    dsimp only
    rw [Store.val, hnode, Option.map_some, Option.bind_some, hwalk]
    exact ⟨_, rfl, h.timers, h.brk, h.pc, h.log, h.standing⟩

theorem assign (h : Holds s l) (a : ℕ) (v : Timer) (e : Entry) :
    Holds ({ s with timers := s.timers.set a v }.write e)
      { l with timers := l.timers.map (assign a v), log := l.log ++ [e] } :=
  ⟨h.timers.set a v, h.brk, h.pc, congrArg (· ++ [e]) h.log, h.standing.assign a v⟩

theorem write (h : Holds s l) (e : Entry) {pc : Pc} (hpc : Standing l.timers pc) :
    Holds ((s.write e).goto pc) { l with pc := pc, log := l.log ++ [e] } :=
  ⟨h.timers, h.brk, rfl, congrArg (· ++ [e]) h.log, hpc⟩

theorem goto (h : Holds s l) {pc : Pc} (hpc : Standing l.timers pc) : Holds (s.goto pc) { l with pc := pc } :=
  ⟨h.timers, h.brk, rfl, h.log, hpc⟩

theorem timerRepeatAfter (h : Holds s l) (hpc : l.pc.outside = true) (count ltime : ℤ) (cb : Option ℕ)
    (user_data stamp : ℕ) :
    ∃ m, Holds (timerRepeatAfter count ltime cb user_data stamp s) m ∧
      Change l (.timerRepeatAfter count ltime cb user_data stamp) m := by
  cases cb with
  | none => exact ⟨l, h, .same hpc⟩
  | some cb =>
    refine ⟨_, ?_, .create hpc⟩
    have hpush (u : State) (htimers : u.timers = s.timers) (hp : u.pc = s.pc) (hlog : u.log = s.log) (v : Timer)
        (e : Entry) : Holds ({ u with timers := u.timers.push v }.write e)
          { l with timers := (l.brk, v) :: l.timers, brk := l.brk + 1, log := l.log ++ [e] } := by
      constructor
      · rw [← h.brk, ← htimers]
        exact (htimers ▸ h.timers).push v
      · exact congrArg (· + 1) (htimers ▸ h.brk)
      · exact hp.trans h.pc
      · exact congrArg (· ++ [e]) (hlog.trans h.log)
      · exact h.standing.push
    unfold Timers.timerRepeatAfter
    rw [h.brk]
    apply hpush
    all_goals split <;> rfl

theorem timerRemove (h : Holds s l) (hpc : l.pc.outside = true) {timer : Option ℕ}
    (ha : ∀ a ∈ timer, (s.timers.node a).isSome) (stamp : ℕ) :
    ∃ t m, timerRemove timer stamp s = some t ∧ Holds t m ∧ Change l (.timerRemove timer stamp) m := by
  cases timer with
  | none => exact ⟨s, l, rfl, h, .same hpc⟩
  | some a =>
    obtain ⟨v, hmem, hval⟩ := h.mem (ha a rfl)
    dsimp only [Timers.timerRemove]
    rw [hval, Option.bind_some]
    split_ifs with hmark
    · exact ⟨s, l, rfl, h, .same hpc⟩
    · obtain ⟨t, ht, hholds⟩ := (h.assign a { v with mark2Remove := true } (.remove a)).adjTimeout stamp
      exact ⟨t, _, ht, hholds, .remove hpc hmem (Bool.not_eq_true _ ▸ hmark)⟩

theorem timerModify (h : Holds s l) (hpc : l.pc.outside = true) {timer : Option ℕ}
    (ha : ∀ a ∈ timer, (s.timers.node a).isSome) (ltime : ℤ) (stamp : ℕ) :
    ∃ t m, timerModify timer ltime stamp s = some t ∧ Holds t m ∧ Change l (.timerModify timer ltime stamp) m := by
  cases timer with
  | none => exact ⟨s, l, rfl, h, .same hpc⟩
  | some a =>
    obtain ⟨v, hmem, hval⟩ := h.mem (ha a rfl)
    dsimp only [Timers.timerModify]
    rw [hval, Option.bind_some]
    split_ifs with hmark
    · exact ⟨s, l, rfl, h, .same hpc⟩
    · let w : Timer := { v with period := u64 ltime, when := u64 (stamp + ltime) }
      obtain ⟨t, ht, hholds⟩ := (h.assign a w (.modify a w.when)).adjTimeout stamp
      exact ⟨t, _, ht, hholds, .modify hpc hmem (Bool.not_eq_true _ ▸ hmark)⟩

theorem visitScan (h : Holds s l) {stamp a : ℕ} (hpc : l.pc = .scan stamp (some a)) :
    ∃ t m, visitScan stamp a s = some t ∧ Holds t m ∧ Change l .next m := by
  obtain ⟨rest, hw⟩ : Standing l.timers (.scan stamp (some a)) := hpc ▸ h.standing
  obtain ⟨v, rest, rfl, hnode⟩ := h.node_eq hw
  unfold Timers.visitScan
  rw [hnode, Option.map_some]
  dsimp only
  split_ifs with hcall
  · have hdue : v.when ≤ stamp ∧ v.mark2Remove = false := by simpa using hcall
    exact ⟨_, _, rfl, h.write _ ⟨rest, hw.next⟩, .call hpc hw hdue.1 hdue.2⟩
  · have hnot : v.mark2Remove = false → stamp < v.when := by
      intro hmark
      simpa [hmark] using hcall
    exact ⟨_, _, rfl, h.write _ ⟨rest, hw.next⟩, .skip hpc hw hnot⟩

theorem removeTimer (h : Holds s l) {n : ℕ × Timer} {rest : List (ℕ × Timer)} (stamp : ℕ)
    (hw : Walks l.timers (some n.1) (n :: rest)) :
    ∃ t, removeTimer n.1 s = some t ∧ Holds (t.goto (.charge stamp (first rest)))
      { l with
        timers := l.timers.filter (·.1 ≠ n.1)
        pc := .charge stamp (first rest)
        log := l.log ++ [.free n.1] } := by
  obtain ⟨timers, hremove, hremoved⟩ := h.timers.remove hw.mem
  refine ⟨{ s with timers := timers }.write (.free n.1), ?_, ?_⟩
  · rw [Timers.removeTimer, hremove, Option.map_some]
  · constructor
    · exact hremoved.holds
    · exact hremoved.brk.trans h.brk
    · rfl
    · exact congrArg (· ++ [_]) h.log
    · exact ⟨rest, hw.filter h.nodup⟩

theorem visitCharge (h : Holds s l) {stamp a : ℕ} (hpc : l.pc = .charge stamp (some a)) :
    ∃ t m, visitCharge stamp a s = some t ∧ Holds t m ∧ Change l .next m := by
  obtain ⟨rest, hw⟩ : Standing l.timers (.charge stamp (some a)) := hpc ▸ h.standing
  obtain ⟨v, rest, rfl, hnode⟩ := h.node_eq hw
  obtain ⟨u, hu, hfree⟩ := h.removeTimer (n := (a, v)) stamp hw
  have hstand (w : Timer) : Standing (l.timers.map (Linked.assign a w)) (.charge stamp (first rest)) :=
    Standing.assign a w ⟨rest, hw.next⟩
  have hrearm (repeats : ℤ) (when : ℕ) := (h.assign a { v with repeats := repeats, when := when }
    (.rearm a when)).goto (hstand _)
  unfold Timers.visitCharge chargeTimer
  rw [hnode, Option.bind_some]
  dsimp only
  split_ifs with hmark hdue hloop hlast
  · exact ⟨_, _, by rw [hu, Option.map_some], hfree, .free hpc hw fun hfalse => by simp [hmark] at hfalse⟩
  · refine ⟨_, _, rfl, hrearm _ _, .rearm hpc hw (Bool.not_eq_true _ ▸ hmark) hdue ?_⟩
    rw [if_pos hloop]
  · refine ⟨_, _, rfl, hrearm _ _, .rearm hpc hw (Bool.not_eq_true _ ▸ hmark) hdue ?_⟩
    rw [if_neg hloop]
    exact ⟨rfl, hlast⟩
  · exact ⟨_, _, by rw [hu, Option.map_some], hfree, .free hpc hw fun _ => ⟨hdue, hloop, not_not.mp hlast⟩⟩
  · exact ⟨_, _, rfl, h.goto ⟨rest, hw.next⟩, .keep hpc hw (Bool.not_eq_true _ ▸ hmark) (Nat.lt_of_not_le hdue)⟩

theorem advance (h : Holds s l) (hpc : l.pc.outside = false) :
    ∃ t m, advance s = some t ∧ Holds t m ∧ Change l .next m := by
  unfold Timers.advance
  rw [h.pc]
  cases hs : l.pc with
  | idle => simp [hs, Pc.outside] at hpc
  | callback => simp [hs, Pc.outside] at hpc
  | scan stamp timer =>
    cases timer with
    | none =>
      have hhead : s.timers.head = first l.timers := h.timers.path.first_eq
      refine ⟨_, _, rfl, ?_, .charge hs⟩
      rw [hhead]
      exact h.write _ ⟨_, Walks.start⟩
    | some a => exact h.visitScan hs
  | charge stamp timer =>
    cases timer with
    | none => exact ⟨_, _, rfl, h.goto trivial, .done hs⟩
    | some a => exact h.visitCharge hs

/-- A step on the heap is a change of the list. -/
theorem step (h : Holds s l) {e : Event} (he : Possible s e) :
    ∃ t m, step s e = some t ∧ Holds t m ∧ Change l e m := by
  cases e with
  | timerRepeatAfter count ltime cb user_data stamp =>
    obtain ⟨m, hm, hchange⟩ := h.timerRepeatAfter (h.pc ▸ he) count ltime cb user_data stamp
    exact ⟨_, m, if_pos he, hm, hchange⟩
  | timerRemove timer stamp =>
    obtain ⟨t, m, ht, hm, hchange⟩ := h.timerRemove (h.pc ▸ he.1) he.2 stamp
    exact ⟨t, m, (if_pos he.1).trans ht, hm, hchange⟩
  | timerModify timer ltime stamp =>
    obtain ⟨t, m, ht, hm, hchange⟩ := h.timerModify (h.pc ▸ he.1) he.2 ltime stamp
    exact ⟨t, m, (if_pos he.1).trans ht, hm, hchange⟩
  | timerGetSmallestTimeout stamp =>
    obtain ⟨t, ht, hm⟩ := h.adjTimeout stamp
    exact ⟨t, l, (if_pos he).trans ht, hm, .same (h.pc ▸ he)⟩
  | timerScan stamp =>
    have hhead : s.timers.head = first l.timers := h.timers.path.first_eq
    refine ⟨_, _, if_pos he, ?_, .scan (h.pc.symm.trans he)⟩
    unfold timerScan
    rw [hhead, h.timers.addresses_eq]
    exact h.write _ ⟨_, Walks.start⟩
  | next => exact h.advance (h.pc ▸ he)
  | ret =>
    obtain ⟨stamp, next, hs⟩ := he
    have hs' : l.pc = .callback stamp next := h.pc.symm.trans hs
    obtain ⟨rest, hw⟩ : Standing l.timers (.callback stamp next) := hs' ▸ h.standing
    refine ⟨s.goto (.scan stamp next), _, ?_, h.goto ⟨rest, hw⟩, .ret hs'⟩
    unfold Timers.step
    rw [hs]

end Holds

/-- What the changes keep holds of the list after every run. -/
theorem run_invariant {G : State → Event → Prop} {I : Schedule → Prop} (h₀ : I ⟨[], 0, .idle, []⟩)
    (hkeep : ∀ s l m e, Holds s l → I l → Possible s e → G s e → Change l e m → I m) {es : List Event}
    (hG : Machine.Guarded step (fun s e => Possible s e ∧ G s e) initial es) :
    ∃ t m, Machine.run step initial es = some t ∧ Holds t m ∧ I m := by
  have hstep : ∀ s e, (∃ l, Holds s l ∧ I l) → Possible s e ∧ G s e →
      ∃ t, step s e = some t ∧ ∃ m, Holds t m ∧ I m := by
    intro s e hs he
    obtain ⟨l, hl, hI⟩ := hs
    obtain ⟨t, m, ht, hm, hchange⟩ := hl.step he.1
    exact ⟨t, ht, m, hm, hkeep s l m e hl hI he.1 he.2 hchange⟩
  obtain ⟨t, ht, m, hm, hI⟩ := Machine.run_invariant ⟨_, Holds.initial, h₀⟩ hstep hG
  exact ⟨t, m, ht, hm, hI⟩

end Ivy.Timers

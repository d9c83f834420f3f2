import Ivy.Lib.History
import Ivy.Timers.Schedule

/-! A scan visits the timers that it finds, calls those that are due, and never follows the link
of a freed one. -/
namespace Ivy.Timers
open Linked History

/-- What can be said of the timers from what happened: the reading and the list that the last scan
began with, the timers that its first walk has visited and called, the deadlines that were set,
and the timers that were removed. -/
structure Past where
  reading : ℕ
  listed : List ℕ
  visited : List ℕ
  called : List ℕ
  deadline : ℕ → ℕ
  removed : List ℕ

namespace Past
variable (h : Past)

def start : Past := ⟨0, [], [], [], fun _ => 0, []⟩

def sets (timer when : ℕ) : Past := { h with deadline := Function.update h.deadline timer when }

def after : Entry → Past
  | .create timer _ when => h.sets timer when
  | .modify timer when => h.sets timer when
  | .rearm timer when => h.sets timer when
  | .remove timer => { h with removed := h.removed ++ [timer] }
  | .scan stamp timers => { h with reading := stamp, listed := timers, visited := [], called := [] }
  | .call timer => { h with visited := h.visited ++ [timer], called := h.called ++ [timer] }
  | .skip timer => { h with visited := h.visited ++ [timer] }
  | .charge => h
  | .free _ => h

theorem deadline_sets (timer when : ℕ) : (h.sets timer when).deadline timer = when := by
  simp [sets]

theorem deadline_sets_ne {a timer : ℕ} (ha : a ≠ timer) (when : ℕ) :
    (h.sets timer when).deadline a = h.deadline a := by
  simp [sets, ha]

/-- The callback of a timer is to be called: it is due and not removed. -/
def Due (timer : ℕ) : Prop := h.deadline timer ≤ h.reading ∧ timer ∉ h.removed

end Past

def past (log : List Entry) : Past := log.foldl Past.after .start

@[simp] theorem past_concat (log : List Entry) (e : Entry) : past (log ++ [e]) = (past log).after e := by
  simp [past]

/-- What may happen next: a scan visits the timers that it found in the list, in order, calls those
that are due and no other, each at most once, and has visited all of them when its second walk
begins. -/
def Allowed (before : List Entry) : Entry → Prop
  | .call timer => (past before).visited ++ [timer] <+: (past before).listed ∧
    timer ∉ (past before).called ∧ (past before).Due timer
  | .skip timer => (past before).visited ++ [timer] <+: (past before).listed ∧ ¬ (past before).Due timer
  | .charge => (past before).visited = (past before).listed
  | _ => True

/-- What a scan has visited, and what it still has to. -/
def Visiting (l : Schedule) (h : Past) : Pc → Prop
  | .scan stamp timer => stamp = h.reading ∧
    ∃ rest, Walks l.timers timer rest ∧ h.listed = h.visited ++ rest.map Prod.fst
  | .callback stamp next => stamp = h.reading ∧
    ∃ rest, Walks l.timers next rest ∧ h.listed = h.visited ++ rest.map Prod.fst
  | _ => True

structure Sound (l : Schedule) : Prop where
  nodup : (l.timers.map Prod.fst).Nodup
  below : ∀ n ∈ l.timers, n.1 < l.brk
  deadline : ∀ n ∈ l.timers, n.2.when = (past l.log).deadline n.1
  marked : ∀ n ∈ l.timers, n.2.mark2Remove = true ↔ n.1 ∈ (past l.log).removed
  removed : ∀ a ∈ (past l.log).removed, a < l.brk
  listed : (past l.log).listed.Nodup
  called : (past l.log).called ⊆ (past l.log).visited
  visiting : Visiting l (past l.log) l.pc
  placed : Placed Allowed l.log

/-- An entry that is no part of the first walk. -/
def Aside (e : Entry) : Prop :=
  ∀ h : Past, (h.after e).reading = h.reading ∧ (h.after e).listed = h.listed ∧
    (h.after e).visited = h.visited ∧ (h.after e).called = h.called

section Visiting
variable {l m : Schedule} {h : Past} {pc : Pc}

theorem Visiting.imp (hpc : Visiting l h pc)
    (hw : ∀ timer rest, Walks l.timers timer rest →
      ∃ rest', Walks m.timers timer rest' ∧ rest'.map Prod.fst = rest.map Prod.fst) : Visiting m h pc := by
  cases pc with
  | idle => trivial
  | charge stamp timer => trivial
  | scan stamp timer =>
    obtain ⟨hstamp, rest, hwalks, hlisted⟩ := hpc
    obtain ⟨rest', hwalks', hrest⟩ := hw timer rest hwalks
    exact ⟨hstamp, rest', hwalks', hrest ▸ hlisted⟩
  | callback stamp next =>
    obtain ⟨hstamp, rest, hwalks, hlisted⟩ := hpc
    obtain ⟨rest', hwalks', hrest⟩ := hw next rest hwalks
    exact ⟨hstamp, rest', hwalks', hrest ▸ hlisted⟩

theorem Visiting.aside {e : Entry} (he : Aside e) (hpc : Visiting l h pc) : Visiting l (h.after e) pc := by
  obtain ⟨hreading, hlisted, hvisited, -⟩ := he h
  unfold Visiting at *
  rw [hreading, hlisted, hvisited]
  exact hpc

end Visiting

namespace Sound
variable {l m : Schedule}

theorem initial : Sound ⟨[], 0, .idle, []⟩ where
  nodup := List.nodup_nil
  below _ hn := absurd hn List.not_mem_nil
  deadline _ hn := absurd hn List.not_mem_nil
  marked _ hn := absurd hn List.not_mem_nil
  removed _ ha := absurd ha List.not_mem_nil
  listed := List.nodup_nil
  called _ ha := ha
  visiting := trivial
  placed := placed_nil

theorem of_past {p : Past} (hpast : past m.log = p) (hnodup : (m.timers.map Prod.fst).Nodup)
    (hbelow : ∀ n ∈ m.timers, n.1 < m.brk) (hdeadline : ∀ n ∈ m.timers, n.2.when = p.deadline n.1)
    (hmarked : ∀ n ∈ m.timers, n.2.mark2Remove = true ↔ n.1 ∈ p.removed) (hremoved : ∀ a ∈ p.removed, a < m.brk)
    (hlisted : p.listed.Nodup) (hcalled : p.called ⊆ p.visited) (hvisiting : Visiting m p m.pc)
    (hplaced : Placed Allowed m.log) : Sound m := by
  subst hpast
  exact ⟨hnodup, hbelow, hdeadline, hmarked, hremoved, hlisted, hcalled, hvisiting, hplaced⟩

theorem aside (h : Sound l) {e : Entry} (he : Aside e) (hallowed : Allowed l.log e) (hlog : m.log = l.log ++ [e])
    (hnodup : (m.timers.map Prod.fst).Nodup) (hbelow : ∀ n ∈ m.timers, n.1 < m.brk)
    (hdeadline : ∀ n ∈ m.timers, n.2.when = ((past l.log).after e).deadline n.1)
    (hmarked : ∀ n ∈ m.timers, n.2.mark2Remove = true ↔ n.1 ∈ ((past l.log).after e).removed)
    (hremoved : ∀ a ∈ ((past l.log).after e).removed, a < m.brk)
    (hvisiting : Visiting m (past l.log) m.pc) : Sound m := by
  have hpast : past m.log = (past l.log).after e := by rw [hlog, past_concat]
  obtain ⟨-, hlisted, hvisited, hcalled⟩ := he (past l.log)
  apply of_past hpast hnodup hbelow hdeadline hmarked hremoved
  · rw [hlisted]
    exact h.listed
  · rw [hvisited, hcalled]
    exact h.called
  · exact hvisiting.aside he
  · rw [hlog]
    exact placed_concat.mpr ⟨h.placed, hallowed⟩

theorem goto (h : Sound l) {pc : Pc} (hpc : Visiting l (past l.log) pc) : Sound { l with pc := pc } where
  nodup := h.nodup
  below := h.below
  deadline := h.deadline
  marked := h.marked
  removed := h.removed
  listed := h.listed
  called := h.called
  visiting := hpc
  placed := h.placed

theorem visit (h : Sound l) {e : Entry} {a : ℕ} {called : List ℕ} {pc : Pc}
    (hafter : (past l.log).after e = { past l.log with visited := (past l.log).visited ++ [a], called := called })
    (hcalled : called ⊆ (past l.log).visited ++ [a]) (hallowed : Allowed l.log e)
    (hpc : Visiting l { past l.log with visited := (past l.log).visited ++ [a], called := called } pc) :
    Sound { l with pc := pc, log := l.log ++ [e] } := by
  have hpast : past (l.log ++ [e]) =
      { past l.log with visited := (past l.log).visited ++ [a], called := called } := by
    rw [past_concat, hafter]
  exact of_past hpast h.nodup h.below h.deadline h.marked h.removed h.listed hcalled hpc
    (placed_concat.mpr ⟨h.placed, hallowed⟩)

theorem assign (h : Sound l) {e : Entry} {a : ℕ} {v w : Timer} (hv : (a, v) ∈ l.timers) (he : Aside e)
    (hallowed : Allowed l.log e) (hwhen : w.when = ((past l.log).after e).deadline a)
    (hwhens : ∀ b ≠ a, ((past l.log).after e).deadline b = (past l.log).deadline b)
    (hmark : w.mark2Remove = true ↔ a ∈ ((past l.log).after e).removed)
    (hmarks : ∀ b ≠ a, b ∈ ((past l.log).after e).removed ↔ b ∈ (past l.log).removed) :
    Sound { l with timers := l.timers.map (Linked.assign a w), log := l.log ++ [e] } := by
  refine h.aside he hallowed rfl ?_ ?_ ?_ ?_ ?_ ?_
  · rw [map_fst_assign]
    exact h.nodup
  · intro n hn
    obtain ⟨m, hm, rfl⟩ := List.mem_map.mp hn
    rw [fst_assign]
    exact h.below m hm
  · intro n hn
    obtain ⟨m, hm, rfl⟩ := List.mem_map.mp hn
    by_cases ha : m.1 = a
    · simpa only [Linked.assign, if_pos ha] using hwhen
    · simpa only [Linked.assign, if_neg ha, hwhens m.1 ha] using h.deadline m hm
  · intro n hn
    obtain ⟨m, hm, rfl⟩ := List.mem_map.mp hn
    by_cases ha : m.1 = a
    · simpa only [Linked.assign, if_pos ha] using hmark
    · simpa only [Linked.assign, if_neg ha, hmarks m.1 ha] using h.marked m hm
  · intro b hb
    by_cases ha : b = a
    · exact ha ▸ h.below (a, v) hv
    · exact h.removed b ((hmarks b ha).mp hb)
  · apply h.visiting.imp
    exact fun timer rest hw => ⟨_, hw.assign a w, map_fst_assign a w rest⟩

theorem create (h : Sound l) {v : Timer} {count : ℤ} {when : ℕ} (hwhen : v.when = when)
    (hmark : v.mark2Remove = false) :
    Sound { l with
      timers := (l.brk, v) :: l.timers
      brk := l.brk + 1
      log := l.log ++ [.create l.brk count when] } := by
  have hnew : ∀ n ∈ l.timers, n.1 ≠ l.brk := fun n hn => Nat.ne_of_lt (h.below n hn)
  have hbrk : l.brk ∉ (past l.log).removed := fun hb => Nat.lt_irrefl _ (h.removed _ hb)
  refine h.aside (e := .create l.brk count when) (fun _ => ⟨rfl, rfl, rfl, rfl⟩) trivial rfl ?_ ?_ ?_ ?_ ?_ ?_
  · apply h.nodup.cons
    intro hmem
    obtain ⟨n, hn, heq⟩ := List.mem_map.mp hmem
    exact hnew n hn heq
  · intro n hn
    rcases List.mem_cons.mp hn with rfl | hn
    · exact Nat.lt_succ_self _
    · exact Nat.lt_succ_of_lt (h.below n hn)
  · intro n hn
    rcases List.mem_cons.mp hn with rfl | hn
    · exact hwhen.trans ((past l.log).deadline_sets _ when).symm
    · exact (h.deadline n hn).trans ((past l.log).deadline_sets_ne (hnew n hn) when).symm
  · intro n hn
    rcases List.mem_cons.mp hn with rfl | hn
    · exact ⟨fun htrue => absurd (hmark.symm.trans htrue) Bool.false_ne_true, fun hb => absurd hb hbrk⟩
    · exact h.marked n hn
  · exact fun a ha => Nat.lt_succ_of_lt (h.removed a ha)
  · apply h.visiting.imp
    exact fun timer rest hw => ⟨rest, hw.push, rfl⟩

theorem passes (h : Sound l) {stamp a : ℕ} {v : Timer} {rest : List (ℕ × Timer)}
    (hpc : l.pc = .scan stamp (some a)) (hw : Walks l.timers (some a) ((a, v) :: rest)) :
    stamp = (past l.log).reading ∧ a ∉ (past l.log).visited ∧
      (past l.log).listed = ((past l.log).visited ++ [a]) ++ rest.map Prod.fst := by
  obtain ⟨hstamp, rest', hw', hlisted⟩ : Visiting l (past l.log) (.scan stamp (some a)) := hpc ▸ h.visiting
  obtain rfl := hw'.unique h.nodup hw
  have hnodup := h.listed
  rw [hlisted, List.nodup_append] at hnodup
  refine ⟨hstamp, fun hvisited => hnodup.2.2 a hvisited a (by simp) rfl, ?_⟩
  rw [hlisted, List.append_assoc, List.map_cons, List.singleton_append]

theorem due_iff (h : Sound l) {a : ℕ} {v : Timer} (hv : (a, v) ∈ l.timers) :
    (past l.log).Due a ↔ v.when ≤ (past l.log).reading ∧ v.mark2Remove = false := by
  unfold Past.Due
  rw [← h.deadline _ hv, ← h.marked _ hv, Bool.not_eq_true]

theorem change (h : Sound l) {e : Event} (hchange : Change l e m) : Sound m := by
  cases hchange with
  | same => exact h
  | create hpc => exact h.create rfl rfl
  | @remove a stamp v hpc hv hmark =>
    apply h.assign (e := .remove a) hv (fun _ => ⟨rfl, rfl, rfl, rfl⟩) trivial
    · exact h.deadline _ hv
    · exact fun _ _ => rfl
    · exact ⟨fun _ => List.mem_append_right _ (List.mem_singleton_self _), fun _ => rfl⟩
    · intro b hb
      simp [Past.after, hb]
  | @modify a stamp ltime v hpc hv hmark =>
    apply h.assign (e := .modify a (u64 (stamp + ltime))) hv (fun _ => ⟨rfl, rfl, rfl, rfl⟩) trivial
    · exact ((past l.log).deadline_sets _ _).symm
    · exact fun b hb => (past l.log).deadline_sets_ne hb _
    · exact h.marked _ hv
    · exact fun _ _ => Iff.rfl
  | @scan stamp hpc =>
    have hpast : past (l.log ++ [.scan stamp (l.timers.map Prod.fst)]) =
        { past l.log with reading := stamp, listed := l.timers.map Prod.fst, visited := [], called := [] } :=
      past_concat l.log _
    refine of_past hpast h.nodup h.below h.deadline h.marked h.removed h.nodup ?_ ?_ ?_
    · exact List.Subset.refl []
    · exact ⟨rfl, l.timers, Walks.start, rfl⟩
    · exact placed_concat.mpr ⟨h.placed, trivial⟩
  | @call stamp a v rest hpc hw hdue hmark =>
    obtain ⟨hstamp, hnot, hlisted⟩ := h.passes hpc hw
    have hcall : (past l.log).Due a := (h.due_iff hw.mem).mpr ⟨hstamp ▸ hdue, hmark⟩
    refine h.visit rfl ?_ ⟨⟨_, hlisted.symm⟩, fun hold => hnot (h.called hold), hcall⟩ ?_
    · intro b hb
      exact List.mem_append.mpr (Or.imp_left (fun hold => h.called hold) (List.mem_append.mp hb))
    · exact ⟨hstamp, rest, hw.next, hlisted⟩
  | @skip stamp a v rest hpc hw hdue =>
    obtain ⟨hstamp, hnot, hlisted⟩ := h.passes hpc hw
    have hskip : ¬ (past l.log).Due a := by
      rw [h.due_iff hw.mem, ← hstamp]
      exact fun hboth => Nat.not_lt_of_le hboth.1 (hdue hboth.2)
    refine h.visit rfl ?_ ⟨⟨_, hlisted.symm⟩, hskip⟩ ?_
    · exact fun b hb => List.mem_append_left _ (h.called hb)
    · exact ⟨hstamp, rest, hw.next, hlisted⟩
  | @ret stamp next hpc =>
    have hvisiting : Visiting l (past l.log) (.callback stamp next) := hpc ▸ h.visiting
    exact h.goto hvisiting
  | @charge stamp hpc =>
    obtain ⟨hstamp, rest, hw, hlisted⟩ : Visiting l (past l.log) (.scan stamp none) := hpc ▸ h.visiting
    have hall : (past l.log).visited = (past l.log).listed := by
      rw [hlisted, hw.eq_nil, List.map_nil, List.append_nil]
    exact h.aside (e := .charge) (fun _ => ⟨rfl, rfl, rfl, rfl⟩) hall rfl h.nodup h.below h.deadline h.marked
      h.removed trivial
  | @free stamp a v rest hpc hw hlast =>
    refine h.aside (e := .free a) (fun _ => ⟨rfl, rfl, rfl, rfl⟩) trivial rfl ?_ ?_ ?_ ?_ h.removed trivial
    · exact h.nodup.sublist (List.filter_sublist.map Prod.fst)
    · exact fun n hn => h.below n (List.mem_of_mem_filter hn)
    · exact fun n hn => h.deadline n (List.mem_of_mem_filter hn)
    · exact fun n hn => h.marked n (List.mem_of_mem_filter hn)
  | @rearm stamp a v rest repeats hpc hw hmark hdue hrepeats =>
    have hassign := h.assign (e := .rearm a (u64 (stamp + v.period)))
      (w := { v with repeats := repeats, when := u64 (stamp + v.period) }) hw.mem
      (fun _ => ⟨rfl, rfl, rfl, rfl⟩) trivial ((past l.log).deadline_sets _ _).symm
      (fun b hb => (past l.log).deadline_sets_ne hb _) (h.marked _ hw.mem) (fun _ _ => Iff.rfl)
    have hvisiting : Visiting l (past l.log) (.charge stamp (first rest)) := trivial
    exact hassign.goto hvisiting
  | keep hpc hw hmark hdue => exact h.goto trivial
  | done hpc => exact h.goto trivial

end Sound

/-- A timer stays removed. -/
theorem mem_removed {log : List Entry} {timer : ℕ} (h : .remove timer ∈ log) : timer ∈ (past log).removed := by
  induction log using List.reverseRecOn with
  | nil => exact absurd h List.not_mem_nil
  | append_singleton log e ih =>
    rw [past_concat]
    rcases List.mem_append.mp h with hold | hnew
    · cases e <;> simp [Past.after, Past.sets, ih hold]
    · rw [← List.mem_singleton.mp hnew]
      simp [Past.after]

theorem not_called_again {log : List Entry} (h : Placed Allowed log) {before after : List Entry} {timer : ℕ}
    (hlog : log = before ++ .remove timer :: after) : .call timer ∉ after := by
  intro hcall
  obtain ⟨earlier, later, rfl⟩ := List.append_of_mem hcall
  obtain ⟨-, -, -, hremoved⟩ := h (before ++ .remove timer :: earlier) (.call timer) later (by simp [hlog])
  exact hremoved (mem_removed (by simp))

/-- A timer removes itself and makes another one while its callback runs. -/
def selfRemoval : List Event :=
  [.timerRepeatAfter 2 0 (some 0) 0 5, .timerScan 5, .next, .timerRemove (some 0) 5,
    .timerRepeatAfter 1 9 (some 0) 0 5, .ret, .next, .next, .next, .next, .timerScan 14, .next, .ret, .next, .next]

end Ivy.Timers

import Ivy.Timers.Fair

/-! The timeouts that `IvyMainLoop` gives to `select`, and the timers that it calls after it. -/
namespace Ivy.Timers
open Linked History

/-- What is given to `select`, with the reading of the clock and the timers of the list. -/
structure Timeout where
  stamp : ℕ
  timers : List Timer
  timeval : Option (ℕ × ℕ)

/-- The loop is `selected` from a `select` to the `TimerScan` after it. -/
structure MainLoop where
  timers : State
  selected : Bool
  timeouts : List Timeout

namespace MainLoop

def initial : MainLoop := ⟨Timers.initial, false, []⟩

inductive Event
  /-- a hook, a handler or a callback calls a function of the module -/
  | call (e : Timers.Event)
  | select (stamp : ℕ)
  /-- `select` fails, and `IvyMainLoop` returns -/
  | error
  | timerScan (stamp : ℕ)
  /-- `TimerScan` goes on, or a callback returns -/
  | next
  | ret

def step (s : MainLoop) : Event → Option MainLoop
  | .call e => (Timers.step s.timers e).map fun t => { s with timers := t }
  | .select stamp => (Timers.step s.timers (.timerGetSmallestTimeout stamp)).map fun t =>
    ⟨t, true, s.timeouts ++ [⟨stamp, s.timers.timers.values, t.timeoutptr⟩]⟩
  | .error => some { s with selected := false }
  | .timerScan stamp => (Timers.step s.timers (.timerScan stamp)).map fun t =>
    { s with timers := t, selected := false }
  | .next => (Timers.step s.timers .next).map fun t => { s with timers := t }
  | .ret => (Timers.step s.timers .ret).map fun t => { s with timers := t }

/-- The functions that an application calls. -/
def IsCall : Timers.Event → Prop
  | .timerRepeatAfter _ _ _ _ _ | .timerRemove _ _ | .timerModify _ _ _ => True
  | .timerGetSmallestTimeout _ | .timerScan _ | .next | .ret => False

/-- The order of the statements of the loop. -/
def Possible (s : MainLoop) : Event → Prop
  | .call e => IsCall e ∧ Timers.Possible s.timers e
  | .select _ => s.timers.pc = .idle ∧ s.selected = false
  | .error => s.selected = true
  | .timerScan _ => s.timers.pc = .idle ∧ s.selected = true
  | .next => Timers.Possible s.timers .next
  | .ret => Timers.Possible s.timers .ret

instance : ∀ e, Decidable (IsCall e)
  | .timerRepeatAfter _ _ _ _ _ | .timerRemove _ _ | .timerModify _ _ _ => .isTrue trivial
  | .timerGetSmallestTimeout _ | .timerScan _ | .next | .ret => .isFalse id

instance : ∀ s e, Decidable (Possible s e)
  | s, .call e => inferInstanceAs (Decidable (IsCall e ∧ Timers.Possible s.timers e))
  | s, .select _ => inferInstanceAs (Decidable (s.timers.pc = .idle ∧ s.selected = false))
  | s, .error => inferInstanceAs (Decidable (s.selected = true))
  | s, .timerScan _ => inferInstanceAs (Decidable (s.timers.pc = .idle ∧ s.selected = true))
  | s, .next => inferInstanceAs (Decidable (Timers.Possible s.timers .next))
  | s, .ret => inferInstanceAs (Decidable (Timers.Possible s.timers .ret))

end MainLoop

/-- There is no timer, or the time given is valid and passes the deadline of no timer that is not
marked. -/
def Timeout.Short (o : Timeout) : Prop :=
  match o.timeval with
  | none => o.timers = []
  | some (tv_sec, tv_usec) => tv_usec < 1000000 ∧ ∀ t ∈ o.timers, t.mark2Remove = false →
    tv_sec * 1000000 + tv_usec ≤ (t.when - o.stamp) * 1000

/-- The timer is removed, or gets a deadline after the reading of the scan. -/
def Postpones (stamp timer : ℕ) (e : Entry) : Prop :=
  e = .remove timer ∨ ∃ when, stamp < when ∧ e = .modify timer when

def Inside (e : Entry) : Prop := e ≠ .charge ∧ ∀ stamp timers, e ≠ .scan stamp timers

/-- The first walk of each scan calls the timers that were due when it began, but for those that an
earlier callback of the scan has removed or postponed. -/
def Served (log : List Entry) : Prop :=
  ∀ before stamp timers walk after,
    log = before ++ .scan stamp timers :: (walk ++ .charge :: after) →
    (∀ e ∈ walk, Inside e) →
    ∀ timer ∈ timers, (past (before ++ [.scan stamp timers])).Due timer →
      .call timer ∈ walk ∨ ∃ pre e post, walk = pre ++ e :: post ∧ Postpones stamp timer e ∧
        ∃ earlier, .call earlier ∈ pre

/-! ### The timeout -/

private def least (newTimeout : ℕ) (n : ℕ × Timer) : ℕ :=
  if !n.2.mark2Remove && n.2.when < newTimeout then n.2.when else newTimeout

private theorem foldl_least (ns : List (ℕ × Timer)) (seed : ℕ) : ns.foldl least seed ≤ seed ∧
    ∀ n ∈ ns, n.2.mark2Remove = false → ns.foldl least seed ≤ n.2.when := by
  induction ns generalizing seed with
  | nil => exact ⟨Nat.le_refl _, fun n hn => absurd hn List.not_mem_nil⟩
  | cons n ns ih =>
    obtain ⟨hseed, hns⟩ := ih (least seed n)
    have hle : least seed n ≤ seed := by
      unfold least
      split_ifs with h
      · simp only [Bool.and_eq_true, decide_eq_true_eq] at h
        omega
      · exact Nat.le_refl _
    refine ⟨Nat.le_trans hseed hle, fun m hm hmark => ?_⟩
    rcases List.mem_cons.mp hm with hm | hm
    · subst hm
      have hwhen : least seed m ≤ m.2.when := by
        unfold least
        rw [hmark]
        split_ifs with h
        · exact Nat.le_refl _
        · simpa using h
      exact Nat.le_trans hseed hwhen
    · exact hns m hm hmark

theorem setNewTimeout_short {timers : List Timer} {current when : ℕ} (s : State)
    (h : ∀ t ∈ timers, t.mark2Remove = false → when ≤ t.when) :
    Timeout.Short ⟨current, timers, (setNewTimeout current when s).timeoutptr⟩ := by
  have hltime : (if when ≤ current then 0 else when - current) = when - current := by
    split_ifs <;> omega
  show _ < 1000000 ∧ ∀ t ∈ timers, _ → _ ≤ (t.when - current) * 1000
  rw [hltime]
  refine ⟨by omega, fun t ht hmark => ?_⟩
  have hle := h t ht hmark
  omega

/-- The timeout is the time left until the least deadline, or the first timer's. -/
theorem adjTimeout_short {s t : State} {l : Schedule} (h : Holds s l) {current : ℕ}
    (ht : adjTimeout current s = some t) : Timeout.Short ⟨current, s.timers.values, t.timeoutptr⟩ := by
  have hhead := h.timers.path.first_eq
  have hvalues := h.timers.values_eq
  unfold adjTimeout at ht
  cases htimers : l.timers with
  | nil =>
    rw [htimers, first_nil] at hhead
    rw [hhead] at ht
    obtain rfl := Option.some.inj ht
    rw [hvalues, htimers]
    rfl
  | cons n ns =>
    have hw : Walks l.timers (some n.1) l.timers := ⟨by rw [htimers]; rfl, [], rfl⟩
    obtain ⟨v, rest, hcons, hnode⟩ := h.node_eq hw
    have hfold := each_eq h.timers.path (fun newTimeout _ timer =>
      if !timer.mark2Remove && timer.when < newTimeout then timer.when else newTimeout) v.when
      h.timers.length_le
    have hleast := (foldl_least l.timers v.when).2
    rw [htimers, first_cons] at hhead
    rw [hhead] at ht hfold
    dsimp only at ht
    rw [Store.val, hnode, Option.map_some, Option.bind_some, hfold, Option.map_some] at ht
    obtain rfl := Option.some.inj ht
    apply setNewTimeout_short
    intro t hmem hmark
    rw [hvalues] at hmem
    obtain ⟨m, hm, rfl⟩ := List.mem_map.mp hmem
    exact hleast m hm hmark

/-! ### The walk -/

def walking (log : List Entry) : Bool :=
  log.foldl (fun walking e =>
    match e with
    | .scan _ _ => true
    | .charge => false
    | _ => walking) false

theorem walking_concat (log : List Entry) (e : Entry) : walking (log ++ [e]) =
    match e with
    | .scan _ _ => true
    | .charge => false
    | _ => walking log := by
  simp [walking]

/-- During the first walk only callbacks change timers, after the first call; no listed timer is
made, and none is charged. -/
def Within (before : List Entry) : Entry → Prop
  | .create timer _ _ => timer ∉ (past before).listed
  | .modify _ _ => walking before = true → (past before).called ≠ []
  | .remove _ => walking before = true → (past before).called ≠ []
  | .rearm _ _ => walking before = false
  | _ => True

def Pc.walks : Pc → Bool
  | .scan _ _ | .callback _ _ => true
  | .idle | .charge _ _ => false

/-- The place of the walk agrees with what happened. -/
structure Walked (l : Schedule) : Prop where
  listed : ∀ a ∈ (past l.log).listed, a < l.brk
  walking : walking l.log = l.pc.walks
  called : l.pc.walks = true → l.pc.outside = true → (past l.log).called ≠ []
  placed : Placed Within l.log

namespace Walked
variable {l m : Schedule}

theorem initial : Walked ⟨[], 0, .idle, []⟩ where
  listed _ ha := absurd ha List.not_mem_nil
  walking := rfl
  called h := absurd h Bool.false_ne_true
  placed := placed_nil

theorem goto (h : Walked l) {pc : Pc} (hwalks : pc.walks = l.pc.walks)
    (hcalled : pc.walks = true → pc.outside = true → (past l.log).called ≠ []) :
    Walked { l with pc := pc } where
  listed := h.listed
  walking := h.walking.trans hwalks.symm
  called := hcalled
  placed := h.placed

theorem aside (h : Walked l) {e : Entry} (he : Aside e) (hwithin : Within l.log e)
    (hlog : m.log = l.log ++ [e]) (hbrk : l.brk ≤ m.brk)
    (hwalking : Timers.walking (l.log ++ [e]) = Timers.walking l.log)
    (hwalks : m.pc.walks = l.pc.walks) (hpc : m.pc.outside = true → l.pc.outside = true) : Walked m := by
  obtain ⟨-, hlisted, -, hcalled⟩ := he (past l.log)
  constructor
  · intro a ha
    rw [hlog, past_concat, hlisted] at ha
    exact Nat.lt_of_lt_of_le (h.listed a ha) hbrk
  · rw [hlog, hwalking, h.walking, hwalks]
  · intro hm houtside
    rw [hlog, past_concat, hcalled]
    exact h.called (hwalks ▸ hm) (hpc houtside)
  · rw [hlog]
    exact placed_concat.mpr ⟨h.placed, hwithin⟩

theorem outside (h : Walked l) (hpc : l.pc.outside = true) :
    Timers.walking l.log = true → (past l.log).called ≠ [] :=
  fun hwalking => h.called (h.walking ▸ hwalking) hpc

theorem visit (h : Walked l) (hwalks : l.pc.walks = true) {e : Entry} {pc : Pc}
    (hlisted : ((past l.log).after e).listed = (past l.log).listed) (hwithin : Within l.log e)
    (hwalking : Timers.walking (l.log ++ [e]) = Timers.walking l.log) (hpc : pc.walks = true)
    (hcalled : pc.outside = true → ((past l.log).after e).called ≠ []) :
    Walked { l with pc := pc, log := l.log ++ [e] } where
  listed a ha := by
    rw [past_concat, hlisted] at ha
    exact h.listed a ha
  walking := by
    rw [hwalking, h.walking, hwalks]
    exact hpc.symm
  called _ houtside := by
    rw [past_concat]
    exact hcalled houtside
  placed := placed_concat.mpr ⟨h.placed, hwithin⟩

theorem change (h : Walked l) (hl : Sound l) {e : Event} (hchange : Change l e m) : Walked m := by
  cases hchange with
  | same => exact h
  | @create count ltime cb user_data stamp hpc =>
    have hnew : l.brk ∉ (past l.log).listed := fun hmem => Nat.lt_irrefl _ (h.listed _ hmem)
    exact h.aside (e := .create l.brk count _) (fun _ => ⟨rfl, rfl, rfl, rfl⟩) hnew rfl
      (Nat.le_succ _) (walking_concat _ _) rfl id
  | @remove a stamp v hpc hv hmark =>
    exact h.aside (e := .remove a) (fun _ => ⟨rfl, rfl, rfl, rfl⟩) (h.outside hpc) rfl (Nat.le_refl _)
      (walking_concat _ _) rfl id
  | @modify a stamp ltime v hpc hv hmark =>
    exact h.aside (e := .modify a _) (fun _ => ⟨rfl, rfl, rfl, rfl⟩) (h.outside hpc) rfl (Nat.le_refl _)
      (walking_concat _ _) rfl id
  | @scan stamp hpc =>
    constructor
    · intro a ha
      rw [past_concat] at ha
      obtain ⟨n, hn, rfl⟩ := List.mem_map.mp (show a ∈ l.timers.map Prod.fst from ha)
      exact hl.below n hn
    · exact walking_concat _ _
    · exact fun _ houtside => absurd houtside Bool.false_ne_true
    · exact placed_concat.mpr ⟨h.placed, trivial⟩
  | @call stamp a v rest hpc hw hdue hmark =>
    have hwalks : l.pc.walks = true := by rw [hpc]; rfl
    refine h.visit (e := .call a) hwalks rfl trivial (walking_concat _ _) rfl fun _ => ?_
    show (past l.log).called ++ [a] ≠ []
    simp
  | @skip stamp a v rest hpc hw hdue =>
    have hwalks : l.pc.walks = true := by rw [hpc]; rfl
    exact h.visit (e := .skip a) hwalks rfl trivial (walking_concat _ _) rfl
      fun houtside => absurd houtside Bool.false_ne_true
  | ret hpc =>
    exact h.goto (by rw [hpc]; rfl) fun _ houtside => absurd houtside Bool.false_ne_true
  | @charge stamp hpc =>
    constructor
    · intro a ha
      rw [past_concat] at ha
      exact h.listed a ha
    · exact walking_concat _ _
    · exact fun hwalks => absurd hwalks Bool.false_ne_true
    · exact placed_concat.mpr ⟨h.placed, trivial⟩
  | @free stamp a v rest hpc hw hlast =>
    exact h.aside (e := .free a) (fun _ => ⟨rfl, rfl, rfl, rfl⟩) trivial rfl (Nat.le_refl _)
      (walking_concat _ _) (by rw [hpc]; rfl) fun houtside => absurd houtside Bool.false_ne_true
  | @rearm stamp a v rest repeats hpc hw hmark hdue hrepeats =>
    have hstill : Timers.walking l.log = false := by rw [h.walking, hpc]; rfl
    exact h.aside (e := .rearm a _) (fun _ => ⟨rfl, rfl, rfl, rfl⟩) hstill rfl (Nat.le_refl _)
      (walking_concat _ _) (by rw [hpc]; rfl) fun houtside => absurd houtside Bool.false_ne_true
  | keep hpc hw hmark hdue =>
    exact h.goto (by rw [hpc]; rfl) fun hwalks => absurd hwalks Bool.false_ne_true
  | done hpc => exact h.goto (by rw [hpc]; rfl) fun hwalks => absurd hwalks Bool.false_ne_true

end Walked

section Log
variable {before walk : List Entry} {stamp timer : ℕ} {timers : List ℕ}

structure During (stamp : ℕ) (timers : List ℕ) (walk log : List Entry) : Prop where
  reading : (past log).reading = stamp
  listed : (past log).listed = timers
  walking : walking log = true
  visited : ∀ a ∈ (past log).visited, .call a ∈ walk ∨ .skip a ∈ walk
  called : ∀ a ∈ (past log).called, .call a ∈ walk

/-- An entry inside of the walk adds what it says of it. -/
theorem During.concat {log : List Entry} (h : During stamp timers walk log) {e : Entry}
    (hreading : ((past log).after e).reading = (past log).reading)
    (hlisted : ((past log).after e).listed = (past log).listed)
    (hwalking : Timers.walking (log ++ [e]) = Timers.walking log)
    (hvisited : ∀ a ∈ ((past log).after e).visited,
      a ∈ (past log).visited ∨ e = .call a ∨ e = .skip a)
    (hcalled : ∀ a ∈ ((past log).after e).called, a ∈ (past log).called ∨ e = .call a) :
    During stamp timers (walk ++ [e]) (log ++ [e]) where
  reading := by rw [past_concat, hreading, h.reading]
  listed := by rw [past_concat, hlisted, h.listed]
  walking := hwalking.trans h.walking
  visited a ha := by
    rw [past_concat] at ha
    rcases hvisited a ha with ha | rfl | rfl
    · exact (h.visited a ha).imp (List.mem_append_left _) (List.mem_append_left _)
    · exact .inl (List.mem_append_right _ List.mem_cons_self)
    · exact .inr (List.mem_append_right _ List.mem_cons_self)
  called a ha := by
    rw [past_concat] at ha
    rcases hcalled a ha with ha | rfl
    · exact List.mem_append_left _ (h.called a ha)
    · exact List.mem_append_right _ List.mem_cons_self

theorem during (before : List Entry) (stamp : ℕ) (timers : List ℕ) (hwalk : ∀ e ∈ walk, Inside e) :
    During stamp timers walk (before ++ [.scan stamp timers] ++ walk) := by
  induction walk using List.reverseRecOn with
  | nil =>
    rw [List.append_nil]
    constructor
    · rw [past_concat]
      rfl
    · rw [past_concat]
      rfl
    · rw [walking_concat]
    · rw [past_concat]
      exact fun a ha => absurd ha List.not_mem_nil
    · rw [past_concat]
      exact fun a ha => absurd ha List.not_mem_nil
  | append_singleton walk e ih =>
    have h := ih fun x hx => hwalk x (List.mem_append_left _ hx)
    obtain ⟨hcharge, hscan⟩ := hwalk e (by simp)
    rw [← List.append_assoc]
    cases e with
    | scan stamp timers => exact absurd rfl (hscan stamp timers)
    | charge => exact absurd rfl hcharge
    | call b =>
      have hnew (l : List ℕ) (a : ℕ) (ha : a ∈ l ++ [b]) : a ∈ l ∨ Entry.call b = .call a :=
        (List.mem_append.mp ha).imp_right fun ha => by rw [List.mem_singleton.mp ha]
      exact h.concat rfl rfl (walking_concat _ _)
        (fun a ha => (hnew _ a ha).imp_right Or.inl) (hnew _)
    | skip b =>
      have hnew (l : List ℕ) (a : ℕ) (ha : a ∈ l ++ [b]) : a ∈ l ∨ Entry.skip b = .skip a :=
        (List.mem_append.mp ha).imp_right fun ha => by rw [List.mem_singleton.mp ha]
      exact h.concat rfl rfl (walking_concat _ _)
        (fun a ha => (hnew _ a ha).imp_right Or.inr) fun _ => Or.inl
    | _ => exact h.concat rfl rfl (walking_concat _ _) (fun _ => Or.inl) fun _ => Or.inl

/-- Only an entry that removes or postpones a due timer changes that it is due. -/
theorem postpones_of_lost {log : List Entry} {e : Entry} (h : During stamp timers walk log)
    (htimer : timer ∈ timers) (hinside : Inside e) (hwithin : Within log e)
    (hdue : (past log).Due timer) (hlost : ¬ (past (log ++ [e])).Due timer) :
    Postpones stamp timer e := by
  rw [past_concat] at hlost
  obtain ⟨hdeadline, hremoved⟩ := hdue
  cases e with
  | scan stamp timers => exact absurd rfl (hinside.2 stamp timers)
  | charge => exact absurd rfl hinside.1
  | create a count when =>
    have hne : timer ≠ a := by
      intro ha
      have hnot : a ∉ (past log).listed := hwithin
      rw [h.listed] at hnot
      exact hnot (ha ▸ htimer)
    have hsame : ((past log).sets a when).deadline timer = (past log).deadline timer :=
      (past log).deadline_sets_ne hne when
    exact absurd ⟨hsame.symm ▸ hdeadline, hremoved⟩ hlost
  | modify a when =>
    by_cases ha : timer = a
    · subst ha
      refine .inr ⟨when, Nat.lt_of_not_le fun hle => hlost ⟨?_, hremoved⟩, rfl⟩
      show ((past log).sets timer when).deadline timer ≤ (past log).reading
      rw [Past.deadline_sets, h.reading]
      exact hle
    · have hsame : ((past log).sets a when).deadline timer = (past log).deadline timer :=
        (past log).deadline_sets_ne ha when
      exact absurd ⟨hsame.symm ▸ hdeadline, hremoved⟩ hlost
  | rearm a when => exact absurd (h.walking.symm.trans hwithin) (by simp)
  | remove a =>
    by_cases ha : timer = a
    · exact .inl (by rw [ha])
    · have hnot : timer ∉ (past log).removed ++ [a] := by simp [hremoved, ha]
      exact absurd ⟨hdeadline, hnot⟩ hlost
  | call a => exact absurd ⟨hdeadline, hremoved⟩ hlost
  | skip a => exact absurd ⟨hdeadline, hremoved⟩ hlost
  | free a => exact absurd ⟨hdeadline, hremoved⟩ hlost

/-- An entry that changes a timer during the walk stands behind a call. -/
theorem exists_call_of_postpones {log : List Entry} {e : Entry} (h : During stamp timers walk log)
    (hwithin : Within log e) (he : Postpones stamp timer e) : ∃ earlier, .call earlier ∈ walk := by
  have hcalled : (past log).called ≠ [] := by
    rcases he with rfl | ⟨when, -, rfl⟩
    · exact hwithin h.walking
    · exact hwithin h.walking
  obtain ⟨a, ha⟩ := List.exists_mem_of_ne_nil _ hcalled
  exact ⟨a, h.called a ha⟩

theorem served_of_placed {log : List Entry} (hallowed : Placed Allowed log) (hwithin : Placed Within log) :
    Served log := by
  intro before stamp timers walk after hlog hinside timer htimer hdue
  let base := before ++ [.scan stamp timers]
  have hbase (pre : List Entry) (x : Entry) (post : List Entry) (hwalk : walk = pre ++ x :: post) :
      log = (base ++ pre) ++ x :: (post ++ .charge :: after) := by
    rw [hlog, hwalk]
    simp [base]
  have hwhole := during before stamp timers hinside
  have hvisited : timer ∈ (past (base ++ walk)).visited := by
    have hall : (past (base ++ walk)).visited = (past (base ++ walk)).listed :=
      hallowed (base ++ walk) .charge after (by rw [hlog]; simp [base])
    rw [hall, hwhole.listed]
    exact htimer
  rcases hwhole.visited timer hvisited with hcall | hskip
  · exact .inl hcall
  · obtain ⟨walk', rest, hwalk⟩ := List.append_of_mem hskip
    obtain ⟨-, hnot⟩ := hallowed _ _ _ (hbase _ _ _ hwalk)
    obtain ⟨pre, x, post, rfl, hpre, hx⟩ := exists_lost (P := fun log => (past log).Due timer) hdue hnot
    have hsplit : walk = pre ++ x :: (post ++ .skip timer :: rest) := by rw [hwalk]; simp
    have hpieces (y : Entry) (hy : y ∈ pre) : Inside y :=
      hinside y (by rw [hsplit]; exact List.mem_append_left _ hy)
    have hduring := during before stamp timers hpieces
    have hplaced := hwithin _ _ _ (hbase _ _ _ hsplit)
    have hpostpones := postpones_of_lost hduring htimer (hinside x (by simp [hsplit])) hplaced hpre hx
    exact .inr ⟨pre, x, _, hsplit, hpostpones, exists_call_of_postpones hduring hplaced hpostpones⟩

end Log

/-! ### The main loop -/

namespace MainLoop

/-- The timers are a list whose log is in order, and no timeout given was too long. -/
def Keeps (s : MainLoop) : Prop :=
  (∃ l, Holds s.timers l ∧ Sound l ∧ Walked l) ∧ ∀ o ∈ s.timeouts, o.Short

theorem keeps_initial : Keeps initial :=
  ⟨⟨_, Holds.initial, Sound.initial, Walked.initial⟩, fun _ ho => absurd ho List.not_mem_nil⟩

theorem Keeps.timers {s : MainLoop} (h : Keeps s) {e : Timers.Event} (he : Timers.Possible s.timers e) :
    ∃ t, Timers.step s.timers e = some t ∧ ∀ selected, Keeps ⟨t, selected, s.timeouts⟩ := by
  obtain ⟨⟨l, hl, hsound, hwalked⟩, hshort⟩ := h
  obtain ⟨t, m, ht, hm, hchange⟩ := hl.step he
  exact ⟨t, ht, fun _ => ⟨⟨m, hm, hsound.change hchange, hwalked.change hsound hchange⟩, hshort⟩⟩

theorem Keeps.select {s : MainLoop} (h : Keeps s) {stamp : ℕ} (hpc : s.timers.pc = .idle) :
    ∃ t, step s (.select stamp) = some t ∧ Keeps t := by
  have houtside : s.timers.pc.outside = true := by rw [hpc]; rfl
  obtain ⟨t, ht, hkeeps⟩ := h.timers (e := .timerGetSmallestTimeout stamp) houtside
  have hadj : adjTimeout stamp s.timers = some t := (if_pos houtside).symm.trans ht
  obtain ⟨⟨l, hl, -⟩, hshort⟩ := h
  refine ⟨_, congrArg (Option.map _) ht, (hkeeps true).1, fun o ho => ?_⟩
  rcases List.mem_append.mp ho with hold | hnew
  · exact hshort o hold
  · rw [List.mem_singleton.mp hnew]
    exact adjTimeout_short hl hadj

theorem Keeps.step {s : MainLoop} (h : Keeps s) {e : Event} (he : Possible s e) :
    ∃ t, step s e = some t ∧ Keeps t := by
  cases e with
  | select stamp => exact h.select he.1
  | error => exact ⟨_, rfl, h⟩
  | call e =>
    obtain ⟨t, ht, hkeeps⟩ := h.timers he.2
    exact ⟨_, congrArg (Option.map _) ht, hkeeps _⟩
  | timerScan stamp =>
    obtain ⟨t, ht, hkeeps⟩ := h.timers (e := .timerScan stamp) he.1
    exact ⟨_, congrArg (Option.map _) ht, hkeeps _⟩
  | next =>
    obtain ⟨t, ht, hkeeps⟩ := h.timers (e := .next) he
    exact ⟨_, congrArg (Option.map _) ht, hkeeps _⟩
  | ret =>
    obtain ⟨t, ht, hkeeps⟩ := h.timers (e := .ret) he
    exact ⟨_, congrArg (Option.map _) ht, hkeeps _⟩

end MainLoop

/-- The head of the list is removed before the first `select`. -/
def markedHead : List MainLoop.Event :=
  [.call (.timerRepeatAfter 1 9 (some 0) 0 5), .call (.timerRepeatAfter 1 2 (some 0) 0 5),
    .call (.timerRemove (some 1) 5), .select 5, .timerScan 14, .next, .next, .ret, .next, .next, .next, .next,
    .select 15]

end Ivy.Timers

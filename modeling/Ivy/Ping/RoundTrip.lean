import Ivy.Lib.Machine
import Mathlib.Algebra.Group.Int.Defs
import Mathlib.Data.Int.Notation
import Mathlib.Data.Nat.Notation
import Mathlib.Tactic.SplitIfs

/-! `IvySendPing` and the pongs of one client. -/
namespace Ivy.Ping

/-- `struct timeval` -/
structure Timeval where
  tv_sec : ℤ
  tv_usec : ℤ
  deriving DecidableEq

namespace Timeval

/-- `timerclear` -/
def clear : Timeval := ⟨0, 0⟩

/-- `timerisset` -/
def IsSet (t : Timeval) : Prop := t.tv_sec ≠ 0 ∨ t.tv_usec ≠ 0

instance (t : Timeval) : Decidable t.IsSet := inferInstanceAs (Decidable (_ ∨ _))

/-- `timersub` -/
def sub (a b : Timeval) : Timeval :=
  let tv_sec := a.tv_sec - b.tv_sec
  let tv_usec := a.tv_usec - b.tv_usec
  if tv_usec < 0 then ⟨tv_sec - 1, tv_usec + 1000000⟩ else ⟨tv_sec, tv_usec⟩

/-- What `gettimeofday` gives. -/
def Valid (t : Timeval) : Prop := 0 ≤ t.tv_sec ∧ 0 ≤ t.tv_usec ∧ t.tv_usec < 1000000

instance (t : Timeval) : Decidable t.Valid := inferInstanceAs (Decidable (_ ∧ _))

def micros (t : Timeval) : ℤ := t.tv_sec * 1000000 + t.tv_usec

end Timeval

/-- `roundTripOrTimout` before its sign is set. -/
def roundTrip (now ts : Timeval) : ℤ :=
  let diff := now.sub ts
  min diff.tv_sec 2000 * 1000000 + diff.tv_usec

/-- The time between the two in microseconds, with at most 2000 seconds. -/
def elapsed (ts now : Timeval) : ℤ :=
  let time := now.micros - ts.micros
  min (time / 1000000) 2000 * 1000000 + time % 1000000

structure Sent where
  id : ℤ
  sentAt : Timeval
  waiting : ℕ
  deriving DecidableEq

/-- A Pong line, whether it answers the ping sent last, and the values that the callback gets. -/
structure Receipt where
  ping : Sent
  latest : Bool
  now : Timeval
  calls : List ℤ

/-- The fields of the client, the link to it and back, the clock, and the pongs received. -/
structure Link where
  ts : Timeval
  id : ℤ
  pings : List Sent
  pongs : List Sent
  clock : Timeval
  receipts : List Receipt

def Link.initial : Link := ⟨.clear, 0, [], [], .clear, []⟩

def Link.outstanding (s : Link) : List Sent := s.pongs ++ s.pings

/-- The peer answers in order. -/
inductive Event
  | ivySendPing (now : Timeval)
  | answer
  | pong (now : Timeval)
  deriving DecidableEq

/-- `case Pong` of `Receive`: the timestamp after it, and the calls of the callback. -/
def receivePong (ts : Timeval) (lastId id : ℤ) (now : Timeval) : Timeval × List ℤ :=
  if ts.IsSet then (.clear, [if id ≠ lastId then roundTrip now ts * -1 else roundTrip now ts])
  else (ts, [])

/-- The id is an `int`: the increment of the greatest one is undefined. -/
def step (s : Link) : Event → Option Link
  | .ivySendPing now =>
    if s.id = 2 ^ 31 - 1 then none
    else some { s with
      ts := now
      id := s.id + 1
      pings := s.pings ++ [⟨s.id + 1, now, s.outstanding.length⟩]
      clock := now }
  | .answer =>
    match s.pings with
    | [] => none
    | p :: pings => some { s with pings := pings, pongs := s.pongs ++ [p] }
  | .pong now =>
    match s.pongs with
    | [] => none
    | p :: pongs =>
      let r := receivePong s.ts s.id p.id now
      some { s with
        ts := r.1
        pongs := pongs
        clock := now
        receipts := s.receipts ++ [⟨p, pongs = [] ∧ s.pings = [], now, r.2⟩] }

/-- What the clock and the link allow. -/
def Possible (s : Link) : Event → Prop
  | .ivySendPing now => now.Valid ∧ s.clock.micros ≤ now.micros
  | .answer => s.pings ≠ []
  | .pong now => s.pongs ≠ [] ∧ now.Valid ∧ s.clock.micros ≤ now.micros

/-- The pong of the ping sent last has its time reported, once, and no negative value. -/
def Accounted (s : Link) : Prop :=
  ∀ r ∈ s.receipts, (r.latest = true → 0 ≤ elapsed r.ping.sentAt r.now ∧
    r.calls = [elapsed r.ping.sentAt r.now]) ∧ ∀ value ∈ r.calls, value < 0 → r.latest = false

/-- The pong of the ping sent last comes when that was sent with no ping waiting, at a time that
counts as set. -/
def Alone (s : Link) : Event → Prop
  | .ivySendPing _ => s.id < 2 ^ 31 - 1
  | .answer => True
  | .pong _ => ∀ p ∈ s.outstanding, s.outstanding = [p] → p.waiting = 0 ∧ p.sentAt.IsSet

instance (s : Link) : ∀ e, Decidable (Possible s e)
  | .ivySendPing now => inferInstanceAs (Decidable (now.Valid ∧ s.clock.micros ≤ now.micros))
  | .answer => inferInstanceAs (Decidable (s.pings ≠ []))
  | .pong now =>
    inferInstanceAs (Decidable (s.pongs ≠ [] ∧ now.Valid ∧ s.clock.micros ≤ now.micros))

instance (s : Link) : ∀ e, Decidable (Alone s e)
  | .ivySendPing _ => inferInstanceAs (Decidable (s.id < 2 ^ 31 - 1))
  | .answer => inferInstanceAs (Decidable True)
  | .pong _ => inferInstanceAs (Decidable
      (∀ p ∈ s.outstanding, s.outstanding = [p] → p.waiting = 0 ∧ p.sentAt.IsSet))

instance (s : Link) : Decidable (Accounted s) := inferInstanceAs (Decidable (∀ r ∈ s.receipts, _))

/-- What holds of the client's fields in every run. -/
structure Sound (s : Link) : Prop where
  clock : s.clock.Valid
  id : s.id ≤ 2 ^ 31 - 1
  last : ∀ p, s.outstanding.getLast? = some p → p.id = s.id ∧ p.sentAt.Valid ∧
    p.sentAt.micros ≤ s.clock.micros ∧ s.outstanding.length ≤ p.waiting + 1 ∧
    s.ts = if s.outstanding.length = p.waiting + 1 then p.sentAt else .clear

theorem sound_initial : Sound .initial where
  clock := by decide
  id := by decide
  last p hp := by simp [Link.outstanding, Link.initial] at hp

theorem roundTrip_eq_elapsed {ts now : Timeval} (hts : ts.Valid) (hnow : now.Valid) :
    roundTrip now ts = elapsed ts now := by
  obtain ⟨-, hlo, hhi⟩ := hts
  obtain ⟨-, hlo', hhi'⟩ := hnow
  unfold roundTrip elapsed Timeval.sub Timeval.micros
  dsimp only
  split_ifs with hborrow <;> dsimp only <;> omega

theorem Timeval.eq_clear {t : Timeval} (h : ¬ t.IsSet) : t = .clear := by
  obtain ⟨hsec, husec⟩ := not_or.mp (show ¬ (_ ∨ _) from h)
  calc t = ⟨t.tv_sec, t.tv_usec⟩ := rfl
    _ = .clear := by rw [not_not.mp hsec, not_not.mp husec]; rfl

theorem elapsed_nonneg {ts now : Timeval} (h : ts.micros ≤ now.micros) : 0 ≤ elapsed ts now := by
  unfold elapsed
  dsimp only
  omega

theorem sound_step {s t : Link} {e : Event} (h : Sound s) (he : Possible s e) (ht : step s e = some t) :
    Sound t := by
  cases e with
  | ivySendPing now =>
    obtain ⟨hnow, hclock⟩ := he
    simp only [step] at ht
    split_ifs at ht with hid
    obtain rfl := Option.some.inj ht
    have hid' := h.id
    refine ⟨hnow, by dsimp only; omega, fun p hp => ?_⟩
    have hlast : p = ⟨s.id + 1, now, s.outstanding.length⟩ := by
      simpa [Link.outstanding, ← List.append_assoc, eq_comm] using hp
    have hlength : (s.pongs ++ (s.pings ++ [(⟨s.id + 1, now, s.outstanding.length⟩ : Sent)])).length =
        s.outstanding.length + 1 := by simp [Link.outstanding, Nat.add_assoc]
    subst hlast
    refine ⟨rfl, hnow, Int.le_refl _, Nat.le_of_eq hlength, ?_⟩
    show now = if (s.pongs ++ (s.pings ++ [_])).length = _ then _ else _
    rw [if_pos hlength]
  | answer =>
    obtain ⟨p, pings, hpings⟩ := List.exists_cons_of_ne_nil he
    simp only [step, hpings] at ht
    obtain rfl := Option.some.inj ht
    have hsame : (s.pongs ++ [p]) ++ pings = s.outstanding := by
      rw [Link.outstanding, hpings, List.append_assoc]
      rfl
    refine ⟨h.clock, h.id, fun q hq => ?_⟩
    have hlast := h.last q
    rw [← hsame] at hlast
    exact hlast hq
  | pong now =>
    obtain ⟨hne, hnow, hclock⟩ := he
    obtain ⟨p, pongs, hpongs⟩ := List.exists_cons_of_ne_nil hne
    simp only [step, hpongs] at ht
    obtain rfl := Option.some.inj ht
    refine ⟨hnow, h.id, fun q hq => ?_⟩
    have hcons : s.outstanding = p :: (pongs ++ s.pings) := by rw [Link.outstanding, hpongs]; rfl
    have hq : (pongs ++ s.pings).getLast? = some q := hq
    have hlast : s.outstanding.getLast? = some q := by
      rw [hcons, List.getLast?_cons, hq]
      rfl
    obtain ⟨hid, hvalid, hsent, hlength, hts⟩ := h.last q hlast
    have hless : (pongs ++ s.pings).length < q.waiting + 1 := by
      rw [hcons, List.length_cons] at hlength
      omega
    refine ⟨hid, hvalid, Int.le_trans hsent hclock, Nat.le_of_lt hless, ?_⟩
    show (receivePong s.ts s.id p.id now).1 = if (pongs ++ s.pings).length = _ then _ else _
    rw [if_neg (Nat.ne_of_lt hless), receivePong]
    by_cases hset : s.ts.IsSet
    · rw [if_pos hset]
    · rw [if_neg hset]
      exact Timeval.eq_clear hset

/-- The pong of the only ping that waits is accounted exactly if that was sent alone. -/
theorem receivePong_accounted_iff {s : Link} {now : Timeval} {p : Sent} (h : Sound s)
    (hnow : now.Valid) (hp : s.outstanding = [p]) :
    (receivePong s.ts s.id p.id now).2 = [elapsed p.sentAt now] ↔
      p.waiting = 0 ∧ p.sentAt.IsSet := by
  obtain ⟨hid, hvalid, hsent, hlength, hts⟩ := h.last p (by rw [hp]; rfl)
  rw [hp, List.length_singleton] at hts
  by_cases halone : p.waiting = 0
  · rw [if_pos (by omega)] at hts
    rw [receivePong, hts, hid]
    by_cases hset : p.sentAt.IsSet
    · rw [if_pos hset, if_neg (fun h => h rfl), roundTrip_eq_elapsed hvalid hnow]
      exact iff_of_true rfl ⟨halone, hset⟩
    · rw [if_neg hset]
      exact iff_of_false (by simp) fun h => hset h.2
  · rw [if_neg (by omega)] at hts
    have hclear : ¬ Timeval.clear.IsSet := by decide
    rw [receivePong, hts, if_neg hclear]
    exact iff_of_false (by simp) fun h => halone h.1

theorem accounted_append_iff {s t : Link} {r : Receipt} (hacc : Accounted s)
    (ht : t.receipts = s.receipts ++ [r]) : Accounted t ↔
      (r.latest = true → 0 ≤ elapsed r.ping.sentAt r.now ∧ r.calls = [elapsed r.ping.sentAt r.now]) ∧
        ∀ value ∈ r.calls, value < 0 → r.latest = false := by
  rw [Accounted, ht]
  constructor
  · exact fun h => h r (by simp)
  · intro h r' hr'
    rcases List.mem_append.mp hr' with hr' | hr'
    · exact hacc r' hr'
    · rw [List.mem_singleton.mp hr']
      exact h

theorem accounted_step_iff {s : Link} {e : Event} (h : Sound s) (hacc : Accounted s)
    (he : Possible s e) : (∃ t, step s e = some t ∧ Accounted t) ↔ Alone s e := by
  cases e with
  | ivySendPing now =>
    have hid := h.id
    simp only [step, Alone]
    split_ifs with hmax
    · exact iff_of_false (by simp) (by omega)
    · exact iff_of_true ⟨_, rfl, hacc⟩ (by omega)
  | answer =>
    obtain ⟨p, pings, hpings⟩ := List.exists_cons_of_ne_nil he
    have hstep : step s .answer = some { s with pings := pings, pongs := s.pongs ++ [p] } := by
      simp only [step, hpings]
    exact iff_of_true ⟨_, hstep, hacc⟩ trivial
  | pong now =>
    obtain ⟨hne, hnow, hclock⟩ := he
    obtain ⟨p, pongs, hpongs⟩ := List.exists_cons_of_ne_nil hne
    have hcons : s.outstanding = p :: (pongs ++ s.pings) := by rw [Link.outstanding, hpongs]; rfl
    simp only [step, hpongs, Option.some.injEq, exists_eq_left']
    rw [accounted_append_iff hacc rfl]
    by_cases hlatest : pongs = [] ∧ s.pings = []
    · have hp : s.outstanding = [p] := by rw [hcons, hlatest.1, hlatest.2]; rfl
      have hreceive := receivePong_accounted_iff h hnow hp
      obtain ⟨-, -, hsent, -⟩ := h.last p (by rw [hp]; rfl)
      have hnonneg := elapsed_nonneg (Int.le_trans hsent hclock)
      have halone : Alone s (.pong now) ↔ p.waiting = 0 ∧ p.sentAt.IsSet := by
        simp [Alone, hp]
      rw [halone, ← hreceive]
      constructor
      · exact fun hr => (hr.1 (decide_eq_true hlatest)).2
      · intro hcalls
        refine ⟨fun _ => ⟨hnonneg, hcalls⟩, fun value hvalue hneg => ?_⟩
        rw [hcalls, List.mem_singleton] at hvalue
        omega
    · have hfalse : decide (pongs = [] ∧ s.pings = []) = false := decide_eq_false hlatest
      refine iff_of_true ⟨fun htrue => ?_, fun _ _ _ => hfalse⟩ fun q hq => ?_
      · exact absurd (hfalse.symm.trans htrue) Bool.false_ne_true
      · intro halone
        rw [hcons, List.cons.injEq, List.append_eq_nil_iff] at halone
        exact absurd halone.2 hlatest

/-- The pongs are accounted along a run exactly if each pong of the ping sent last comes for one that
was sent alone. -/
theorem pings_accounted (events : List Event)
    (hpossible : Machine.Guarded step Possible .initial events) :
    Machine.Along step (fun _ => Accounted) [] .initial events ↔
      Machine.Guarded step Alone .initial events :=
  Machine.along_iff_guarded_of (J := fun _ => Sound) (fun _ _ _ _ => sound_step)
    (fun _ _ _ => accounted_step_iff) sound_initial (by simp [Accounted, Link.initial]) hpossible

/-- One ping at 5.9 s, whose pong comes at 7.1 s. -/
theorem pings_accounted_example :
    Machine.Along step (fun _ => Accounted) [] .initial
      [.ivySendPing ⟨5, 900000⟩, .answer, .pong ⟨7, 100000⟩] :=
  (pings_accounted _ (by decide)).mpr (by decide)

/-- Two pings before the first answer: the first pong gives a negative value and clears the
timestamp, and the pong of the second ping gives none. -/
theorem second_pong_not_reported :
    let events : List Event := [.ivySendPing ⟨1, 0⟩, .ivySendPing ⟨2, 0⟩, .answer, .answer,
      .pong ⟨3, 0⟩, .pong ⟨4, 0⟩]
    Machine.Guarded step Possible .initial events ∧
      ∃ t, Machine.run step .initial events = some t ∧ ¬ Accounted t ∧
        t.receipts.map (fun r => (r.latest, r.calls)) = [(false, [-1000000]), (true, [])] :=
  ⟨by decide, _, rfl, by decide, by decide⟩

end Ivy.Ping

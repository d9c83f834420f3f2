import Ivy.Lib.Linked
import Ivy.Lib.Machine
import Mathlib.Algebra.Group.Int.Defs
import Mathlib.Algebra.Group.Nat.Defs

/-! The timers of the main loop, `timer.c`, one visit of a timer at a time. -/
namespace Ivy.Timers
open Linked

def timerLoop : ℤ := -1

def u64 (z : ℤ) : ℕ := (z % 2 ^ 64).toNat

/-- `struct _timer`; `repeats` is its `repeat`. -/
structure Timer where
  repeats : ℤ
  period : ℕ
  when : ℕ
  callback : ℕ
  user_data : ℕ
  mark2Remove : Bool

/-- Where `TimerScan` stands: `timer` is the node that the walk visits next, `next` the one that
was saved before the callback was called. -/
inductive Pc
  | idle
  | scan (stamp : ℕ) (timer : Option ℕ)
  | callback (stamp : ℕ) (next : Option ℕ)
  | charge (stamp : ℕ) (timer : Option ℕ)
  deriving DecidableEq

def Pc.outside : Pc → Bool
  | .idle => true
  | .callback _ _ => true
  | _ => false

/-- What happens to the timers. A visit of the first walk is a `call` or a `skip`. -/
inductive Entry
  | create (timer : ℕ) (count : ℤ) (when : ℕ)
  | modify (timer : ℕ) (when : ℕ)
  | remove (timer : ℕ)
  | scan (stamp : ℕ) (timers : List ℕ)
  | call (timer : ℕ)
  | skip (timer : ℕ)
  | charge
  | rearm (timer : ℕ) (when : ℕ)
  | free (timer : ℕ)
  deriving DecidableEq

/-- `timeoutptr` points to the seconds and microseconds of `selectTimeout`. -/
structure State where
  timers : Store Timer
  nextTimeout : ℕ
  timeoutptr : Option (ℕ × ℕ)
  pc : Pc
  log : List Entry

def initial : State := ⟨.empty, 2147483647, none, .idle, []⟩

namespace State
variable (s : State)

def goto (pc : Pc) : State := { s with pc := pc }

def write (e : Entry) : State := { s with log := s.log ++ [e] }

end State

def setNewTimeout (current : ℕ) (when : ℕ) (s : State) : State :=
  let ltime := if when ≤ current then 0 else when - current
  { s with nextTimeout := when, timeoutptr := some (ltime / 1000, (ltime - ltime / 1000 * 1000) * 1000) }

/-- The least deadline of the timers that are not marked, or the first timer's. -/
def adjTimeout (current : ℕ) (s : State) : Option State :=
  match s.timers.head with
  | none => some { s with timeoutptr := none }
  | some timers => (s.timers.val timers).bind fun t =>
    (each s.timers.node
      (fun newTimeout _ timer => if !timer.mark2Remove && timer.when < newTimeout then timer.when else newTimeout)
      s.timers.brk s.timers.head t.when).map fun newTimeout => setNewTimeout current newTimeout s

def timerRepeatAfter (count : ℤ) (ltime : ℤ) (cb : Option ℕ) (user_data : ℕ) (stamp : ℕ) (s : State) : State :=
  match cb with
  | none => s
  | some cb =>
    let timer := s.timers.brk
    let when := u64 (stamp + ltime)
    let s := if when < s.nextTimeout || s.timeoutptr.isNone then setNewTimeout stamp when s else s
    { s with timers := s.timers.push ⟨count, u64 ltime, when, cb, user_data, false⟩ }.write
      (.create timer count when)

def timerRemove (timer : Option ℕ) (stamp : ℕ) (s : State) : Option State :=
  match timer with
  | none => some s
  | some timer => (s.timers.val timer).bind fun t =>
    if t.mark2Remove then some s
    else adjTimeout stamp
      ({ s with timers := s.timers.set timer { t with mark2Remove := true } }.write (.remove timer))

def timerModify (timer : Option ℕ) (ltime : ℤ) (stamp : ℕ) (s : State) : Option State :=
  match timer with
  | none => some s
  | some timer => (s.timers.val timer).bind fun t =>
    if t.mark2Remove then some s
    else
      let when := u64 (stamp + ltime)
      adjTimeout stamp
        ({ s with timers := s.timers.set timer { t with period := u64 ltime, when := when } }.write
          (.modify timer when))

def timerGetSmallestTimeout (stamp : ℕ) (s : State) : Option State := adjTimeout stamp s

def timerScan (stamp : ℕ) (s : State) : State :=
  (s.write (.scan stamp s.timers.addresses)).goto (.scan stamp s.timers.head)

/-- The first walk comes to a timer; a callback is called for one that is due. -/
def visitScan (stamp timer : ℕ) (s : State) : Option State :=
  (s.timers.node timer).map fun n =>
    if n.val.when ≤ stamp && !n.val.mark2Remove then (s.write (.call timer)).goto (.callback stamp n.next)
    else (s.write (.skip timer)).goto (.scan stamp n.next)

def removeTimer (timer : ℕ) (s : State) : Option State :=
  (s.timers.remove timer).map fun timers => { s with timers := timers }.write (.free timer)

def chargeTimer (stamp timer : ℕ) (t : Timer) (s : State) : Option State :=
  let rearm (repeats : ℤ) :=
    let when := u64 (stamp + t.period)
    { s with timers := s.timers.set timer { t with repeats := repeats, when := when } }.write (.rearm timer when)
  if t.mark2Remove then removeTimer timer s
  else if t.when ≤ stamp then
    if t.repeats = timerLoop then some (rearm t.repeats)
    else
      let repeats := Int.bmod (t.repeats - 1) (2 ^ 32)
      if repeats ≠ 0 then some (rearm repeats) else removeTimer timer s
  else some s

def visitCharge (stamp timer : ℕ) (s : State) : Option State :=
  (s.timers.node timer).bind fun n =>
    (chargeTimer stamp timer n.val s).map fun s => s.goto (.charge stamp n.next)

def advance (s : State) : Option State :=
  match s.pc with
  | .scan stamp none => some ((s.write .charge).goto (.charge stamp s.timers.head))
  | .scan stamp (some timer) => visitScan stamp timer s
  | .charge _ none => some (s.goto .idle)
  | .charge stamp (some timer) => visitCharge stamp timer s
  | _ => none

/-- A reading of the clock comes with each call of `currentTime`. -/
inductive Event
  | timerRepeatAfter (count : ℤ) (ltime : ℤ) (cb : Option ℕ) (user_data : ℕ) (stamp : ℕ)
  | timerRemove (timer : Option ℕ) (stamp : ℕ)
  | timerModify (timer : Option ℕ) (ltime : ℤ) (stamp : ℕ)
  | timerGetSmallestTimeout (stamp : ℕ)
  | timerScan (stamp : ℕ)
  | next
  /-- the callback returns -/
  | ret

def step (s : State) : Event → Option State
  | .timerRepeatAfter count ltime cb user_data stamp =>
    if s.pc.outside then some (timerRepeatAfter count ltime cb user_data stamp s) else none
  | .timerRemove timer stamp => if s.pc.outside then timerRemove timer stamp s else none
  | .timerModify timer ltime stamp => if s.pc.outside then timerModify timer ltime stamp s else none
  | .timerGetSmallestTimeout stamp => if s.pc.outside then timerGetSmallestTimeout stamp s else none
  | .timerScan stamp => if s.pc = .idle then some (timerScan stamp s) else none
  | .next => advance s
  | .ret =>
    match s.pc with
    | .callback stamp next => some (s.goto (.scan stamp next))
    | _ => none

end Ivy.Timers

import Ivy.Lib.Machine
import Mathlib.Data.List.Basic
import Mathlib.Logic.Function.Basic

/-! A pipe between two parties. A message may be refused when it is sent; the others are delivered in
the order in which they were sent. -/
namespace Ivy

variable {α : Type*}

structure Pipe (α : Type*) where
  delivered : List α
  onTheWay : List α

namespace Pipe

inductive Event (α : Type*)
  | send (message : α) (admitted : Bool)
  | deliver (count : ℕ)

def empty : Pipe α := ⟨[], []⟩

def all (p : Pipe α) : List α := p.delivered ++ p.onTheWay

def step (p : Pipe α) : Event α → Option (Pipe α)
  | .send message true => some { p with onTheWay := p.onTheWay ++ [message] }
  | .send _ false => some p
  | .deliver count => some ⟨p.delivered ++ p.onTheWay.take count, p.onTheWay.drop count⟩

def sent (es : List (Event α)) : List α :=
  es.filterMap fun
    | .send message _ => some message
    | .deliver _ => none

def admitted (es : List (Event α)) : List α :=
  es.filterMap fun
    | .send message true => some message
    | _ => none

theorem sent_append (es es' : List (Event α)) : sent (es ++ es') = sent es ++ sent es' := List.filterMap_append

theorem step_all {p q : Pipe α} {e : Event α} (h : p.step e = some q) : q.all = p.all ++ admitted [e] := by
  cases e with
  | send message accepted =>
    cases accepted with
    | true =>
      obtain rfl := Option.some.inj h
      exact (List.append_assoc _ _ _).symm
    | false =>
      obtain rfl := Option.some.inj h
      exact (List.append_nil _).symm
  | deliver count =>
    obtain rfl := Option.some.inj h
    unfold all
    rw [List.append_assoc, List.take_append_drop]
    exact (List.append_nil _).symm

/-- Nothing that was admitted is lost, duplicated or overtaken. -/
theorem run_all {p q : Pipe α} {es : List (Event α)} (h : Machine.run step p es = some q) :
    q.all = p.all ++ admitted es := by
  apply Machine.run_reaches (I := fun past q => q.all = p.all ++ admitted past) (List.append_nil _).symm ?_ h
  intro past q e t hq ht
  have hadmitted : admitted (past ++ [e]) = admitted past ++ admitted [e] := List.filterMap_append ..
  rw [step_all ht, hq, hadmitted, List.append_assoc]

theorem admitted_sublist (es : List (Event α)) : (admitted es).Sublist (sent es) := by
  induction es with
  | nil => exact .slnil
  | cons e es ih =>
    cases e with
    | send message accepted =>
      cases accepted with
      | true => exact ih.cons_cons message
      | false => exact ih.cons message
    | deliver count => exact ih

section Many
variable {κ : Type*} [DecidableEq κ]

def stepAt (ps : κ → Pipe α) (e : κ × Event α) : Option (κ → Pipe α) :=
  ((ps e.1).step e.2).map (Function.update ps e.1)

def eventsAt (k : κ) (es : List (κ × Event α)) : List (Event α) :=
  es.filterMap fun e => if e.1 = k then some e.2 else none

theorem eventsAt_append (k : κ) (es es' : List (κ × Event α)) :
    eventsAt k (es ++ es') = eventsAt k es ++ eventsAt k es' := List.filterMap_append

/-- Each pipe sees its own events alone. -/
theorem run_eventsAt {ps qs : κ → Pipe α} {es : List (κ × Event α)} (h : Machine.run stepAt ps es = some qs) (k : κ) :
    Machine.run step (ps k) (eventsAt k es) = some (qs k) := by
  induction es generalizing ps with
  | nil =>
    obtain rfl := Option.some.inj h
    rfl
  | cons e es ih =>
    obtain ⟨rs, hrs, hrest⟩ := Option.bind_eq_some_iff.mp h
    obtain ⟨p, hp, rfl⟩ := Option.map_eq_some_iff.mp hrs
    have hlater := ih hrest
    unfold eventsAt at hlater ⊢
    rw [List.filterMap_cons]
    by_cases hk : e.1 = k
    · subst hk
      rw [Function.update_self] at hlater
      rw [if_pos rfl, Machine.run, hp, Option.bind_some, hlater]
    · rw [Function.update_of_ne (Ne.symm hk)] at hlater
      rw [if_neg hk, hlater]

/-- The events of one pipe leave the others alone. -/
theorem run_stepAt {ps : κ → Pipe α} {k : κ} {es : List (Event α)} {p : Pipe α}
    (h : Machine.run step (ps k) es = some p) :
    Machine.run stepAt ps (es.map fun e => (k, e)) = some (Function.update ps k p) := by
  induction es generalizing ps with
  | nil =>
    obtain rfl := Option.some.inj h
    rw [Function.update_eq_self]
    rfl
  | cons e es ih =>
    obtain ⟨q, hq, hrest⟩ := Option.bind_eq_some_iff.mp h
    have hstep : stepAt ps (k, e) = some (Function.update ps k q) := by
      rw [stepAt, hq, Option.map_some]
    rw [← Function.update_self k q ps] at hrest
    rw [List.map_cons, Machine.run, hstep, Option.bind_some, ih hrest, Function.update_idem]

end Many
end Pipe
end Ivy

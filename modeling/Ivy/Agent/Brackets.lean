import Ivy.Agent.Sockets
import Mathlib.Algebra.BigOperators.Ring.Finset
import Mathlib.Data.Set.Card

/-! The events `IvyApplicationConnected` and `IvyApplicationDisconnected`. A line of the peer leads to
the one, the end of its socket to the other. -/
namespace Ivy.Agent
open Socket Registry Bus

variable {Code User : Type*}

/-- The coming or going of an application on the connection. -/
def Entry.event (c : ℕ) : Entry Code → Option (Option ℕ × IvyApplicationEvent)
  | .applicationCallback client app event =>
    if client = c ∧ (event = .ivyApplicationConnected ∨ event = .ivyApplicationDisconnected) then some (app, event)
    else none
  | _ => none

def change : IvyApplicationEvent → ℤ
  | .ivyApplicationConnected => 1
  | .ivyApplicationDisconnected => -1
  | _ => 0

def Entry.change : Entry Code → ℤ
  | .applicationCallback _ _ event => Agent.change event
  | _ => 0

namespace Data
variable (d : Data Code User)

def events (c : ℕ) : List (Option ℕ × IvyApplicationEvent) := d.log.filterMap (·.event c)

/-- A counter that goes up on `IvyApplicationConnected` and down on `IvyApplicationDisconnected`. -/
def appCount : ℤ := (d.log.map (·.change)).sum

def Connected (c : ℕ) : Prop := d.Handshaken c ∧ d.memory c ≠ none

instance (c : ℕ) : Decidable (d.Connected c) := inferInstanceAs (Decidable (_ ∧ _))

end Data

/-- An `EndRegexp` is the first one of its connection. -/
def EndsOnce (c : ℕ) (w : World Code User) (line : Text) : Prop :=
  (Entry.receive c (w.user.request c line) : Entry Code).completes c = true → ¬ w.user.Handshaken c

instance (c : ℕ) (w : World Code User) (line : Text) : Decidable (EndsOnce c w line) :=
  inferInstanceAs (Decidable (_ → ¬ _))

/-- A connection is deleted after its `EndRegexp`. -/
def EndsBefore (w : World Code User) (c : ℕ) : Prop := w.user.sock c ≠ none → w.user.Handshaken c

instance (w : World Code User) (c : ℕ) : Decidable (EndsBefore w c) := inferInstanceAs (Decidable (_ ≠ none → _))

def bracket (c : ℕ) : List (Option ℕ × IvyApplicationEvent) :=
  [(some c, .ivyApplicationConnected), (some c, .ivyApplicationDisconnected)]

/-- How much of its bracket a connection has got. -/
def Data.stage (d : Data Code User) (c : ℕ) : ℕ :=
  if d.Handshaken c then if d.memory c = none then 2 else 1 else 0

/-- The events of a connection follow its handshake and the end of its socket. -/
structure Bracketed (w : World Code User) (c : ℕ) : Prop where
  events : w.user.events c = (bracket c).take (w.user.stage c)
  data : w.user.Connected c → (w.user.sock c).any (·.data) = true
  fresh : w.channels.brk ≤ c → w.user.memory c = none ∧ ¬ w.user.Handshaken c

section Log
variable {d d' : Data Code User} {extra : List (Entry Code)} {c : ℕ}

theorem events_append (hlog : d'.log = d.log ++ extra) (c : ℕ) :
    d'.events c = d.events c ++ extra.filterMap (·.event c) := by
  rw [Data.events, hlog, List.filterMap_append, Data.events]

theorem events_of_silent (hlog : d'.log = d.log ++ extra)
    (hextra : ∀ e ∈ extra, e.event c = none ∧ e.completes c = false) : d'.events c = d.events c := by
  rw [events_append hlog, List.filterMap_eq_nil_iff.mpr fun e he => (hextra e he).1, List.append_nil]

theorem handshaken_of_silent (hlog : d'.log = d.log ++ extra)
    (hextra : ∀ e ∈ extra, e.event c = none ∧ e.completes c = false) : d'.Handshaken c ↔ d.Handshaken c := by
  have hnone : ¬ extra.any (·.completes c) = true := by
    rw [Bool.not_eq_true, List.any_eq_false]
    exact fun e he => by simp [(hextra e he).2]
  exact (handshaken_append hlog c).trans (or_iff_left hnone)

theorem Entry.silent_of_plain {e : Entry Code} (he : e.plain = true) (c : ℕ) :
    e.event c = none ∧ e.completes c = false := by
  cases e <;> simp_all [Entry.plain, Entry.event, Entry.completes]

end Log

section Steps
variable {a : Setup Code User} {w w' : World Code User} {c : ℕ} {extra : List (Entry Code)}

theorem Bracketed.extend (h : Bracketed w c) (hsock : w'.user.sock c = w.user.sock c)
    (hmemory : w'.user.memory c = none ↔ w.user.memory c = none) (hbrk : w.channels.brk ≤ w'.channels.brk)
    (hlog : w'.user.log = w.user.log ++ extra)
    (hextra : ∀ e ∈ extra, e.event c = none ∧ e.completes c = false) : Bracketed w' c := by
  have hevents := events_of_silent hlog hextra
  have hend := handshaken_of_silent hlog hextra
  have hstage : w'.user.stage c = w.user.stage c := by simp only [Data.stage, hend, hmemory]
  constructor
  · rw [hevents, hstage]
    exact h.events
  · rw [Data.Connected, hend, ne_eq, hmemory, hsock]
    exact h.data
  · rw [hmemory, hend]
    exact fun hle => h.fresh (Nat.le_trans hbrk hle)

theorem Bracketed.extend_of_memory (h : Bracketed w c) (hmemory : w'.user.memory c = w.user.memory c)
    (hbrk : w.channels.brk ≤ w'.channels.brk) (hlog : w'.user.log = w.user.log ++ extra)
    (hextra : ∀ e ∈ extra, e.event c = none ∧ e.completes c = false) : Bracketed w' c := by
  apply h.extend (sock_of_memory hmemory) _ hbrk hlog hextra
  rw [hmemory]

theorem bracketed_core (h : Bracketed w c) (hcore : SameCore w w') : Bracketed w' c := by
  obtain ⟨extra, hlog, hplain⟩ := hcore.log
  apply h.extend (hcore.sock c) (hcore.freed c) (Nat.le_of_eq hcore.brk.symm) hlog
  exact fun e he => Entry.silent_of_plain (hplain e he) c

theorem bracketed_other {c' : ℕ} {r : Request} (h : Bracketed w c)
    (hr : (Entry.receive c' r : Entry Code).completes c = false)
    (hhandles : Handles a c' (logged c' r w) w' r) : Bracketed w' c := by
  have hlogged : Bracketed (logged c' r w) c := by
    refine h.extend_of_memory rfl (Nat.le_refl _) (log_logged c' r w) fun e he => ?_
    rw [List.mem_singleton.mp he]
    exact ⟨rfl, hr⟩
  generalize logged c' r w = v at hlogged hhandles
  cases hhandles with
  | calm _ hcalm =>
    obtain ⟨extra, hlog, hplain⟩ := hcalm.log
    apply hlogged.extend_of_memory (congrFun hcalm.memory c) (Nat.le_of_eq hcalm.brk.symm) hlog
    exact fun e he => Entry.silent_of_plain (hplain e he) c
  | endRegexp id arg hend =>
    have hne : c' ≠ c := by simpa [Entry.completes] using hr
    obtain ⟨extra, hlog, hplain⟩ := hend.log
    apply hlogged.extend_of_memory (congrFun hend.memory c) (Nat.le_of_eq (by rw [hend.channels])) hlog
    intro e he
    rcases List.mem_cons.mp he with rfl | he
    · simp [Entry.event, Entry.completes, hne]
    · rcases List.mem_append.mp he with he | he
      · obtain ⟨sent, rfl⟩ := clientCall_of_mem_readyCalls he
        exact ⟨rfl, rfl⟩
      · exact Entry.silent_of_plain (hplain e he) c
  | die id arg hdied =>
    obtain ⟨extra, clients, hlog, hplain, -⟩ := hdied.log
    rw [List.append_assoc] at hlog
    apply hlogged.extend_of_memory (congrFun hdied.memory c) (Nat.le_of_eq hdied.brk.symm) hlog
    intro e he
    rcases List.mem_append.mp he with he | he
    · exact Entry.silent_of_plain (hplain e he) c
    · rw [List.mem_singleton.mp he]
      exact ⟨rfl, rfl⟩

theorem events_of_not_handshaken (h : Bracketed w c) (hnot : ¬ w.user.Handshaken c) : w.user.events c = [] := by
  rw [h.events, Data.stage, if_neg hnot, List.take_zero]

theorem events_readyCalls (a : Setup Code User) (c : ℕ) (readyToSend : ℤ) (dict : Dictionary Code) :
    (readyCalls a c readyToSend dict).filterMap (·.event c) = [] := by
  apply List.filterMap_eq_nil_iff.mpr
  intro e he
  obtain ⟨sent, rfl⟩ := clientCall_of_mem_readyCalls he
  rfl

theorem events_endRegexp {id : ℤ} {arg : Text}
    (hend : Completed a c (logged c (.control .endRegexp id arg) w) w') :
    w'.user.events c = w.user.events c ++ [(some c, .ivyApplicationConnected)] := by
  have hbefore : (logged c (.control .endRegexp id arg) w).user.events c = w.user.events c :=
    (events_append (log_logged c (.control .endRegexp id arg) w) c).trans (List.append_nil _)
  have hconnected : (Entry.applicationCallback c (some c) .ivyApplicationConnected : Entry Code).event c =
      some (some c, .ivyApplicationConnected) := by simp [Entry.event]
  obtain ⟨extra, hlog, hplain⟩ := hend.log
  have hextra : extra.filterMap (·.event c) = [] :=
    List.filterMap_eq_nil_iff.mpr fun e he => (Entry.silent_of_plain (hplain e he) c).1
  rw [events_append hlog, hbefore, List.filterMap_cons_some hconnected, List.filterMap_append, events_readyCalls,
    hextra]
  rfl

theorem handshaken_endRegexp {id : ℤ} {arg : Text}
    (hend : Completed a c (logged c (.control .endRegexp id arg) w) w') : w'.user.Handshaken c := by
  obtain ⟨extra, hlog, -⟩ := hend.log
  rw [handshaken_append hlog]
  left
  rw [handshaken_append (log_logged c (.control .endRegexp id arg) w)]
  exact .inr (by simp)

/-- The first `EndRegexp` of the connection opens the bracket. -/
theorem bracketed_endRegexp {id : ℤ} {arg : Text} (h : Bracketed w c) (hserved : w.user.Served c)
    (hfirst : ¬ w.user.Handshaken c)
    (hend : Completed a c (logged c (.control .endRegexp id arg) w) w') : Bracketed w' c := by
  have hmemory : w'.user.memory = w.user.memory := hend.memory
  have hsock : w'.user.sock c = w.user.sock c := sock_of_memory (congrFun hmemory c)
  have halive : w'.user.memory c ≠ none := by
    rw [hmemory]
    intro hnone
    have hdata := hserved.1
    simp [Data.sock, hnone] at hdata
  have hhandshaken := handshaken_endRegexp hend
  constructor
  · rw [events_endRegexp hend, events_of_not_handshaken h hfirst, Data.stage, if_pos hhandshaken, if_neg halive]
    rfl
  · intro _
    rw [hsock]
    exact hserved.1
  · intro hle
    have hle : w.channels.brk ≤ c := by
      rw [hend.channels] at hle
      exact hle
    exact absurd (h.fresh hle).1 (hmemory ▸ halive)

theorem bracketed_line {c' : ℕ} {line : Text} (h : ∀ c, Bracketed w c) (hends : EndsOnce c' w line)
    (hw : receive a c' w line = some w') (c : ℕ) : Bracketed w' c := by
  obtain ⟨hserved, hhandles⟩ := receive_handles hw
  unfold EndsOnce at hends
  generalize w.user.request c' line = r at hhandles hends
  cases hr : (Entry.receive c' r : Entry Code).completes c with
  | false => exact bracketed_other (h c) hr hhandles
  | true =>
    have hc : c' = c := by
      unfold Entry.completes at hr
      split at hr <;> simp_all
    subst hc
    cases hhandles with
    | endRegexp id arg hend => exact bracketed_endRegexp (h c') hserved (hends hr) hend
    | calm _ hcalm hnot =>
      cases r <;> simp_all [Entry.completes]
    | die id arg => simp [Entry.completes] at hr

theorem bracketed_new {owner : Option Owner} (h : ∀ c, Bracketed w c)
    (hmemory : w'.user.memory = Function.update w.user.memory w.channels.brk owner)
    (hbrk : w'.channels.brk = w.channels.brk + 1) (hlog : w'.user.log = w.user.log ++ extra)
    (hextra : ∀ c, ∀ e ∈ extra, e.event c = none ∧ e.completes c = false) (c : ℕ) : Bracketed w' c := by
  by_cases hc : c = w.channels.brk
  · have hold := ((h c).fresh (Nat.le_of_eq hc.symm)).2
    have hnot : ¬ w'.user.Handshaken c := mt (handshaken_of_silent hlog (hextra c)).mp hold
    have hevents : w'.user.events c = [] :=
      (events_of_silent hlog (hextra c)).trans (events_of_not_handshaken (h c) hold)
    constructor
    · rw [hevents, Data.stage, if_neg hnot, List.take_zero]
    · exact fun hconnected => absurd hconnected.1 hnot
    · intro hle
      omega
  · have hsame : w'.user.memory c = w.user.memory c := by rw [hmemory, Function.update_of_ne hc]
    exact (h c).extend_of_memory hsame (by omega) hlog (hextra c)

theorem bracketed_connects {addresses : Addresses} (h : ∀ c, Bracketed w c) (hconn : Connects addresses w w')
    (c : ℕ) : Bracketed w' c := by
  obtain ⟨extra, hlog, hplain⟩ := hconn.log
  exact bracketed_new h hconn.memory hconn.brk hlog (fun c e he => Entry.silent_of_plain (hplain e he) c) c

theorem bracketed_rejects {addresses : Addresses} (h : ∀ c, Bracketed w c) (hreject : Rejects addresses w w')
    (c : ℕ) : Bracketed w' c := by
  refine bracketed_new h hreject.memory hreject.brk hreject.log (fun c e he => ?_) c
  rw [List.mem_singleton.mp he]
  exact ⟨rfl, rfl⟩

/-- A connection that is deleted after its `EndRegexp` closes its bracket. -/
theorem bracketed_deletes {c' : ℕ} (h : ∀ c, Bracketed w c) (hends : EndsBefore w c') (hdel : Deletes c' w w')
    (c : ℕ) : Bracketed w' c := by
  have hlog := hdel.log
  rw [List.append_assoc] at hlog
  by_cases hc : c = c'
  · subst hc
    have hgone : w'.user.memory c = none := by rw [hdel.memory, Function.update_self]
    have hend : w'.user.Handshaken c ↔ w.user.Handshaken c := by
      rw [handshaken_append hlog]
      apply or_iff_left
      cases w.user.sock c <;> simp [Entry.completes]
    have hevents := events_append hlog c
    constructor
    · by_cases hdone : w.user.Handshaken c
      · have hdata := (h c).data ⟨hdone, hdel.alive⟩
        rw [hevents, (h c).events, Data.stage, if_pos hdone, if_neg hdel.alive, Data.stage, if_pos (hend.mpr hdone),
          if_pos hgone]
        cases hsock : w.user.sock c with
        | none => simp [hsock] at hdata
        | some sock =>
          have hsome : sock.data = true := by simpa [hsock] using hdata
          simp [bracket, Entry.event, hsome]
      · have hsock : w.user.sock c = none := by
          by_contra hsome
          exact hdone (hends hsome)
        rw [hevents, events_of_not_handshaken (h c) hdone, Data.stage, if_neg (mt hend.mp hdone), hsock]
        rfl
    · exact fun hconnected => absurd hgone hconnected.2
    · intro hle
      rw [hdel.channels] at hle
      exact absurd ((h c).fresh hle).1 hdel.alive
  · have hsame : w'.user.memory c = w.user.memory c := by rw [hdel.memory, Function.update_of_ne hc]
    apply (h c).extend_of_memory hsame (Nat.le_of_eq (by rw [hdel.channels])) hlog
    cases w.user.sock c' <;> simp [Entry.event, Entry.completes, Ne.symm hc]

end Steps

theorem bracketed_withstands (a : Setup Code User) :
    Withstands a EndsOnce EndsBefore fun w => ∀ c, Bracketed w c where
  core _ _ h hcore c := bracketed_core (h c) hcore
  line _ _ _ _ h hends hw := bracketed_line h hends hw
  connects _ _ _ h hconn := bracketed_connects h hconn
  rejects _ _ _ h hreject := bracketed_rejects h hreject
  deletes _ _ _ h hends hdel := bracketed_deletes h hends hdel

theorem bracketed_ivyStart (o : Opened User) (c : ℕ) : Bracketed (ivyStart o : World Code User) c := by
  have hnot : ¬ (ivyStart o : World Code User).user.Handshaken c := by simp [Data.Handshaken, ivyStart]
  constructor
  · rw [Data.stage, if_neg hnot]
    rfl
  · exact fun hconnected => absurd hconnected.1 hnot
  · intro hle
    have hle : 2 ≤ c := hle
    have hmemory : (ivyStart o : World Code User).user.memory c = none := by
      simp only [ivyStart]
      rw [Function.update_of_ne (by omega), Function.update_of_ne (by omega)]
    exact ⟨hmemory, hnot⟩

section Count

def net (events : List (Option ℕ × IvyApplicationEvent)) : ℤ := (events.map fun e => change e.2).sum

theorem sum_event {n : ℕ} {e : Entry Code} (hn : ∀ c, n ≤ c → e.event c = none) :
    e.change = ∑ c ∈ Finset.range n, (e.event c).elim 0 fun p => change p.2 := by
  cases e with
  | applicationCallback client app event =>
    by_cases hevent : event = .ivyApplicationConnected ∨ event = .ivyApplicationDisconnected
    · have hlt : client < n := by
        by_contra hle
        have hnone := hn client (Nat.le_of_not_lt hle)
        simp [Entry.event, hevent] at hnone
      have hterm (c : ℕ) : ((Entry.applicationCallback client app event : Entry Code).event c).elim 0
          (fun p => change p.2) = if client = c then change event else 0 := by
        by_cases hc : client = c <;> simp [Entry.event, hc, hevent]
      rw [Finset.sum_congr rfl fun c _ => hterm c, Finset.sum_ite_eq, if_pos (Finset.mem_range.mpr hlt)]
      rfl
    · have hzero : change event = 0 := by cases event <;> simp_all [change]
      simp [Entry.event, Entry.change, hevent, hzero]
  | _ => simp [Entry.event, Entry.change]

theorem sum_change {n : ℕ} {log : List (Entry Code)} (hn : ∀ c, n ≤ c → log.filterMap (·.event c) = []) :
    (log.map (·.change)).sum = ∑ c ∈ Finset.range n, net (log.filterMap (·.event c)) := by
  induction log with
  | nil => simp [net]
  | cons e log ih =>
    have hhead (c : ℕ) (hc : n ≤ c) : e.event c = none :=
      List.filterMap_eq_nil_iff.mp (hn c hc) e List.mem_cons_self
    have htail (c : ℕ) (hc : n ≤ c) : log.filterMap (·.event c) = [] :=
      List.filterMap_eq_nil_iff.mpr fun e' he' =>
        List.filterMap_eq_nil_iff.mp (hn c hc) e' (List.mem_cons_of_mem _ he')
    have hnet (c : ℕ) : net ((e :: log).filterMap (·.event c)) =
        (e.event c).elim 0 (fun p => change p.2) + net (log.filterMap (·.event c)) := by
      cases hevent : e.event c <;> simp [net, hevent]
    rw [List.map_cons, List.sum_cons, ih htail, sum_event hhead, ← Finset.sum_add_distrib]
    exact Finset.sum_congr rfl fun c _ => (hnet c).symm

theorem net_events {w : World Code User} {c : ℕ} (h : Bracketed w c) :
    net (w.user.events c) = if w.user.Connected c then 1 else 0 := by
  rw [h.events, Data.stage]
  by_cases hdone : w.user.Handshaken c <;> by_cases hgone : w.user.memory c = none <;>
    simp [net, bracket, change, Data.Connected, hdone, hgone]

/-- If all connections are bracketed, the counter is right. -/
theorem appCount_eq {w : World Code User} (h : ∀ c, Bracketed w c) :
    w.user.appCount = {c | w.user.Connected c}.ncard := by
  have hfresh (c : ℕ) (hle : w.channels.brk ≤ c) : w.user.events c = [] :=
    events_of_not_handshaken (h c) ((h c).fresh hle).2
  have hset : {c | w.user.Connected c} = ↑((Finset.range w.channels.brk).filter w.user.Connected) := by
    ext c
    simp only [Set.mem_ofPred_eq, Finset.coe_filter, Finset.mem_range]
    refine ⟨fun hconnected => ⟨?_, hconnected⟩, And.right⟩
    by_contra hle
    exact ((h c).fresh (Nat.le_of_not_lt hle)).2 hconnected.1
  rw [hset, Set.ncard_coe_finset, Data.appCount, sum_change hfresh, Finset.natCast_card_filter]
  exact Finset.sum_congr rfl fun c _ => net_events (h c)

end Count

/-- In every run in which a connection sends one `EndRegexp` before it ends, its events are a part of
its bracket, and a counter of the events is the number of the applications connected. -/
theorem application_events_bracketed (a : Setup Code User) (o : Opened User) (events : List (Loop.Event Env))
    (hends : Machine.Guarded (Loop.step (program a))
      (Loop.OnHandler fun w h => OnLines a EndsOnce w h ∧ OnDelete EndsBefore w h)
      (Loop.started (ivyStart o)) events)
    (s : Loop.State Unit (Data Code User)) (hrun : run a o events = some s) :
    (∀ c, s.world.user.events c <+: bracket c) ∧
      s.world.user.appCount = {c | s.world.user.Connected c}.ncard := by
  have h := (bracketed_withstands a).run (bracketed_ivyStart o) hends hrun
  refine ⟨fun c => ?_, appCount_eq h⟩
  rw [(h c).events]
  exact List.take_prefix _ _

/-- A peer connects, sends the lines and closes; its socket is deleted. -/
def comesAndGoes (lines : List (List UInt8)) : List (Loop.Event Env) :=
  turn 2 {3} [nothing, accepts 5 40000] 3 ++
    turn 3 {5} [reads (lines.flatten ++ msgFrame .bye 0 []), nothing, nothing] 3 ++
      .enter false :: List.replicate 4 (.next nothing)

theorem application_events_bracketed_example :
    ∃ s, run plainAgent opened (comesAndGoes [msgFrame .endRegexp 0 []]) = some s ∧
      s.world.user.events 2 = bracket 2 ∧ (∀ c, s.world.user.events c <+: bracket c) ∧
      s.world.user.appCount = {c | s.world.user.Connected c}.ncard := by
  have hbracket : (run plainAgent opened (comesAndGoes [msgFrame .endRegexp 0 []])).any
      (fun s => s.world.user.events 2 = bracket 2) = true := by decide +kernel
  obtain ⟨s, hs, hevents⟩ := (Option.any_eq_true _ _).mp hbracket
  refine ⟨s, hs, by simpa using hevents, ?_⟩
  exact application_events_bracketed plainAgent opened _ (by decide +kernel) s hs

/-- A peer that sends no `EndRegexp` goes without having come. -/
theorem disconnected_without_connected :
    ∃ s, run plainAgent opened (comesAndGoes []) = some s ∧
      s.world.user.events 2 = [(some 2, .ivyApplicationDisconnected)] ∧ ¬ s.world.user.events 2 <+: bracket 2 ∧
      s.world.user.appCount = -1 := by
  have hgoes : (run plainAgent opened (comesAndGoes [])).any (fun s =>
      s.world.user.events 2 = [(some 2, .ivyApplicationDisconnected)] ∧ s.world.user.appCount = -1) = true := by
    decide +kernel
  obtain ⟨s, hs, hsome⟩ := (Option.any_eq_true _ _).mp hgoes
  obtain ⟨hevents, hcount⟩ := of_decide_eq_true hsome
  refine ⟨s, hs, hevents, ?_, hcount⟩
  rw [hevents]
  decide

end Ivy.Agent

import Ivy.Agent.Sockets

/-! The records that the socket layer passes as data: null after `ClientCreate` rejected the
connection, dangling after `IvyCleanup`. -/
namespace Ivy.Agent
open Socket Registry

variable {Code User : Type*}

def Entry.frees (c : ℕ) : Entry Code → Bool
  | .deleteSocket client => client = c
  | _ => false

/-- From here on the connection has no record. -/
def Entry.ends (c : ℕ) : Entry Code → Bool
  | .rejected client => client = c
  | .ivyCleanup clients => c ∈ clients
  | .deleteSocket client => client = c
  | _ => false

namespace Data
variable (d : Data Code User) (c : ℕ)

def Freed : Prop := d.log.any (·.frees c) = true

/-- The connection was rejected, was open when a `Die` was handled, or was deleted. -/
def Ended : Prop := d.log.any (·.ends c) = true

instance : Decidable (d.Freed c) := inferInstanceAs (Decidable (_ = true))

instance : Decidable (d.Ended c) := inferInstanceAs (Decidable (_ = true))

end Data

/-- The socket that a handler is called for satisfies `alive`, and its connection `P` whenever
`Receive`, `ClientDecongestion` or `ClientDelete` is called. -/
def AtCalls (a : Setup Code User) (alive P : Data Code User → ℕ → Prop) (w : World Code User) :
    Loop.Handler Unit Env → Prop
  | .delete _ ch => alive w.user ch.id ∧ (w.user.sock ch.id ≠ none → P w.user ch.id)
  | .read env ch => alive w.user ch.id ∧ OnLines a (fun c w _ => P w.user c) w (.read env ch)
  | .write env ch => alive w.user ch.id ∧
      (env.written = .drained → w.user.sock ch.id ≠ none → P w.user ch.id)
  | .hook _ => True

instance (a : Setup Code User) (alive P : Data Code User → ℕ → Prop) [∀ d c, Decidable (alive d c)]
    [∀ d c, Decidable (P d c)] (w : World Code User) : ∀ h, Decidable (AtCalls a alive P w h)
  | .delete _ _ => inferInstanceAs (Decidable (_ ∧ _))
  | .read _ _ => inferInstanceAs (Decidable (_ ∧ _))
  | .write _ _ => inferInstanceAs (Decidable (_ ∧ _))
  | .hook _ => inferInstanceAs (Decidable True)

/-- The socket is there, and the record that is passed is non-null and in `allClients`. -/
def CallsServed (a : Setup Code User) : World Code User → Loop.Handler Unit Env → Prop :=
  AtCalls a (fun d c => d.memory c ≠ none) Data.Served

/-- No call is for a socket that was deleted, or for a connection that was rejected or was open
when a `Die` was handled. -/
def CallsBefore (a : Setup Code User) : World Code User → Loop.Handler Unit Env → Prop :=
  AtCalls a (fun d c => ¬ d.Freed c) fun d c => ¬ d.Ended c

instance (a : Setup Code User) (w : World Code User) (h : Loop.Handler Unit Env) :
    Decidable (CallsServed a w h) := inferInstanceAs (Decidable (AtCalls _ _ _ _ _))

instance (a : Setup Code User) (w : World Code User) (h : Loop.Handler Unit Env) :
    Decidable (CallsBefore a w h) := inferInstanceAs (Decidable (AtCalls _ _ _ _ _))

/-- The log tells whether a connection has a record. -/
structure Accounted (w : World Code User) (c : ℕ) : Prop where
  linked : w.user.Linked c → (w.user.sock c).any (·.data) = true ∧ ¬ w.user.Ended c
  served : w.user.sock c ≠ none → ¬ w.user.Ended c → w.user.Served c
  alive : w.user.memory c ≠ none → ¬ w.user.Freed c
  freed : c < w.channels.brk → w.user.memory c = none → w.user.Freed c
  fresh : w.channels.brk ≤ c → w.user.memory c = none ∧ ¬ w.user.Linked c ∧ ¬ w.user.Ended c

section Log
variable {d d' : Data Code User} {extra : List (Entry Code)}

theorem Entry.ends_of_plain {e : Entry Code} (he : e.plain = true) (c : ℕ) : e.ends c = false := by
  cases e <;> simp_all [Entry.plain, Entry.ends]

theorem Entry.ends_of_frees {e : Entry Code} {c : ℕ} (he : e.frees c = true) : e.ends c = true := by
  cases e <;> simp_all [Entry.frees, Entry.ends]

theorem ended_append (hlog : d'.log = d.log ++ extra) (c : ℕ) :
    d'.Ended c ↔ d.Ended c ∨ extra.any (·.ends c) = true := any_log_append hlog _

theorem freed_append (hlog : d'.log = d.log ++ extra) (c : ℕ) :
    d'.Freed c ↔ d.Freed c ∨ extra.any (·.frees c) = true := any_log_append hlog _

theorem ended_of_freed {c : ℕ} (h : d.Freed c) : d.Ended c := by
  obtain ⟨e, he, hfrees⟩ := List.any_eq_true.mp h
  exact List.any_eq_true.mpr ⟨e, he, Entry.ends_of_frees hfrees⟩

theorem ended_same {c : ℕ} (hlog : d'.log = d.log ++ extra) (hextra : ∀ e ∈ extra, e.ends c = false) :
    (d'.Ended c ↔ d.Ended c) ∧ (d'.Freed c ↔ d.Freed c) := by
  have hends : ¬ extra.any (·.ends c) = true := by simpa using hextra
  have hfrees : ¬ extra.any (·.frees c) = true := by
    intro h
    obtain ⟨e, he, hfrees⟩ := List.any_eq_true.mp h
    exact hends (List.any_eq_true.mpr ⟨e, he, Entry.ends_of_frees hfrees⟩)
  exact ⟨(ended_append hlog c).trans (or_iff_left hends), (freed_append hlog c).trans (or_iff_left hfrees)⟩

end Log

/-- The connection has the same socket, record and log. -/
structure Alike (w w' : World Code User) (c : ℕ) : Prop where
  sock : w'.user.sock c = w.user.sock c
  memory : w'.user.memory c = none ↔ w.user.memory c = none
  linked : w'.user.Linked c ↔ w.user.Linked c
  ended : w'.user.Ended c ↔ w.user.Ended c
  freed : w'.user.Freed c ↔ w.user.Freed c
  brk : c < w'.channels.brk ↔ c < w.channels.brk

theorem Accounted.of_alike {w w' : World Code User} {c : ℕ} (h : Accounted w c) (halike : Alike w w' c) :
    Accounted w' c := by
  obtain ⟨hsock, hmemory, hlinked, hended, hfreed, hbrk⟩ := halike
  constructor
  · rw [hsock, hlinked, hended]
    exact h.linked
  · rw [Data.Served, hsock, hlinked, hended]
    exact h.served
  · rw [ne_eq, hmemory, hfreed]
    exact h.alive
  · rw [hbrk, hmemory, hfreed]
    exact h.freed
  · rw [← Nat.not_lt, hbrk, Nat.not_lt, hmemory, hlinked, hended]
    exact h.fresh

section Steps
variable {a : Setup Code User} {w w' : World Code User} {c : ℕ}

theorem alike_of_log (hsock : w'.user.sock c = w.user.sock c)
    (hmemory : w'.user.memory c = none ↔ w.user.memory c = none)
    (hclients : w'.user.registry.allClients.find c = none ↔ w.user.registry.allClients.find c = none)
    (hbrk : c < w'.channels.brk ↔ c < w.channels.brk) {extra : List (Entry Code)}
    (hlog : w'.user.log = w.user.log ++ extra) (hextra : ∀ e ∈ extra, e.ends c = false) : Alike w w' c :=
  ⟨hsock, hmemory, not_congr hclients, (ended_same hlog hextra).1, (ended_same hlog hextra).2, hbrk⟩

theorem alike_of_memory (hmemory : w'.user.memory c = w.user.memory c)
    (hclients : w'.user.registry.allClients.find c = none ↔ w.user.registry.allClients.find c = none)
    (hbrk : c < w'.channels.brk ↔ c < w.channels.brk) {extra : List (Entry Code)}
    (hlog : w'.user.log = w.user.log ++ extra) (hextra : ∀ e ∈ extra, e.ends c = false) : Alike w w' c := by
  apply alike_of_log (sock_of_memory hmemory) _ hclients hbrk hlog hextra
  rw [hmemory]

theorem alike_core (hcore : SameCore w w') : Alike w w' c := by
  obtain ⟨extra, hlog, hplain⟩ := hcore.log
  apply alike_of_log (hcore.sock c) (hcore.freed c) _ _ hlog
  · exact fun e he => Entry.ends_of_plain (hplain e he) c
  · rw [hcore.registry]
  · rw [hcore.brk]

theorem alike_logged (r : Request) (c' : ℕ) : Alike w (logged c' r w) c :=
  alike_of_memory rfl Iff.rfl Iff.rfl (log_logged c' r w) (by simp [Entry.ends])

theorem alike_calm {c' : ℕ} {r : Request} (hcalm : Calm a c' r w w') : Alike w w' c := by
  obtain ⟨extra, hlog, hplain⟩ := hcalm.log
  apply alike_of_memory (congrFun hcalm.memory c) (hcalm.clients c) _ hlog
  · exact fun e he => Entry.ends_of_plain (hplain e he) c
  · rw [hcalm.brk]

theorem alike_completed {c' : ℕ} (hend : Completed a c' w w') : Alike w w' c := by
  obtain ⟨extra, hlog, hplain⟩ := hend.log
  apply alike_of_memory (congrFun hend.memory c) (hend.clients c) _ hlog
  · intro e he
    rcases List.mem_cons.mp he with rfl | he
    · rfl
    · rcases List.mem_append.mp he with he | he
      · obtain ⟨sent, rfl⟩ := clientCall_of_mem_readyCalls he
        rfl
      · exact Entry.ends_of_plain (hplain e he) c
  · rw [hend.channels]

/-- After a `Die` no connection has a record, and the log tells of those that had one. -/
theorem Accounted.died (h : Accounted w c) (hdied : Died w w') : Accounted w' c := by
  obtain ⟨extra, clients, hlog, hplain, hmem⟩ := hdied.log
  have hsock : w'.user.sock c = w.user.sock c := sock_of_memory (congrFun hdied.memory c)
  let before : Data Code User := { w.user with log := w.user.log ++ extra }
  have hbefore : before.log = w.user.log ++ extra := rfl
  have hsame := ended_same hbefore fun e he => Entry.ends_of_plain (hplain e he) c
  have hended : w'.user.Ended c ↔ w.user.Ended c ∨ w.user.Linked c := by
    refine (ended_append hlog c).trans (or_congr hsame.1 ?_)
    simp [Entry.ends, hmem]
  have hfreed : w'.user.Freed c ↔ w.user.Freed c := by
    refine (freed_append hlog c).trans ((or_iff_left ?_).trans hsame.2)
    simp [Entry.frees]
  constructor
  · exact fun hlinked => absurd hlinked (hdied.unlinked c)
  · rw [hsock, hended, not_or]
    exact fun hsome hnot => absurd (h.served hsome hnot.1).2 hnot.2
  · rw [hdied.memory, hfreed]
    exact h.alive
  · rw [hdied.memory, hdied.brk, hfreed]
    exact h.freed
  · rw [hdied.memory, hdied.brk, hended, not_or]
    exact fun hle => ⟨(h.fresh hle).1, hdied.unlinked c, (h.fresh hle).2.2, (h.fresh hle).2.1⟩

theorem accounted_line {c' : ℕ} {line : Text} (h : ∀ c, Accounted w c)
    (hw : receive a c' w line = some w') (c : ℕ) : Accounted w' c := by
  obtain ⟨-, hhandles⟩ := receive_handles hw
  generalize w.user.request c' line = r at hhandles
  have hlogged := (h c).of_alike (alike_logged r c')
  generalize logged c' r w = v at hhandles hlogged
  cases hhandles with
  | calm _ hcalm => exact hlogged.of_alike (alike_calm hcalm)
  | endRegexp id arg hend => exact hlogged.of_alike (alike_completed hend)
  | die id arg hdied => exact hlogged.died hdied

theorem accounted_connects {addresses : Addresses} (h : ∀ c, Accounted w c)
    (hconn : Connects addresses w w') (c : ℕ) : Accounted w' c := by
  obtain ⟨extra, hlog, hplain⟩ := hconn.log
  have hextra : ∀ e ∈ extra, e.ends c = false := fun e he => Entry.ends_of_plain (hplain e he) c
  by_cases hc : c = w.channels.brk
  · have hmemory : w'.user.memory c = some (.client ⟨addresses, true⟩) := by
      rw [hconn.memory, hc, Function.update_self]
    have hsock : w'.user.sock c = some ⟨addresses, true⟩ := by rw [Data.sock, hmemory]
    have hlinked : w'.user.Linked c := fun hnone => ((hconn.clients c).mp hnone).1 hc
    have hended : ¬ w'.user.Ended c := by
      rw [(ended_same hlog hextra).1]
      exact ((h c).fresh (Nat.le_of_eq hc.symm)).2.2
    refine ⟨fun _ => ⟨by rw [hsock]; rfl, hended⟩, fun _ _ => ⟨by rw [hsock]; rfl, hlinked⟩,
      fun _ hfreed => hended (ended_of_freed hfreed), fun _ hnone => ?_, fun hle => ?_⟩
    · rw [hmemory] at hnone
      exact absurd hnone (by simp)
    · rw [hconn.brk, hc] at hle
      omega
  · have hmemory : w'.user.memory c = w.user.memory c := by rw [hconn.memory, Function.update_of_ne hc]
    apply (h c).of_alike
    apply alike_of_memory hmemory _ _ hlog hextra
    · rw [hconn.clients]
      exact and_iff_right hc
    · rw [hconn.brk]
      omega

theorem accounted_rejects {addresses : Addresses} (h : ∀ c, Accounted w c)
    (hreject : Rejects addresses w w') (c : ℕ) : Accounted w' c := by
  by_cases hc : c = w.channels.brk
  · have hended : w'.user.Ended c := by
      rw [ended_append hreject.log]
      exact .inr (by simp [Entry.ends, hc])
    have hmemory : w'.user.memory c = some (.client ⟨addresses, false⟩) := by
      rw [hreject.memory, hc, Function.update_self]
    have hfresh := (h c).fresh (Nat.le_of_eq hc.symm)
    refine ⟨fun hlinked => ?_, fun _ hnot => absurd hended hnot, fun _ hfreed => ?_, fun _ hnone => ?_,
      fun hle => ?_⟩
    · rw [Data.Linked, hreject.registry] at hlinked
      exact absurd hlinked hfresh.2.1
    · rw [freed_append hreject.log] at hfreed
      exact hfresh.2.2 (ended_of_freed (hfreed.resolve_right (by simp [Entry.frees])))
    · rw [hmemory] at hnone
      exact absurd hnone (by simp)
    · rw [hreject.brk, hc] at hle
      omega
  · have hmemory : w'.user.memory c = w.user.memory c := by rw [hreject.memory, Function.update_of_ne hc]
    apply (h c).of_alike
    apply alike_of_memory hmemory _ _ hreject.log
    · simp [Entry.ends, Ne.symm hc]
    · rw [hreject.registry]
    · rw [hreject.brk]
      omega

theorem accounted_deletes {c' : ℕ} (h : ∀ c, Accounted w c) (hdel : Deletes c' w w') (c : ℕ) :
    Accounted w' c := by
  have hlog := hdel.log
  rw [List.append_assoc] at hlog
  by_cases hc : c = c'
  · subst hc
    have hfreed : w'.user.Freed c := by
      rw [freed_append hlog]
      exact .inr (by simp [Entry.frees])
    have hmemory : w'.user.memory c = none := by rw [hdel.memory, Function.update_self]
    have hunlinked : ¬ w'.user.Linked c := by
      intro hlinked
      refine hlinked ((hdel.clients c).mpr ?_)
      by_cases hnone : w.user.sock c = none
      · right
        by_contra hold
        have hdata := ((h c).linked hold).1
        rw [hnone] at hdata
        simp at hdata
      · exact .inl ⟨rfl, hnone⟩
    refine ⟨fun hlinked => absurd hlinked hunlinked, fun hsome => ?_, fun halive => absurd hmemory halive,
      fun _ _ => hfreed, fun hle => ?_⟩
    · rw [Data.sock, hmemory] at hsome
      exact absurd rfl hsome
    · exact absurd ((h c).fresh (hdel.channels ▸ hle)).1 hdel.alive
  · have hmemory : w'.user.memory c = w.user.memory c := by rw [hdel.memory, Function.update_of_ne hc]
    apply (h c).of_alike
    apply alike_of_memory hmemory _ (by rw [hdel.channels]) hlog
    · cases w.user.sock c' <;> simp [Entry.ends, Ne.symm hc]
    · rw [hdel.clients]
      exact or_iff_right fun h => hc h.1

end Steps

theorem accounted_withstands (a : Setup Code User) :
    Withstands a (fun _ _ _ => True) (fun _ _ => True) fun w => ∀ c, Accounted w c where
  core _ _ h hcore c := (h c).of_alike (alike_core hcore)
  line _ _ _ _ h _ hw := accounted_line h hw
  connects _ _ _ h := accounted_connects h
  rejects _ _ _ h := accounted_rejects h
  deletes _ _ _ h _ := accounted_deletes h

theorem accounted_ivyStart (o : Opened User) (c : ℕ) : Accounted (ivyStart o : World Code User) c := by
  have hended : ¬ (ivyStart o : World Code User).user.Ended c := by simp [Data.Ended, ivyStart]
  have hlinked : ¬ (ivyStart o : World Code User).user.Linked c := fun h => h rfl
  have hmemory : (ivyStart o : World Code User).user.memory c =
      if c = 1 then some (.broadcast 0) else if c = 0 then some .server else none := by
    simp [ivyStart, Function.update_apply]
  have hsock : (ivyStart o : World Code User).user.sock c = none := by
    rw [Data.sock, hmemory]
    split_ifs <;> rfl
  refine ⟨fun h => absurd h hlinked, fun h => absurd hsock h, fun _ h => hended (ended_of_freed h),
    fun hlt hnone => ?_, fun hle => ⟨?_, hlinked, hended⟩⟩
  · have hlt : c < 2 := hlt
    rw [hmemory] at hnone
    split_ifs at hnone
    omega
  · have hle : 2 ≤ c := hle
    rw [hmemory, if_neg (by omega), if_neg (by omega)]

theorem sock_receive {a : Setup Code User} {w w' : World Code User} {c : ℕ} {line : Text}
    (hw : receive a c w line = some w') (c' : ℕ) : w'.user.sock c' = w.user.sock c' := by
  obtain ⟨-, hhandles⟩ := receive_handles hw
  generalize w.user.request c line = r at hhandles
  have hmemory : w'.user.memory = w.user.memory := by
    cases hhandles with
    | calm _ hcalm => exact hcalm.memory
    | endRegexp id arg hend => exact hend.memory
    | die id arg hdied => exact hdied.memory
  exact sock_of_memory (congrFun hmemory c')

section Calls
variable {a : Setup Code User} {w : World Code User}

theorem served_iff {c : ℕ} (h : Accounted w c) (hsock : w.user.sock c ≠ none) :
    w.user.Served c ↔ ¬ w.user.Ended c :=
  ⟨fun hserved => (h.linked hserved.2).2, h.served hsock⟩

theorem alive_iff {c : ℕ} (h : Accounted w c) (hlt : c < w.channels.brk) :
    w.user.memory c ≠ none ↔ ¬ w.user.Freed c :=
  ⟨h.alive, fun hnot hnone => hnot (h.freed hlt hnone)⟩

/-- One read finds records for all its lines exactly if the connection does not end before one. -/
theorem onLines_iff (h : ∀ c, Accounted w c) (env : Env) (ch : Loop.Channel Unit) :
    OnLines a (fun c w _ => w.user.Served c) w (.read env ch) ↔
      OnLines a (fun c w _ => ¬ w.user.Ended c) w (.read env ch) := by
  have hstep (P : World Code User → Text → Prop) (u : World Code User) (line : Text) (u' : World Code User)
      (hu : (∀ c, Accounted u c) ∧ u.user.sock ch.id ≠ none) (_ : P u line)
      (hu' : receive a ch.id u line = some u') : (∀ c, Accounted u' c) ∧ u'.user.sock ch.id ≠ none :=
    ⟨accounted_line hu.1 hu', by rw [sock_receive hu']; exact hu.2⟩
  have hiff (u : World Code User) (hu : (∀ c, Accounted u c) ∧ u.user.sock ch.id ≠ none) :
      u.user.Served ch.id ↔ ¬ u.user.Ended ch.id := served_iff (hu.1 ch.id) hu.2
  constructor
  · intro hlines hsock
    exact (hlines hsock).imp ⟨h, hsock⟩ (hstep _) fun u _ hu => (hiff u hu).mp
  · intro hlines hsock
    exact (hlines hsock).imp ⟨h, hsock⟩ (hstep _) fun u _ hu => (hiff u hu).mpr

theorem callsServed_iff (h : ∀ c, Accounted w c) {hd : Loop.Handler Unit Env} (hlist : hd.InList w) :
    CallsServed a w hd ↔ CallsBefore a w hd := by
  have halive (ch : Loop.Channel Unit) (hch : w.channels.find ch.id = some ch) :
      w.user.memory ch.id ≠ none ↔ ¬ w.user.Freed ch.id :=
    alive_iff (h ch.id) (w.channels.below ch (Keyed.find_mem hch))
  cases hd with
  | delete env ch =>
    exact and_congr (halive ch (hlist ch rfl)) (forall_congr' fun hsock => served_iff (h ch.id) hsock)
  | read env ch => exact and_congr (halive ch (hlist ch rfl)) (onLines_iff h env ch)
  | write env ch =>
    exact and_congr (halive ch (hlist ch rfl))
      (forall_congr' fun _ => forall_congr' fun hsock => served_iff (h ch.id) hsock)
  | hook env => exact Iff.rfl

end Calls

/-- A run passes only records of `allClients` to `Receive`, `ClientDecongestion` and `ClientDelete`
exactly if it serves no connection that was rejected, deleted, or open when a `Die` was handled. -/
theorem client_record_lifetime (a : Setup Code User) (o : Opened User) (events : List (Loop.Event Env)) :
    Machine.Guarded (Loop.step (program a)) (Loop.OnHandler (CallsServed a)) (Loop.started (ivyStart o)) events ↔
      Machine.Guarded (Loop.step (program a)) (Loop.OnHandler (CallsBefore a)) (Loop.started (ivyStart o))
        events := by
  have hkeeps := accounted_withstands a
  have hunlink (w : World Code User) (c fd : ℕ) (h : ∀ c, Accounted w c) :
      ∀ c', Accounted { w with channels := w.channels.unlink c fd } c' := hkeeps.unlink c fd h
  have hcall (G : World Code User → Loop.Handler Unit Env → Prop) (w : World Code User)
      (hd : Loop.Handler Unit Env) (w' : World Code User) (h : ∀ c, Accounted w c) (_ : hd.InList w)
      (_ : G w hd) (hw : (program a).call hd w = some w') : ∀ c, Accounted w' c :=
    hkeeps.handler h hw
  constructor
  · exact Loop.guarded_imp hunlink (hcall _) (fun w hd h hlist => (callsServed_iff h hlist).mp)
      (accounted_ivyStart o)
  · exact Loop.guarded_imp hunlink (hcall _) (fun w hd h hlist => (callsServed_iff h hlist).mpr)
      (accounted_ivyStart o)

/-- A peer connects and sends a `Die` and a `Bye` in one segment. -/
def dieThenBye : List (Loop.Event Env) :=
  turn 2 {3} [nothing, accepts 5 40000] 3 ++
    turn 3 {5} [reads (msgFrame .die 0 [] ++ msgFrame .bye 0 [])] 0

/-- `Receive` gets the record that `IvyCleanup` freed. -/
theorem record_dangles_after_die :
    ¬ Machine.Guarded (Loop.step (program plainAgent)) (Loop.OnHandler (CallsServed plainAgent))
      (Loop.started (ivyStart opened)) dieThenBye := by
  decide +kernel

end Ivy.Agent

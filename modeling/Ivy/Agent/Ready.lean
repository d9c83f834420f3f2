import Ivy.Agent.Sockets
import Ivy.Lib.History

/-! The ready message. `readyToSend` counts `SendService` and each `EndRegexp`, and is two once. -/
namespace Ivy.Agent
open Socket Registry History

variable {Code User : Type*}

def Entry.receives (c : ℕ) : Entry Code → Bool
  | .receive client _ => client = c
  | _ => false

def Entry.rebinds (ivyBindingFilter : Text → Bool) (c : ℕ) (id : ℤ) : Entry Code → Bool
  | .receive client request => client = c && request.rebinds ivyBindingFilter id
  | _ => false

def Entry.calls (c : ℕ) : Entry Code → Bool
  | .clientCall client _ _ => client = c
  | _ => false

/-- The last word of the connection on the id is an `AddRegexp` that passes the filter. -/
def Added (a : Setup Code User) (c : ℕ) (id : ℤ) (regexp : Text) (log : List (Entry Code)) : Prop :=
  a.ivyBindingFilter regexp = true ∧
    Last (fun e => e.rebinds a.ivyBindingFilter c id = true) (.receive c (.control .addRegexp id regexp)) log

/-- `ClientCall` belongs to the first `EndRegexp` of the connection, finds its subscriptions, sends the
message for each of them that matches it, and to nobody else. -/
structure CallAfter (a : Setup Code User) (ready_message : Text) (c : ℕ) (dict : Dictionary Code)
    (sent : List (Subscriber × List (Option Text))) (before : List (Entry Code)) : Prop where
  first : ∃ earlier id arg, before = earlier ++ [.receive c (.control .endRegexp id arg),
    .applicationCallback c (some c) .ivyApplicationConnected] ∧ ∀ e ∈ earlier, e.completes c = false
  entered : ∀ id regexp, Added a c id regexp before → ⟨c, id⟩ ∈ dict.subs regexp
  sends : sent = dict.entries.flatMap (regexpCallUnique a.exec ready_message c)
  reaches : ∀ msg ∈ dict.entries, ∀ clnt ∈ msg.clientList, clnt.client = c → ∀ captures,
    (msg.binding.bind fun code => a.exec code ready_message) = some captures → (clnt, captures) ∈ sent
  only : ∀ p ∈ sent, p.1.client = c

def Allowed (a : Setup Code User) (ready_message : Text) (before : List (Entry Code)) : Entry Code → Prop
  | .clientCall c dict sent => CallAfter a ready_message c dict sent before
  | _ => True

/-- The counter and the log agree. -/
structure Counts (a : Setup Code User) (ready_message : Text) (w : World Code User) : Prop where
  sock : ∀ c, w.user.Linked c → w.user.sock c ≠ none
  fresh : ∀ c, w.channels.brk ≤ c → ¬ w.user.Linked c ∧ w.user.log.any (·.receives c) = false
  ready : ∀ c, w.user.Linked c → (w.user.records c).readyToSend = 1 + w.user.log.countP (·.completes c)
  calls : ∀ c, w.user.log.countP (·.calls c) = if w.user.Handshaken c then 1 else 0
  entered : ∀ c, w.user.Linked c → ∀ id regexp, Added a c id regexp w.user.log →
    ⟨c, id⟩ ∈ w.user.registry.messSndByRegexp.subs regexp
  allowed : Placed (Allowed a ready_message) w.user.log

/-- Fewer lines than that cannot overflow `readyToSend`. -/
def EndsWell (a : Setup Code User) (c : ℕ) (w : World Code User) (line : Text) : Prop :=
  w.user.Served c → w.user.log.countP (·.receives c) < 2 ^ 30 →
    ∀ id arg, w.user.request c line = .control .endRegexp id arg → receive a c w line ≠ none

section Log
variable {a : Setup Code User} {ready_message : Text} {w w' : World Code User} {extra : List (Entry Code)}

theorem Entry.mute_of_plain {e : Entry Code} (he : e.plain = true) (c : ℕ) :
    e.receives c = false ∧ e.calls c = false := by
  cases e <;> simp_all [Entry.plain, Entry.receives, Entry.calls]

theorem Entry.receives_of_completes {e : Entry Code} {c : ℕ} (he : e.completes c = true) :
    e.receives c = true := by
  unfold Entry.completes at he
  split at he <;> simp_all [Entry.receives]

theorem Entry.completes_of_mute {e : Entry Code} {c : ℕ} (he : e.receives c = false) : e.completes c = false := by
  by_contra hcompletes
  rw [Entry.receives_of_completes (by simpa using hcompletes)] at he
  exact absurd he (by simp)

theorem countP_append_of_none {p : Entry Code → Bool} {log : List (Entry Code)} (h : ∀ e ∈ extra, p e = false) :
    (log ++ extra).countP p = log.countP p := by
  have hnone : extra.countP p = 0 := List.countP_eq_zero.mpr fun e he => by simp [h e he]
  rw [List.countP_append, hnone, Nat.add_zero]

theorem any_append_of_none {p : Entry Code → Bool} {log : List (Entry Code)} (h : ∀ e ∈ extra, p e = false) :
    (log ++ extra).any p = log.any p := by
  have hnone : extra.any p = false := List.any_eq_false.mpr fun e he => by simp [h e he]
  rw [List.any_append, hnone, Bool.or_false]

theorem allowed_of_calls {e : Entry Code} (he : ∀ c, e.calls c = false) (before : List (Entry Code)) :
    Allowed a ready_message before e := by
  cases e with
  | clientCall c dict sent =>
    have hself := he c
    simp [Entry.calls] at hself
  | _ => trivial

theorem Counts.grow (h : Counts a ready_message w) (hlog : w'.user.log = w.user.log ++ extra)
    (hextra : ∀ e ∈ extra, ∀ c, e.calls c = false ∧ e.completes c = false)
    (hsock : ∀ c, w'.user.Linked c → w'.user.sock c ≠ none)
    (hfresh : ∀ c, w'.channels.brk ≤ c → ¬ w'.user.Linked c ∧ w'.user.log.any (·.receives c) = false)
    (hready : ∀ c, w'.user.Linked c →
      (w'.user.records c).readyToSend = 1 + w.user.log.countP (·.completes c))
    (hentered : ∀ c, w'.user.Linked c → ∀ id regexp, Added a c id regexp w'.user.log →
      ⟨c, id⟩ ∈ w'.user.registry.messSndByRegexp.subs regexp) : Counts a ready_message w' := by
  have hcalls (c : ℕ) : ∀ e ∈ extra, e.calls c = false := fun e he => (hextra e he c).1
  have hcompletes (c : ℕ) : ∀ e ∈ extra, e.completes c = false := fun e he => (hextra e he c).2
  refine ⟨hsock, hfresh, fun c hc => ?_, fun c => ?_, hentered, ?_⟩
  · rw [hready c hc, hlog, countP_append_of_none (hcompletes c)]
  · have hend : w'.user.Handshaken c ↔ w.user.Handshaken c := by
      rw [Data.Handshaken, hlog, any_append_of_none (hcompletes c), Data.Handshaken]
    rw [hlog, countP_append_of_none (hcalls c), h.calls]
    simp only [hend]
  · rw [hlog]
    exact h.allowed.append fun e he => allowed_of_calls fun c => (hextra e he c).1

theorem Counts.mute (h : Counts a ready_message w) (hlog : w'.user.log = w.user.log ++ extra)
    (hmute : ∀ e ∈ extra, ∀ c, e.receives c = false ∧ e.calls c = false)
    (hbrk : w.channels.brk ≤ w'.channels.brk) (hsock : ∀ c, w'.user.Linked c → w'.user.sock c ≠ none)
    (hold : ∀ c, w'.user.Linked c →
      (w.user.Linked c ∧ w'.user.records c = w.user.records c ∧
        ∀ id regexp, ⟨c, id⟩ ∈ w.user.registry.messSndByRegexp.subs regexp →
          ⟨c, id⟩ ∈ w'.user.registry.messSndByRegexp.subs regexp) ∨
        (c = w.channels.brk ∧ c < w'.channels.brk ∧ (w'.user.records c).readyToSend = 1)) :
    Counts a ready_message w' := by
  have hlines (c : ℕ) : w'.user.log.any (·.receives c) = w.user.log.any (·.receives c) := by
    rw [hlog, any_append_of_none fun e he => (hmute e he c).1]
  apply h.grow hlog _ hsock
  · intro c hle
    refine ⟨fun hlinked => ?_, ?_⟩
    · rcases hold c hlinked with ⟨hlinked, -⟩ | ⟨-, hlt, -⟩
      · exact (h.fresh c (Nat.le_trans hbrk hle)).1 hlinked
      · exact absurd hlt (Nat.not_lt_of_le hle)
    · rw [hlines]
      exact (h.fresh c (Nat.le_trans hbrk hle)).2
  · intro c hlinked
    rcases hold c hlinked with ⟨hlinked, hrecord, -⟩ | ⟨rfl, -, hone⟩
    · rw [hrecord, h.ready c hlinked]
    · have hnone := (h.fresh _ (Nat.le_refl _)).2
      have hzero : w.user.log.countP (·.completes w.channels.brk) = 0 := by
        apply List.countP_eq_zero.mpr
        intro e he hcompletes
        exact List.any_eq_false.mp hnone e he (Entry.receives_of_completes hcompletes)
      rw [hone, hzero]
      rfl
  · rintro c hlinked id regexp ⟨hpasses, hlast⟩
    rw [hlog] at hlast
    have hlast := hlast.of_append fun hmem => by simpa [Entry.receives] using (hmute _ hmem c).1
    rcases hold c hlinked with ⟨hlinked, -, hkeeps⟩ | ⟨rfl, -, -⟩
    · exact hkeeps id regexp (h.entered c hlinked id regexp ⟨hpasses, hlast⟩)
    · have hnone := (h.fresh _ (Nat.le_refl _)).2
      exact absurd (by simp [Entry.receives]) (List.any_eq_false.mp hnone _ hlast.mem)
  · exact fun e he c => ⟨(hmute e he c).2, Entry.completes_of_mute (hmute e he c).1⟩

end Log

section Steps
variable {a : Setup Code User} {ready_message : Text} {w w' : World Code User} {c : ℕ}

theorem counts_core (h : Counts a ready_message w) (hcore : SameCore w w') : Counts a ready_message w' := by
  obtain ⟨extra, hlog, hplain⟩ := hcore.log
  have hlinked (c : ℕ) (hlinked : w'.user.Linked c) : w.user.Linked c := by
    rwa [Data.Linked, hcore.registry] at hlinked
  apply h.mute hlog _ (Nat.le_of_eq hcore.brk.symm)
  · intro c hc
    rw [hcore.sock]
    exact h.sock c (hlinked c hc)
  · intro c hc
    left
    rw [hcore.records, hcore.registry]
    exact ⟨hlinked c hc, rfl, fun _ _ hmem => hmem⟩
  · exact fun e he c => Entry.mute_of_plain (hplain e he) c

theorem counts_connects {addresses : Addresses} (h : Counts a ready_message w) (hconn : Connects addresses w w') :
    Counts a ready_message w' := by
  obtain ⟨extra, hlog, hplain⟩ := hconn.log
  have hlinked (c : ℕ) (hlinked : w'.user.Linked c) (hc : c ≠ w.channels.brk) : w.user.Linked c :=
    fun hnone => hlinked ((hconn.clients c).mpr ⟨hc, hnone⟩)
  apply h.mute hlog _ (by rw [hconn.brk]; omega)
  · intro c hc
    by_cases hnew : c = w.channels.brk
    · simp [Data.sock, hconn.memory, hnew]
    · rw [sock_of_update hconn.memory hnew]
      exact h.sock c (hlinked c hc hnew)
  · intro c hc
    by_cases hnew : c = w.channels.brk
    · right
      rw [hconn.brk, hconn.records, hnew, Function.update_self]
      exact ⟨rfl, Nat.lt_succ_self _, rfl⟩
    · left
      rw [hconn.records, Function.update_of_ne hnew, hconn.dictionary]
      exact ⟨hlinked c hc hnew, rfl, fun _ _ hmem => hmem⟩
  · exact fun e he c => Entry.mute_of_plain (hplain e he) c

theorem counts_rejects {addresses : Addresses} (h : Counts a ready_message w) (hreject : Rejects addresses w w') :
    Counts a ready_message w' := by
  have hlinked (c : ℕ) (hlinked : w'.user.Linked c) : w.user.Linked c := by
    rwa [Data.Linked, hreject.registry] at hlinked
  apply h.mute hreject.log _ (by rw [hreject.brk]; omega)
  · intro c hc
    by_cases hnew : c = w.channels.brk
    · simp [Data.sock, hreject.memory, hnew]
    · rw [sock_of_update hreject.memory hnew]
      exact h.sock c (hlinked c hc)
  · intro c hc
    left
    rw [hreject.records, hreject.registry]
    exact ⟨hlinked c hc, rfl, fun _ _ hmem => hmem⟩
  · intro e he c
    rw [List.mem_singleton.mp he]
    exact ⟨rfl, rfl⟩

theorem counts_deletes (h : Counts a ready_message w) (hdel : Deletes c w w') : Counts a ready_message w' := by
  have hlog := hdel.log
  rw [List.append_assoc] at hlog
  have hlinked (c' : ℕ) (hlinked : w'.user.Linked c') : w.user.Linked c' ∧ c' ≠ c := by
    have hold : w.user.Linked c' := fun hnone => hlinked ((hdel.clients c').mpr (.inr hnone))
    refine ⟨hold, ?_⟩
    rintro rfl
    exact hlinked ((hdel.clients c').mpr (.inl ⟨rfl, h.sock c' hold⟩))
  apply h.mute hlog _ (Nat.le_of_eq (by rw [hdel.channels]))
  · intro c' hc'
    obtain ⟨hold, hne⟩ := hlinked c' hc'
    rw [sock_of_update hdel.memory hne]
    exact h.sock c' hold
  · intro c' hc'
    obtain ⟨hold, hne⟩ := hlinked c' hc'
    left
    rw [hdel.records]
    exact ⟨hold, rfl, fun id regexp => hdel.keeps c' id regexp hne⟩
  · intro e he c'
    rcases List.mem_append.mp he with he | he
    · cases hsock : w.user.sock c with
      | none => simp [hsock] at he
      | some sock =>
        rw [hsock] at he
        rw [List.mem_singleton.mp he]
        exact ⟨rfl, rfl⟩
    · rw [List.mem_singleton.mp he]
      exact ⟨rfl, rfl⟩

theorem fresh_line {r : Request} {extra : List (Entry Code)} (h : Counts a ready_message w) (hc : w.user.Linked c)
    (hbrk : w'.channels.brk = w.channels.brk) (hclients : ∀ c', w'.user.Linked c' → w.user.Linked c')
    (hlog : w'.user.log = w.user.log ++ .receive c r :: extra)
    (hextra : ∀ e ∈ extra, ∀ c', e.receives c' = false) :
    ∀ c', w'.channels.brk ≤ c' → ¬ w'.user.Linked c' ∧ w'.user.log.any (·.receives c') = false := by
  intro c' hle
  rw [hbrk] at hle
  obtain ⟨hunlinked, hnone⟩ := h.fresh c' hle
  refine ⟨mt (hclients c') hunlinked, ?_⟩
  have hne : c ≠ c' := fun heq => hunlinked (heq ▸ hc)
  have hall : ∀ e ∈ Entry.receive c r :: extra, e.receives c' = false := by
    intro e he
    rcases List.mem_cons.mp he with rfl | he
    · simp [Entry.receives, hne]
    · exact hextra e he c'
  rw [hlog, any_append_of_none hall]
  exact hnone

theorem added_line {r : Request} {extra log : List (Entry Code)} {c' : ℕ} {id : ℤ} {regexp : Text}
    (hextra : ∀ e ∈ extra, ∀ c', e.receives c' = false)
    (hadded : Added a c' id regexp (log ++ .receive c r :: extra)) :
    (c' = c ∧ r = .control .addRegexp id regexp ∧ a.ivyBindingFilter regexp = true) ∨
      (Added a c' id regexp log ∧ ¬ (c' = c ∧ r.rebinds a.ivyBindingFilter id = true)) := by
  obtain ⟨hpasses, hlast⟩ := hadded
  rw [List.append_cons] at hlast
  have hlast := hlast.of_append fun hmem => by simpa [Entry.receives] using hextra _ hmem c'
  rcases last_concat.mp hlast with heq | ⟨hold, hnot⟩
  · obtain ⟨rfl, rfl⟩ := Entry.receive.inj heq
    exact .inl ⟨rfl, rfl, hpasses⟩
  · refine .inr ⟨⟨hpasses, hold⟩, ?_⟩
    rintro ⟨rfl, hrebinds⟩
    exact hnot (by simp [Entry.rebinds, hrebinds])

theorem counts_calm {r : Request} (h : Counts a ready_message w) (hserved : w.user.Served c)
    (hcalm : Calm a c r (logged c r w) w') (hnot : ∀ id arg, r ≠ .control .endRegexp id arg) :
    Counts a ready_message w' := by
  obtain ⟨extra, hlog, hplain⟩ := hcalm.log
  have hlog : w'.user.log = w.user.log ++ .receive c r :: extra := by
    rw [hlog, List.append_cons]
    rfl
  have hmute : ∀ e ∈ extra, ∀ c', e.receives c' = false := fun e he c' =>
    (Entry.mute_of_plain (hplain e he) c').1
  have hlinked (c' : ℕ) (hlinked : w'.user.Linked c') : w.user.Linked c' :=
    fun hnone => hlinked ((hcalm.clients c').mpr hnone)
  apply h.grow hlog
  · intro e he c'
    rcases List.mem_cons.mp he with rfl | he
    · refine ⟨rfl, ?_⟩
      unfold Entry.completes
      split <;> simp_all
    · have hsilent := Entry.mute_of_plain (hplain e he) c'
      exact ⟨hsilent.2, Entry.completes_of_mute hsilent.1⟩
  · intro c' hc'
    rw [sock_of_memory (congrFun hcalm.memory c')]
    exact h.sock c' (hlinked c' hc')
  · exact fresh_line h hserved.2 hcalm.brk hlinked hlog hmute
  · intro c' hc'
    rw [hcalm.ready]
    exact h.ready c' (hlinked c' hc')
  · intro c' hc' id regexp hadded
    rw [hlog] at hadded
    rcases added_line hmute hadded with ⟨rfl, hr, hpasses⟩ | ⟨hold, hleaves⟩
    · exact hcalm.adds id regexp hr hpasses
    · exact hcalm.keeps c' id regexp (h.entered c' (hlinked c' hc') id regexp hold) hleaves

theorem counts_died {r : Request} (h : Counts a ready_message w) (hserved : w.user.Served c)
    (hdied : Died (logged c r w) w') (hnot : ∀ id arg, r ≠ .control .endRegexp id arg) :
    Counts a ready_message w' := by
  obtain ⟨extra, clients, hlog, hplain, -⟩ := hdied.log
  have hlog : w'.user.log = w.user.log ++ .receive c r :: (extra ++ [.ivyCleanup clients]) := by
    simp [hlog, logged, Data.record]
  have hmute : ∀ e ∈ extra ++ [.ivyCleanup clients], ∀ c', e.receives c' = false ∧ e.calls c' = false := by
    intro e he c'
    rcases List.mem_append.mp he with he | he
    · exact Entry.mute_of_plain (hplain e he) c'
    · rw [List.mem_singleton.mp he]
      exact ⟨rfl, rfl⟩
  have hlinked (c' : ℕ) (hlinked : w'.user.Linked c') : w.user.Linked c' := absurd hlinked (hdied.unlinked c')
  apply h.grow hlog
  · intro e he c'
    rcases List.mem_cons.mp he with rfl | he
    · refine ⟨rfl, ?_⟩
      unfold Entry.completes
      split <;> simp_all
    · exact ⟨(hmute e he c').2, Entry.completes_of_mute (hmute e he c').1⟩
  · exact fun c' hc' => absurd hc' (hdied.unlinked c')
  · exact fresh_line h hserved.2 hdied.brk hlinked hlog fun e he c' => (hmute e he c').1
  · exact fun c' hc' => absurd hc' (hdied.unlinked c')
  · exact fun c' hc' => absurd hc' (hdied.unlinked c')

/-- The first `EndRegexp` takes `readyToSend` from one to two. -/
theorem handshaken_iff (h : Counts a ready_message w) (hc : w.user.Linked c) :
    (w.user.records c).readyToSend + 1 = 2 ↔ ¬ w.user.Handshaken c := by
  have hzero : w.user.log.countP (·.completes c) = 0 ↔ ¬ w.user.Handshaken c := by
    rw [List.countP_eq_zero, Data.Handshaken, List.any_eq_true]
    simp
  rw [h.ready c hc, ← hzero]
  omega

theorem client_of_sent {dict : Dictionary Code} {p : Subscriber × List (Option Text)}
    (hp : p ∈ dict.entries.flatMap (regexpCallUnique a.exec ready_message c)) : p.1.client = c := by
  obtain ⟨msg, -, hp⟩ := List.mem_flatMap.mp hp
  unfold regexpCallUnique at hp
  split at hp
  · simp at hp
  · obtain ⟨clnt, hclnt, rfl⟩ := List.mem_map.mp hp
    simpa using List.of_mem_filter hclnt

/-- `RegexpCallUnique` sends for each subscription of the connection to a regexp that matches. -/
theorem mem_regexpCallUnique {exec : Exec Code} {msg : MsgSndDict Code} {clnt : Subscriber}
    {captures : List (Option Text)} (hclnt : clnt ∈ msg.clientList) (hc : clnt.client = c)
    (hmatch : (msg.binding.bind fun code => exec code ready_message) = some captures) :
    (clnt, captures) ∈ regexpCallUnique exec ready_message c msg := by
  unfold regexpCallUnique
  rw [hmatch]
  exact List.mem_map_of_mem (List.mem_filter.mpr ⟨hclnt, by simpa using hc⟩)

/-- The call of `ClientCall` that an `EndRegexp` leads to. -/
def readyCall (a : Setup Code User) (ready_message : Text) (c : ℕ) (d : Data Code User) : List (Entry Code) :=
  if d.Handshaken c then []
  else [.clientCall c d.registry.messSndByRegexp
    (d.registry.messSndByRegexp.entries.flatMap (regexpCallUnique a.exec ready_message c))]

theorem log_endRegexp {id : ℤ} {arg : Text} (hready : a.ready_message = some ready_message)
    (h : Counts a ready_message w) (hc : w.user.Linked c)
    (hend : Completed a c (logged c (.control .endRegexp id arg) w) w') :
    ∃ extra, w'.user.log = w.user.log ++ .receive c (.control .endRegexp id arg) ::
      .applicationCallback c (some c) .ivyApplicationConnected ::
        (readyCall a ready_message c w.user ++ extra) ∧ ∀ e ∈ extra, e.plain = true := by
  have hcalls : readyCalls a c ((w.user.records c).readyToSend + 1) w.user.registry.messSndByRegexp =
      readyCall a ready_message c w.user := by
    simp only [readyCalls, hready, handshaken_iff h hc]
    rw [ite_not]
    rfl
  obtain ⟨extra, hlog, hplain⟩ := hend.log
  refine ⟨extra, ?_, hplain⟩
  have hlog : w'.user.log = w.user.log ++ [.receive c (.control .endRegexp id arg)] ++
      .applicationCallback c (some c) .ivyApplicationConnected ::
        (readyCalls a c ((w.user.records c).readyToSend + 1) w.user.registry.messSndByRegexp ++ extra) := hlog
  rw [hlog, hcalls, List.append_assoc]
  rfl

theorem mute_readyCall {d : Data Code User} {extra : List (Entry Code)} (hextra : ∀ e ∈ extra, e.plain = true) :
    ∀ e ∈ Entry.applicationCallback c (some c) .ivyApplicationConnected ::
      (readyCall a ready_message c d ++ extra), ∀ c', e.receives c' = false := by
  intro e he c'
  rcases List.mem_cons.mp he with rfl | he
  · rfl
  · rcases List.mem_append.mp he with he | he
    · unfold readyCall at he
      split_ifs at he
      · simp at he
      · rw [List.mem_singleton.mp he]
        rfl
    · exact (Entry.mute_of_plain (hextra e he) c').1

theorem countP_readyCall (a : Setup Code User) (ready_message : Text) (d : Data Code User) (c' : ℕ) :
    (readyCall a ready_message c d).countP (·.calls c') = if c = c' ∧ ¬ d.Handshaken c then 1 else 0 := by
  unfold readyCall
  split_ifs with hdone hboth hboth
  · exact absurd hdone hboth.2
  · rfl
  · simp [Entry.calls, hboth.1]
  · have hc : c ≠ c' := fun hc => hboth ⟨hc, hdone⟩
    simp [Entry.calls, hc]

theorem entered_endRegexp {id : ℤ} {arg : Text} {extra : List (Entry Code)} (h : Counts a ready_message w)
    (hextra : ∀ e ∈ extra, ∀ c', e.receives c' = false) {c' : ℕ} (hc' : w.user.Linked c') {id' : ℤ}
    {regexp : Text}
    (hadded : Added a c' id' regexp (w.user.log ++ .receive c (.control .endRegexp id arg) :: extra)) :
    ⟨c', id'⟩ ∈ w.user.registry.messSndByRegexp.subs regexp := by
  rcases added_line hextra hadded with ⟨-, hr, -⟩ | ⟨hold, -⟩
  · simp at hr
  · exact h.entered c' hc' id' regexp hold

/-- The first `EndRegexp` calls `ClientCall`, when all that came before it is in the registry. -/
theorem allowed_endRegexp (id : ℤ) (arg : Text) (h : Counts a ready_message w) (hc : w.user.Linked c)
    {extra : List (Entry Code)} (hextra : ∀ e ∈ extra, e.plain = true) :
    Placed (Allowed a ready_message) (w.user.log ++ .receive c (.control .endRegexp id arg) ::
      .applicationCallback c (some c) .ivyApplicationConnected ::
        (readyCall a ready_message c w.user ++ extra)) := by
  rw [List.append_cons, List.append_cons, ← List.append_assoc]
  refine Placed.append ?_ fun e he => allowed_of_calls fun c' => (Entry.mute_of_plain (hextra e he) c').2
  have hbefore : Placed (Allowed a ready_message) (w.user.log ++ [.receive c (.control .endRegexp id arg)] ++
      [.applicationCallback c (some c) .ivyApplicationConnected]) :=
    placed_concat.mpr ⟨placed_concat.mpr ⟨h.allowed, trivial⟩, trivial⟩
  unfold readyCall
  split_ifs with hdone
  · rwa [List.append_nil]
  · refine placed_concat.mpr ⟨hbefore, ?_⟩
    constructor
    · refine ⟨w.user.log, id, arg, by simp, fun e he => ?_⟩
      rw [Data.Handshaken, Bool.not_eq_true, List.any_eq_false] at hdone
      simpa using hdone e he
    · intro id' regexp hadded
      rw [List.append_assoc] at hadded
      have hmute : ∀ e ∈ [Entry.applicationCallback c (some c) .ivyApplicationConnected], ∀ c',
          (e : Entry Code).receives c' = false := by simp [Entry.receives]
      exact entered_endRegexp h hmute hc hadded
    · rfl
    · intro msg hmsg clnt hclnt hself captures hmatch
      exact List.mem_flatMap.mpr ⟨msg, hmsg, mem_regexpCallUnique hclnt hself hmatch⟩
    · exact fun p hp => client_of_sent hp

theorem completes_readyCall {d : Data Code User} {extra : List (Entry Code)}
    (hextra : ∀ e ∈ extra, e.plain = true) (c' : ℕ) :
    ∀ e ∈ Entry.applicationCallback c (some c) .ivyApplicationConnected ::
      (readyCall a ready_message c d ++ extra), e.completes c' = false :=
  fun e he => Entry.completes_of_mute (mute_readyCall hextra e he c')

/-- `ClientCall` runs for the first `EndRegexp` of a connection and for no later one. -/
theorem calls_endRegexp {id : ℤ} {arg : Text} {extra : List (Entry Code)} (h : Counts a ready_message w)
    (hextra : ∀ e ∈ extra, e.plain = true)
    (hlog : w'.user.log = w.user.log ++ .receive c (.control .endRegexp id arg) ::
      .applicationCallback c (some c) .ivyApplicationConnected ::
        (readyCall a ready_message c w.user ++ extra)) (c' : ℕ) :
    w'.user.log.countP (·.calls c') = if w'.user.Handshaken c' then 1 else 0 := by
  have hself : w'.user.Handshaken c' ↔ w.user.Handshaken c' ∨ c = c' := by
    rw [Data.Handshaken, hlog, List.append_cons, any_append_of_none (completes_readyCall hextra c'), List.any_append,
      Bool.or_eq_true]
    simp [Data.Handshaken]
  have hcount : w'.user.log.countP (·.calls c') = (if w.user.Handshaken c' then 1 else 0) +
      if c = c' ∧ ¬ w.user.Handshaken c then 1 else 0 := by
    have hnone : extra.countP (·.calls c') = 0 :=
      List.countP_eq_zero.mpr fun e he => by simp [(Entry.mute_of_plain (hextra e he) c').2]
    rw [hlog, List.countP_append, h.calls, ← countP_readyCall a ready_message,
      List.countP_cons_of_neg (by simp [Entry.calls]), List.countP_cons_of_neg (by simp [Entry.calls]),
      List.countP_append, hnone, Nat.add_zero]
  rw [hcount]
  simp only [hself]
  by_cases hc : c = c'
  · subst hc
    by_cases hdone : w.user.Handshaken c <;> simp [hdone]
  · simp [hc]

theorem counts_endRegexp {id : ℤ} {arg : Text} (hready : a.ready_message = some ready_message)
    (h : Counts a ready_message w) (hserved : w.user.Served c)
    (hend : Completed a c (logged c (.control .endRegexp id arg) w) w') : Counts a ready_message w' := by
  obtain ⟨extra, hlog, hplain⟩ := log_endRegexp hready h hserved.2 hend
  have hlinked (c' : ℕ) (hlinked : w'.user.Linked c') : w.user.Linked c' :=
    fun hnone => hlinked ((hend.clients c').mpr hnone)
  have hdict : w'.user.registry.messSndByRegexp = w.user.registry.messSndByRegexp := hend.dictionary
  have hrecords : w'.user.records = Function.update w.user.records c
    { w.user.records c with readyToSend := (w.user.records c).readyToSend + 1 } := hend.records
  constructor
  case sock =>
    intro c' hc'
    rw [sock_of_memory (congrFun hend.memory c')]
    exact h.sock c' (hlinked c' hc')
  case fresh =>
    have hbrk : w'.channels.brk = w.channels.brk := congrArg _ hend.channels
    exact fresh_line h hserved.2 hbrk hlinked hlog (mute_readyCall hplain)
  case ready =>
    intro c' hc'
    rw [hlog, List.append_cons, countP_append_of_none (completes_readyCall hplain c'), List.countP_append, hrecords,
      Function.update_apply]
    split_ifs with hself
    · rw [hself, h.ready c hserved.2]
      simp [Int.add_assoc]
    · rw [h.ready c' (hlinked c' hc')]
      simp [Ne.symm hself]
  case calls => exact calls_endRegexp h hplain hlog
  case entered =>
    intro c' hc' id' regexp hadded
    rw [hdict]
    rw [hlog] at hadded
    exact entered_endRegexp h (mute_readyCall hplain) (hlinked c' hc') hadded
  case allowed =>
    rw [hlog]
    exact allowed_endRegexp id arg h hserved.2 hplain

theorem counts_line {line : Text} (hready : a.ready_message = some ready_message) (h : Counts a ready_message w)
    (hw : receive a c w line = some w') : Counts a ready_message w' := by
  obtain ⟨hserved, hhandles⟩ := receive_handles hw
  generalize w.user.request c line = r at hhandles
  cases hhandles with
  | calm _ hcalm hnot => exact counts_calm h hserved hcalm hnot
  | endRegexp id arg hend => exact counts_endRegexp hready h hserved hend
  | die id arg hdied => exact counts_died h hserved hdied (by simp)

end Steps

theorem counts_withstands {a : Setup Code User} {ready_message : Text}
    (hready : a.ready_message = some ready_message) :
    Withstands a (fun _ _ _ => True) (fun _ _ => True) (Counts a ready_message) where
  core _ _ h hcore := counts_core h hcore
  line _ _ _ _ h _ hw := counts_line hready h hw
  connects _ _ _ h hconn := counts_connects h hconn
  rejects _ _ _ h hreject := counts_rejects h hreject
  deletes _ _ _ h _ hdel := counts_deletes h hdel

theorem counts_ivyStart (a : Setup Code User) (ready_message : Text) (o : Opened User) :
    Counts a ready_message (ivyStart o) := by
  have hunlinked (c : ℕ) : ¬ (ivyStart o : World Code User).user.Linked c := fun h => h rfl
  constructor
  · exact fun c hc => absurd hc (hunlinked c)
  · exact fun c _ => ⟨hunlinked c, rfl⟩
  · exact fun c hc => absurd hc (hunlinked c)
  · intro c
    simp [Data.Handshaken, ivyStart]
  · exact fun c hc => absurd hc (hunlinked c)
  · exact placed_nil

section Defined
variable {a : Setup Code User} {c : ℕ}

theorem countReady_defined {d : Data Code User} (hfits : (d.records c).readyToSend + 1 < 2 ^ 31) :
    countReady a c d ≠ none := by
  unfold countReady
  dsimp only
  rw [if_pos hfits]
  cases a.ready_message <;> simp

theorem receiveEndRegexp_defined {id : ℤ} {arg : Text} {d : Data Code User} (hc : d.Linked c)
    (hfits : (d.records c).readyToSend + 1 < 2 ^ 31) : receiveEndRegexp a c id arg d ≠ none := by
  obtain ⟨t, ht, -⟩ := receiveLine_end a.compile hc id arg
  have hreg : receiveLine a.compile
      (d.callback a (.applicationCallback c (some c) .ivyApplicationConnected)).registry c (.endRegexp id arg) =
        some (regenerateRegPtrArrayCache t) := ht
  unfold receiveEndRegexp
  dsimp only
  rw [hreg, Option.bind_some]
  exact countReady_defined hfits

theorem endsWell {ready_message : Text} {w : World Code User} (h : Counts a ready_message w) (line : Text) :
    EndsWell a c w line := by
  intro hserved hfew id arg hrequest
  have hle : w.user.log.countP (·.completes c) ≤ w.user.log.countP (·.receives c) :=
    List.countP_mono_left fun e _ he => Entry.receives_of_completes he
  have hready := h.ready c hserved.2
  have hdefined : receiveEndRegexp a c id arg (setClientId c id (logged c (.control .endRegexp id arg) w)).user ≠
      none := by
    apply receiveEndRegexp_defined
    · exact fun hnone => hserved.2 ((sameClients_setId id c).mp hnone)
    · change (w.user.records c).readyToSend + 1 < 2 ^ 31
      omega
  have hreceive : receive a c w line = (receiveEndRegexp a c id arg
      (setClientId c id (logged c (.control .endRegexp id arg) w)).user).map
        fun d => { logged c (.control .endRegexp id arg) w with user := d } := by
    rw [receive, if_pos hserved, hrequest]
    rfl
  rw [hreceive]
  simpa using hdefined

end Defined

/-- In every run `ClientCall` is called once for each connection that sent an `EndRegexp`, on the first
one, after all that the connection announced before is in the registry; and an `EndRegexp` is always
handled. -/
theorem ready_message_once (a : Setup Code User) (ready_message : Text)
    (hready : a.ready_message = some ready_message) (o : Opened User) (events : List (Loop.Event Env)) :
    Machine.Guarded (Loop.step (program a)) (Loop.OnHandler (OnLines a (EndsWell a)))
        (Loop.started (ivyStart o)) events ∧
      ∀ s, run a o events = some s →
        (∀ c, s.world.user.log.countP (·.calls c) = if s.world.user.Handshaken c then 1 else 0) ∧
          Placed (Allowed a ready_message) s.world.user.log := by
  have hwithstands := counts_withstands hready
  have hstart := counts_ivyStart a ready_message o
  refine ⟨hwithstands.onLines (fun c w line h => endsWell h line) hstart, fun s hrun => ?_⟩
  have h := hwithstands.always hstart hrun
  exact ⟨h.calls, h.allowed⟩

/-- A peer subscribes and completes its handshake twice. -/
def endsTwice : List (Loop.Event Env) :=
  turn 2 {3} [nothing, accepts 5 40000] 3 ++ turn 3 {5} [reads (msgFrame .addRegexp 7 (ascii "A (.*)") ++
    msgFrame .endRegexp 0 [] ++ msgFrame .endRegexp 0 []), nothing, nothing] 3

theorem ready_message_once_example :
    ∃ s, run plainAgent opened endsTwice = some s ∧ s.world.user.Handshaken 2 ∧
      s.world.user.log.countP (·.calls 2) = 1 ∧
      Placed (Allowed plainAgent (ascii "A ready")) s.world.user.log := by
  have hends : (run plainAgent opened endsTwice).any (fun s => s.world.user.Handshaken 2) = true := by
    decide +kernel
  obtain ⟨s, hs, hsome⟩ := (Option.any_eq_true _ _).mp hends
  have hdone : s.world.user.Handshaken 2 := of_decide_eq_true hsome
  obtain ⟨-, hstates⟩ := ready_message_once plainAgent (ascii "A ready") rfl opened endsTwice
  obtain ⟨hcalls, hplaced⟩ := hstates s hs
  exact ⟨s, hs, hdone, (hcalls 2).trans (if_pos hdone), hplaced⟩

end Ivy.Agent

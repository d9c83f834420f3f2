import Ivy.Agent.Connecting
import Ivy.Toolkit.Lines

/-! Which runs over a main loop that deletes at once read no freed memory. -/
namespace Ivy.Toolkit
open Socket hiding socketClose handleSocket
open Registry Ivy.Agent

variable {Code User : Type*}

def hangsUp : Received → Bool
  | .error => true
  | .bytes data => data.isEmpty

/-- The handler is not for a socket that was deleted, a deletion finds a list that it may walk, and no line
closes a connection. -/
def Harmless (a : Setup Code User) (w : Watched Code User) : Event → Prop
  | .read c env => ¬ w.user.Freed c ∧ (hangsUp env.received = true → Walks w.user c) ∧
      (w.user.sock c ≠ none → Machine.Guarded ((toolkit a).goOn c ((toolkit a).receive a c)) (Stays a c) w
        (completed c env.received w.user))
  | .delete c => ¬ w.user.Freed c ∧ Walks w.user c
  | .write c env => ¬ w.user.Freed c ∧ (env.written = .failed → Walks w.user c)
  | .hook _ => True

instance (a : Setup Code User) (w : Watched Code User) : ∀ e, Decidable (Harmless a w e)
  | .read _ _ => inferInstanceAs (Decidable (_ ∧ (_ → _) ∧ (_ → _)))
  | .delete _ => inferInstanceAs (Decidable (_ ∧ _))
  | .write _ _ => inferInstanceAs (Decidable (_ ∧ (_ → _)))
  | .hook _ => .isTrue trivial

section Handlers
variable {a : Setup Code User} {c : ℕ} {w w' : Watched Code User}

theorem remove_iff (h : Sound w c) :
    (toolkit a).ivyChannelRemove c w ≠ none ↔ w.user.memory c ≠ none ∧ Walks w.user c := by
  rw [← deleteSocket_defined (a := a) h.sock]
  exact not_congr Option.map_eq_none_iff

theorem completed_nil {received : Received} (hhangs : hangsUp received = true) (d : Data Code User) :
    completed c received d = [] := by
  cases received with
  | error => rfl
  | bytes data =>
    obtain rfl : data = [] := by simpa [hangsUp] using hhangs
    rfl

theorem handleSocket_hangsUp {interpretation : Watched Code User → Text → Option (Watched Code User)}
    {received : Received} (hhangs : hangsUp received = true) :
    (toolkit a).handleSocket c interpretation received w = (toolkit a).ivyChannelRemove c w := by
  cases received with
  | error => rfl
  | bytes data =>
    obtain rfl : data = [] := by simpa [hangsUp] using hhangs
    rfl

theorem handleSocket_run (interpretation : Watched Code User → Text → Option (Watched Code User))
    {received : Received} (hhangs : hangsUp received = false) :
    ∃ held, (toolkit a).handleSocket c interpretation received w =
      (Machine.run ((toolkit a).goOn c interpretation) w (completed c received w.user)).map
        ((toolkit a).modify fun d => { d with held := Function.update d.held c held }) := by
  cases received with
  | error => simp [hangsUp] at hhangs
  | bytes data =>
    have hdata : data ≠ [] := by simpa [hangsUp] using hhangs
    refine ⟨(cut newline (w.user.held c ++ data)).2, (if_neg hdata).trans ?_⟩
    rw [completed, if_neg hdata]
    rfl

/-- A read of a socket whose lines need `P`. -/
theorem handleSocket_iff {interpretation : Watched Code User → Text → Option (Watched Code User)}
    {P : List Text → Prop} (h : Sound w c) (halive : w.user.memory c ≠ none)
    (hlines : ∀ lines, Machine.run ((toolkit a).goOn c interpretation) w lines ≠ none ↔ P lines)
    (received : Received) : (toolkit a).handleSocket c interpretation received w ≠ none ↔
      (hangsUp received = true → Walks w.user c) ∧ P (completed c received w.user) := by
  cases hhangs : hangsUp received with
  | true =>
    have hnil : P [] := (hlines []).mp (Option.some_ne_none _)
    rw [handleSocket_hangsUp hhangs, remove_iff h, completed_nil hhangs]
    simp [halive, hnil]
  | false =>
    obtain ⟨held, heq⟩ := handleSocket_run (a := a) (w := w) interpretation hhangs
    rw [heq, ← hlines]
    simp

theorem handleSocket_sound {interpretation : Watched Code User → Text → Option (Watched Code User)}
    (h : ∀ c, Sound w c) {received : Received}
    (hlines : ∀ lines v, Machine.run ((toolkit a).goOn c interpretation) w lines = some v → ∀ c, Sound v c)
    (hw : (toolkit a).handleSocket c interpretation received w = some w') : ∀ c, Sound w' c := by
  cases hhangs : hangsUp received with
  | true =>
    rw [handleSocket_hangsUp hhangs] at hw
    exact sound_remove h hw
  | false =>
    obtain ⟨held, heq⟩ := handleSocket_run (a := a) (w := w) interpretation hhangs
    obtain ⟨v, hv, rfl⟩ := Option.map_eq_some_iff.mp (heq.symm.trans hw)
    exact sound_core (hlines _ v hv) (sameCore_held _) rfl

theorem serve_sound (h : ∀ c, Sound w c) (fd : ℕ) (addresses : Addresses) :
    ∃ w', (toolkit a).serve a w.brk ((toolkit a).newClient fd addresses w).2 = some w' ∧ (∀ c, Sound w' c) ∧
      ∀ c, w.user.memory c ≠ none → w'.user.memory c = w.user.memory c := by
  have hfresh := (h w.brk).accounted.fresh (Nat.le_refl _)
  have hnone : w.alone.user.registry.allClients.find w.alone.channels.brk = none := by
    by_contra hlinked
    exact hfresh.2.1 hlinked
  obtain ⟨v, hv⟩ := Process.serve_defined a fd addresses hnone
  have hconn := serve_connects hv
  obtain ⟨d, hd, rfl⟩ := Option.map_eq_some_iff.mp hv
  refine ⟨_, congrArg (Option.map _) hd, sound_connects h hconn rfl rfl rfl, fun c hc => ?_⟩
  have hne : c ≠ w.brk := by
    rintro rfl
    exact hc hfresh.1
  refine (congrFun hconn.memory c).trans (Function.update_of_ne hne _ _)

theorem handleServer_sound (h : ∀ c, Sound w c) (accepted : Option Agent.Connection) :
    ∃ w', (toolkit a).handleServer a accepted w = some w' ∧ ∀ c, Sound w' c := by
  cases accepted with
  | none => exact ⟨w, rfl, h⟩
  | some conn =>
    let addresses := acceptedFrom a.order conn.localEnd conn.remoteEnd
    let v := ((toolkit a).newClient conn.fd addresses w).2
    have hnew : (Agent.newClient conn.fd addresses w.alone).user.sock w.alone.channels.brk =
        some ⟨addresses, false⟩ := sock_newClient
    have hsock : ((toolkit a).user v).sock w.brk = some ⟨addresses, false⟩ := hnew
    have hcreate : (toolkit a).handleServer a (some conn) w = (toolkit a).clientCreate a w.brk v := rfl
    rw [hcreate]
    unfold MainLoop.clientCreate
    rw [hsock, Option.bind_some]
    cases ((toolkit a).user v).checkConnected w.brk addresses with
    | none =>
      obtain ⟨w', hw, hsound, -⟩ := serve_sound (a := a) h conn.fd addresses
      exact ⟨w', hw, hsound⟩
    | some other =>
      let u := (toolkit a).modify (·.record (.rejected w.brk)) v
      have hmemory : u.user.memory w.brk ≠ none := by
        intro hnone
        have hnone : ((toolkit a).user v).memory w.brk = none := hnone
        simp [Data.sock, hnone] at hsock
      have hwalks : Walks u.user w.brk := walks_of_unlinked ((h w.brk).accounted.fresh (Nat.le_refl _)).2.1
      have hsome : u.user.Linked w.brk → u.user.sock w.brk ≠ none := by
        intro _
        have hu : u.user.sock w.brk = some ⟨addresses, false⟩ := hsock
        simp [hu]
      have hremove : (toolkit a).ivyChannelRemove w.brk u ≠ none := fun hnone =>
        (deleteSocket_defined (a := a) hsome).mpr ⟨hmemory, hwalks⟩ (Option.map_eq_none_iff.mp hnone)
      obtain ⟨w', hw⟩ := Option.ne_none_iff_exists'.mp hremove
      exact ⟨w', hw, sound_rejects h hw⟩

theorem broadcastReceive_sound {sender : ℕ} (h : ∀ c, Sound w c)
    (hc : w.user.memory c = some (.broadcast sender)) (line : Text) :
    ∃ w', (toolkit a).broadcastReceive a c w line = some w' ∧ (∀ c, Sound w' c) ∧
      w'.user.memory c = some (.broadcast sender) := by
  have hc : ((toolkit a).user w).memory c = some (.broadcast sender) := hc
  unfold MainLoop.broadcastReceive
  rw [hc]
  dsimp only
  split_ifs
  · exact ⟨w, rfl, h, hc⟩
  · let v := (toolkit a).modify (fun d => { d with connects := d.connects.tail }) w
    have hv : ∀ c, Sound v c := sound_core h (sameCore_connects _) rfl
    cases ((toolkit a).user w).connects.head with
    | none => exact ⟨v, rfl, hv, hc⟩
    | some connected =>
      obtain ⟨w', hw, hsound, hmemory⟩ := serve_sound (a := a) hv connected.1 (connectedTo connected.2 _)
      have halive : v.user.memory c ≠ none := fun hnone => Option.some_ne_none _ (hc.symm.trans hnone)
      exact ⟨w', hw, hsound, (hmemory c halive).trans hc⟩

theorem datagrams_sound {sender : ℕ} (h : ∀ c, Sound w c) (hc : w.user.memory c = some (.broadcast sender))
    (lines : List Text) :
    ∃ w', Machine.run ((toolkit a).goOn c ((toolkit a).broadcastReceive a c)) w lines = some w' ∧
      ∀ c, Sound w' c := by
  let I (v : Watched Code User) : Prop := (∀ c, Sound v c) ∧ v.user.memory c = some (.broadcast sender)
  have hstep : ∀ v line, I v → True →
      ∃ v', (toolkit a).goOn c ((toolkit a).broadcastReceive a c) v line = some v' ∧ I v' := by
    intro v line hv _
    obtain ⟨v', hv', hsound, hmemory⟩ := broadcastReceive_sound (a := a) hv.1 hv.2 line
    have halive : ¬ ((toolkit a).user v').memory c = none :=
      fun hnone => Option.some_ne_none _ (hmemory.symm.trans hnone)
    refine ⟨v', ?_, hsound, hmemory⟩
    rw [MainLoop.goOn, hv', Option.bind_some, if_neg halive]
  obtain ⟨w', hw', hI⟩ := Machine.run_invariant (I := I) ⟨h, hc⟩ hstep
    (Machine.guarded_of_forall fun _ line (_ : line ∈ lines) => trivial)
  exact ⟨w', hw', hI.1⟩

theorem sound_sender {sender : ℕ} (h : ∀ c, Sound w c) (hc : w.user.memory c = some (.broadcast sender))
    (sender' : ℕ) : (∀ c', Sound ((toolkit a).modify (·.setMemory c (some (.broadcast sender'))) w) c') ∧
      ((toolkit a).modify (·.setMemory c (some (.broadcast sender'))) w).user.memory c =
        some (.broadcast sender') := by
  refine ⟨sound_core h (sameCore_sender hc sender') rfl, ?_⟩
  exact Function.update_self ..

theorem handleRead_iff {env : Env} (h : ∀ c, Sound w c) (hlt : c < w.brk) :
    (toolkit a).handleRead a c env w ≠ none ↔ Harmless a w (.read c env) := by
  rw [Harmless, ← (h c).alive hlt]
  unfold MainLoop.handleRead
  cases hmemory : w.user.memory c with
  | none => simp [toolkit, hmemory]
  | some owner =>
    have hc : ((toolkit a).user w).memory c = some owner := hmemory
    rw [hc]
    have halive : w.user.memory c ≠ none := by simp [hmemory]
    cases owner with
    | server =>
      have hsock : w.user.sock c = none := by rw [Data.sock, hmemory]
      obtain ⟨w', hw, -⟩ := handleServer_sound (a := a) h env.accepted
      simp [hw, hsock, (h c).walks hsock]
    | broadcast sender =>
      have hsock : w.user.sock c = none := by rw [Data.sock, hmemory]
      obtain ⟨hsender, hmemory'⟩ := sound_sender (a := a) h hmemory env.sender
      have hlines (lines : List Text) : Machine.run ((toolkit a).goOn c ((toolkit a).broadcastReceive a c))
          ((toolkit a).modify (·.setMemory c (some (.broadcast env.sender))) w) lines ≠ none ↔ True := by
        obtain ⟨w', hw, -⟩ := datagrams_sound (a := a) hsender hmemory' lines
        simp [hw]
      refine (handleSocket_iff (P := fun _ => True) (hsender c) (by simp [hmemory']) hlines
        env.received).trans ?_
      have hwalks : Walks w.user c := (h c).walks hsock
      exact ⟨fun _ => ⟨Option.some_ne_none _, fun _ => hwalks, fun hsome => absurd hsock hsome⟩,
        fun _ => ⟨fun _ => hwalks, trivial⟩⟩
    | client sock =>
      have hsock : w.user.sock c ≠ none := by simp [Data.sock, hmemory]
      refine (handleSocket_iff (h c) halive (lines_iff h hsock) env.received).trans ?_
      simp [hsock]

theorem handleRead_sound {env : Env} (h : ∀ c, Sound w c) (hw : (toolkit a).handleRead a c env w = some w') :
    ∀ c, Sound w' c := by
  unfold MainLoop.handleRead at hw
  cases hmemory : w.user.memory c with
  | none => simp [toolkit, hmemory] at hw
  | some owner =>
    have hc : ((toolkit a).user w).memory c = some owner := hmemory
    rw [hc] at hw
    cases owner with
    | server =>
      obtain ⟨v, hv, hsound⟩ := handleServer_sound (a := a) h env.accepted
      obtain rfl := Option.some.inj (hv.symm.trans hw)
      exact hsound
    | broadcast sender =>
      obtain ⟨hsender, hmemory'⟩ := sound_sender (a := a) h hmemory env.sender
      refine handleSocket_sound hsender (fun lines v hv => ?_) hw
      obtain ⟨v', hv', hsound⟩ := datagrams_sound (a := a) hsender hmemory' lines
      obtain rfl := Option.some.inj (hv'.symm.trans hv)
      exact hsound
    | client sock =>
      have hsock : w.user.sock c ≠ none := by simp [Data.sock, hmemory]
      exact handleSocket_sound h (fun lines v => lines_sound h hsock) hw

theorem handleWrite_iff {env : Env} (h : ∀ c, Sound w c) (hfires : (w.sources c).write = true)
    (hlt : c < w.brk) :
    (toolkit a).handleWrite a c env w ≠ none ↔ Harmless a w (.write c env) := by
  rw [Harmless, ← (h c).alive hlt]
  by_cases halive : w.user.memory c = none
  · have hsock : ((toolkit a).user w).sock c = none := by
      have hmemory : ((toolkit a).user w).memory c = none := halive
      rw [Data.sock, hmemory]
    simp [MainLoop.handleWrite, hsock, halive]
  · obtain ⟨sock, hsock⟩ := Option.ne_none_iff_exists'.mp ((h c).congested hfires halive)
    have hsock : ((toolkit a).user w).sock c = some sock := hsock
    rw [MainLoop.handleWrite, hsock, Option.bind_some]
    unfold MainLoop.handleCongestionWrite
    cases env.written with
    | failed => simpa using remove_iff (h c)
    | pending | drained => simpa using halive

theorem handleWrite_sound {env : Env} (h : ∀ c, Sound w c) (hlt : c < w.brk)
    (hw : (toolkit a).handleWrite a c env w = some w') : ∀ c, Sound w' c := by
  obtain ⟨sock, hsock, hw⟩ := Option.bind_eq_some_iff.mp hw
  unfold MainLoop.handleCongestionWrite at hw
  cases hwritten : env.written with
  | failed =>
    rw [hwritten] at hw
    exact sound_remove h hw
  | pending =>
    rw [hwritten] at hw
    obtain rfl := Option.some.inj hw
    exact h
  | drained =>
    rw [hwritten] at hw
    obtain rfl := Option.some.inj hw
    intro c'
    apply (h c').of_alike (alike_core (sameCore_callback (w := w.alone) rfl))
    · intro hle
      have hne : c' ≠ c := by omega
      exact Function.update_of_ne hne _ _
    · intro hwrite
      by_cases hc : c' = c
      · simp [toolkit, MainLoop.modify, hc] at hwrite
      · left
        simpa [toolkit, MainLoop.modify, hc] using hwrite

theorem delete_sound {d : Data Code User} (h : ∀ c, Sound w c) (hd : deleteSocket a c w.user = some d) :
    ∀ c, Sound { w with user := d } c := by
  exact sound_deletes h (deletes_of_deleteSocket hd (channelless w.brk)) (fun _ => rfl) fun _ hnone => hnone

/-- Only a client of the list is congested. -/
theorem congest_sound (h : ∀ c, Sound w c) (c : ℕ) : ∀ c', Sound (congest w c) c' := by
  intro c'
  unfold congest
  split_ifs with hlinked
  · have hsock := (h c).sock hlinked
    have hlt : c < w.brk := by
      by_contra hle
      exact ((h c).accounted.fresh (Nat.le_of_not_lt hle)).2.1 hlinked
    refine (h c').of_alike (alike_core (sameCore_channels (w := w.alone) (channelless w.brk) rfl)) ?_ ?_
    · intro hle
      have hne : c' ≠ c := by omega
      exact Function.update_of_ne hne _ _
    · intro hwrite
      by_cases hc : c' = c
      · exact .inr (hc ▸ hsock)
      · left
        simpa [hc] using hwrite
  · exact h c'

theorem hook_sound (h : ∀ c, Sound w c) (congested : List ℕ) : ∀ c, Sound (hook a congested w) c := by
  have hcongested : ∀ c, Sound (congested.foldl congest w) c := by
    induction congested generalizing w with
    | nil => exact h
    | cons c congested ih => exact ih (congest_sound h c)
  exact sound_core hcongested (sameCore_callback rfl) rfl

end Handlers

section Runs
variable {a : Setup Code User} {w w' : Watched Code User}

theorem step_iff (h : ∀ c, Sound w c) (e : Event) : step a w e ≠ none ↔ Fires w e ∧ Harmless a w e := by
  by_cases hfires : Fires w e
  · have hstep : step a w e = handle a w e := if_pos hfires
    rw [hstep, and_iff_right hfires]
    cases e with
    | read c env => exact handleRead_iff h ((h c).lt_brk (e := Sources.read) rfl hfires)
    | delete c =>
      have hlt := (h c).lt_brk (e := Sources.delete) rfl hfires
      rw [Harmless, ← (h c).alive hlt, ← deleteSocket_defined (a := a) (h c).sock]
      exact not_congr Option.map_eq_none_iff
    | write c env => exact handleWrite_iff h hfires ((h c).lt_brk (e := Sources.write) rfl hfires)
    | hook env => exact ⟨fun _ => trivial, fun _ => Option.some_ne_none _⟩
  · have hstep : step a w e = none := if_neg hfires
    simp [hstep, hfires]

theorem step_sound (h : ∀ c, Sound w c) {e : Event} (hw : step a w e = some w') : ∀ c, Sound w' c := by
  unfold step at hw
  split_ifs at hw with hfires
  cases e with
  | read c env => exact handleRead_sound h hw
  | delete c =>
    obtain ⟨d, hd, rfl⟩ := Option.map_eq_some_iff.mp hw
    exact delete_sound h hd
  | write c env => exact handleWrite_sound h ((h c).lt_brk (e := Sources.write) rfl hfires) hw
  | hook env =>
    obtain rfl := Option.some.inj hw
    exact hook_sound h env.congested

theorem sound_started (o : Opened User) (c : ℕ) : Sound (started o : Watched Code User) c := by
  refine ⟨accounted_alone (accounted_ivyStart o c) rfl rfl, fun hended => ?_, fun hle => ?_, fun hwrite => ?_⟩
  · simp [Data.Ended, started, ivyStart] at hended
  · exact if_neg (Nat.not_lt_of_le hle)
  · simp only [started] at hwrite
    split_ifs at hwrite

end Runs

/-- A run over a main loop that deletes at once touches no freed memory exactly if no handler is called for a
socket that was deleted and no line closes a connection. -/
theorem immediate_deletion_safe (a : Setup Code User) (o : Opened User) (events : List Event) :
    Machine.run (step a) (started o) events ≠ none ↔
      Machine.Guarded (step a) (fun w e => Fires w e ∧ Harmless a w e) (started o) events :=
  Machine.run_ne_none_iff (I := fun w => ∀ c, Sound w c) (fun _ _ _ h hw => step_sound h hw)
    (fun _ e h => step_iff h e) (sound_started o) events

/-- A peer connects and says goodbye: the loop of `HandleSocket` reads the client that the `Bye` freed. -/
example : Machine.run (step plainAgent) (started opened)
    [.read 0 (accepts 5 40000), .read 2 (reads (msgFrame .bye 0 []))] = none := by decide +kernel

/-- A peer connects, completes its handshake and hangs up. -/
example : Machine.run (step plainAgent) (started opened) [.read 0 (accepts 5 40000),
    .read 2 (reads (msgFrame .startRegexp 5002 (ascii "B") ++ msgFrame .endRegexp 0 [])),
    .read 2 (reads [])] ≠ none := by decide +kernel

end Ivy.Toolkit

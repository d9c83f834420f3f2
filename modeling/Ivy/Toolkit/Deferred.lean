import Ivy.Agent.Sockets
import Ivy.Toolkit.Interface

/-! `ivyloop.c` as a main loop that defers deletions: the handlers over it are those of the agent. -/
namespace Ivy.Toolkit
open Socket hiding socketClose handleSocket
open Registry Ivy.Agent

variable {Code User : Type*}

def ivyloop : MainLoop Code User (World Code User) where
  user w := w.user
  withUser w d := { w with user := d }
  ivyChannelAdd fd w := (w.channels.brk, { w with channels := w.channels.ivyChannelAdd fd () true })
  ivyChannelRemove c w := some (socketClose c w)
  ivyChannelClearWritableEvent c w := { w with channels := w.channels.ivyChannelClearWritableEvent c }
  ivyChannelStop w := { w with channels := w.channels.ivyChannelStop }

variable {a : Setup Code User} {c : ℕ} {w : World Code User}

@[simp] theorem user_ivyloop : ivyloop.user w = w.user := rfl

@[simp] theorem withUser_ivyloop (d : Data Code User) : ivyloop.withUser w d = { w with user := d } := rfl

@[simp] theorem remove_ivyloop : ivyloop.ivyChannelRemove c w = some (socketClose c w) := rfl

/-- What `CheckConnected` finds is in `allClients`. -/
theorem linked_of_checkConnected {d : Data Code User} {addresses : Addresses} {other : ℕ}
    (h : d.checkConnected c addresses = some other) : d.Linked other := by
  unfold Data.checkConnected at h
  dsimp only at h
  split_ifs at h
  obtain ⟨clnt, hfind, rfl⟩ := Option.map_eq_some_iff.mp h
  exact mem_clients_iff.mp (List.mem_map_of_mem (List.mem_of_find?_eq_some hfind))

theorem linked_of_target {d : Data Code User} (hc : d.Linked c) {order : ByteOrder} {target : ℕ}
    (h : d.target order c = some target) : d.Linked target := by
  obtain ⟨clnt, -, h⟩ := Option.bind_eq_some_iff.mp h
  obtain ⟨other, hother, h⟩ := Option.bind_eq_some_iff.mp h
  obtain ⟨sock, -, rfl⟩ := Option.map_eq_some_iff.mp h
  split_ifs
  · exact linked_of_checkConnected hother
  · exact hc

theorem receiveStartRegexp_ivyloop (hc : w.user.Linked c) (id : ℤ) (arg : Text) :
    ivyloop.receiveStartRegexp a c id arg w = Agent.receiveStartRegexp a c id arg w := by
  unfold MainLoop.receiveStartRegexp Agent.receiveStartRegexp
  rw [Option.map_eq_bind]
  apply Option.bind_congr
  intro registry hregistry
  have hlinked : registry.allClients.find c ≠ none :=
    fun hnone => hc (((lineDone_startRegexp hc hregistry).clients c).mp hnone)
  simp only [Function.comp_apply, user_ivyloop, withUser_ivyloop, remove_ivyloop, Option.bind_some]
  generalize hd : Data.setRecord _ c _ = d
  have hdLinked : d.Linked c := by
    rw [← hd]
    exact hlinked
  cases htarget : d.target a.order c with
  | none => rfl
  | some target => exact if_pos ((linked_msgSendTo a d target .error 0 _ target).mpr (linked_of_target hdLinked htarget))

theorem run_sayBye_ivyloop (clients : List ℕ) (hlinked : ∀ c ∈ clients, w.user.Linked c) :
    Machine.run (ivyloop.sayBye a) w clients = some (clients.foldl (Agent.sayBye a) w) := by
  induction clients generalizing w with
  | nil => rfl
  | cons c clients ih =>
    obtain ⟨hc, hrest⟩ := List.forall_mem_cons.mp hlinked
    have hkept (c' : ℕ) := linked_msgSendTo a w.user c .bye 0 [] c'
    have hstep : ivyloop.sayBye a w c = some (Agent.sayBye a w c) := if_pos ((hkept c).mpr hc)
    rw [Machine.run, hstep, Option.bind_some, List.foldl_cons]
    exact ih fun c' hc' => (hkept c').mpr (hrest c' hc')

theorem ivyCleanup_ivyloop : ivyloop.ivyCleanup a w = Agent.ivyCleanup a w := by
  unfold MainLoop.ivyCleanup Agent.ivyCleanup
  have hclients : ∀ c ∈ w.user.registry.allClients.list.map (·.client), w.user.Linked c :=
    fun c hc => mem_clients_iff.mp hc
  simp only [user_ivyloop, withUser_ivyloop, remove_ivyloop, run_sayBye_ivyloop _ hclients, Option.bind_some]
  rfl

theorem receiveRequest_ivyloop (hc : w.user.Linked c) (r : Request) :
    ivyloop.receiveRequest a c w r = Agent.receiveRequest a c w r := by
  cases r with
  | control kind id arg =>
    cases kind with
    | startRegexp =>
      refine receiveStartRegexp_ivyloop (w := Agent.setClientId c id w) ?_ id arg
      exact fun hnone => hc ((sameClients_setId id c).mp hnone)
    | die => exact congrArg (Option.map _) ivyCleanup_ivyloop
    | _ => rfl
  | _ => rfl

theorem receive_ivyloop (line : Text) : ivyloop.receive a c w line = Agent.receive a c w line := by
  by_cases hserved : w.user.Served c
  · refine (if_pos hserved).trans (Eq.trans ?_ (if_pos hserved).symm)
    exact receiveRequest_ivyloop (w := { w with user := w.user.record (.receive c (w.user.request c line)) })
      hserved.2 _
  · exact (if_neg hserved).trans (if_neg hserved).symm

/-- A line frees no socket. -/
theorem memory_receive {w' : World Code User} {line : Text} (hw : Agent.receive a c w line = some w') :
    w'.user.memory = w.user.memory := by
  obtain ⟨-, hhandles⟩ := receive_handles hw
  generalize w.user.request c line = r at hhandles
  cases hhandles with
  | calm _ hcalm => exact hcalm.memory
  | endRegexp id arg hend => exact hend.memory
  | die id arg hdied => exact hdied.memory

/-- Nothing is freed between two lines, so the client can be read again. -/
theorem run_goOn_ivyloop {interpretation : World Code User → Text → Option (World Code User)}
    (hkeeps : ∀ w line w', w.user.memory c ≠ none → interpretation w line = some w' → w'.user.memory c ≠ none)
    (hc : w.user.memory c ≠ none) (lines : List Text) :
    Machine.run (ivyloop.goOn c interpretation) w lines = Machine.run interpretation w lines := by
  induction lines generalizing w with
  | nil => rfl
  | cons line lines ih =>
    unfold Machine.run
    cases hstep : interpretation w line with
    | none => rw [MainLoop.goOn, hstep, Option.bind_none, Option.bind_none, Option.bind_none]
    | some w' =>
      have hw' := hkeeps w line w' hc hstep
      have hgo : ivyloop.goOn c interpretation w line = some w' := by
        rw [MainLoop.goOn, hstep]
        exact if_neg hw'
      rw [hgo, Option.bind_some, Option.bind_some]
      exact ih hw'

theorem handleSocket_ivyloop
    {interpretation interpretation' : World Code User → Text → Option (World Code User)}
    (heq : ∀ w line, interpretation w line = interpretation' w line)
    (hkeeps : ∀ w line w', w.user.memory c ≠ none → interpretation' w line = some w' →
      w'.user.memory c ≠ none)
    (hc : w.user.memory c ≠ none) (received : Received) :
    ivyloop.handleSocket c interpretation received w = Agent.handleSocket c interpretation' received w := by
  obtain rfl : interpretation = interpretation' := funext fun w => funext (heq w)
  unfold MainLoop.handleSocket Agent.handleSocket
  cases received with
  | error => rfl
  | bytes data =>
    dsimp only
    split_ifs
    · rfl
    · exact congrArg (Option.map _) (run_goOn_ivyloop hkeeps hc _)

theorem broadcastReceive_ivyloop (line : Text) :
    ivyloop.broadcastReceive a c w line = Agent.broadcastReceive a c w line := by
  unfold MainLoop.broadcastReceive Agent.broadcastReceive
  simp only [user_ivyloop]
  cases w.user.memory c with
  | none => rfl
  | some owner =>
    cases owner with
    | broadcast sender =>
      dsimp only
      split_ifs
      · rfl
      · cases w.user.connects.head <;> rfl
    | server | client => rfl

theorem memory_broadcastReceive {w' : World Code User} {line : Text} (hc : w.user.memory c ≠ none)
    (hw : Agent.broadcastReceive a c w line = some w') : w'.user.memory c ≠ none := by
  obtain ⟨v, hv, hw'⟩ := broadcastReceive_cases hw
  have hmemory : v.user.memory c ≠ none := by
    rcases hv with rfl | ⟨connects, rfl⟩ <;> exact hc
  rcases hw' with rfl | ⟨addresses, hconnects⟩
  · exact hmemory
  · rw [hconnects.memory, Function.update_apply]
    split_ifs
    · exact Option.some_ne_none _
    · exact hmemory

theorem handleRead_ivyloop (env : Env) : ivyloop.handleRead a c env w = Agent.handleRead a c env w := by
  unfold MainLoop.handleRead Agent.handleRead
  simp only [user_ivyloop]
  cases hmemory : w.user.memory c with
  | none => rfl
  | some owner =>
    cases owner with
    | server => cases env.accepted <;> rfl
    | broadcast sender =>
      refine handleSocket_ivyloop (fun _ => broadcastReceive_ivyloop)
        (fun _ _ _ => memory_broadcastReceive) ?_ _
      simp [MainLoop.modify, Data.setMemory]
    | client sock =>
      refine handleSocket_ivyloop (fun _ => receive_ivyloop) (fun _ _ _ hc hw => memory_receive hw ▸ hc) ?_ _
      simp [hmemory]

theorem handleWrite_ivyloop (env : Env) : ivyloop.handleWrite a c env w = Agent.handleWrite a c env w := by
  unfold MainLoop.handleWrite Agent.handleWrite
  rw [Option.map_eq_bind]
  apply Option.bind_congr
  intro sock _
  unfold MainLoop.handleCongestionWrite Agent.handleCongestionWrite
  cases env.written <;> rfl

end Ivy.Toolkit

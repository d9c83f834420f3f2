import Ivy.Agent.Ready
import Ivy.Toolkit.Deferred
import Ivy.Toolkit.Sound

/-! `Receive` over a main loop that deletes at once. -/
namespace Ivy.Toolkit
open Socket hiding socketClose handleSocket
open Registry Ivy.Agent

variable {Code User : Type*} {a : Setup Code User} {c : ℕ}

section Data
variable {d : Data Code User}

theorem receiveLine_startRegexp (compile : Compile Code) (hlinked : d.Linked c) (id : ℤ) (arg : Text) :
    ∃ registry, receiveLine compile d.registry c (.startRegexp id arg) = some registry ∧
      ({ d with registry := registry } : Data Code User).clients = d.clients := by
  obtain ⟨registry, hregistry, hclients⟩ := clients_startRegexp compile id arg hlinked
  exact ⟨registry, hregistry, hclients⟩

theorem receiveLine_defined (compile : Compile Code) {s : Registry.State Code}
    (hc : s.allClients.find c ≠ none) (line : Registry.Line) : receiveLine compile s c line ≠ none := by
  cases line with
  | addRegexp id regexp =>
    cases hlists : s.messSndByRegexp.lists regexp c id with
    | true =>
      obtain ⟨t, ht, -⟩ := receiveLine_change compile hc hlists
      simp [ht]
    | false =>
      obtain ⟨t, ht, -⟩ := receiveLine_add compile hc hlists
      simp [ht]
  | delRegexp id arg =>
    obtain ⟨t, ht, -⟩ := receiveLine_del compile hc id arg
    simp [ht]
  | startRegexp id arg =>
    obtain ⟨t, ht, -⟩ := receiveLine_start compile hc id arg
    simp [ht]
  | endRegexp id arg =>
    obtain ⟨t, ht, -⟩ := receiveLine_end compile hc id arg
    simp [ht]

theorem registryLine_defined (hc : d.Linked c) (line : Registry.Line) : registryLine a c line d ≠ none := by
  unfold registryLine
  simpa using receiveLine_defined a.compile hc line

theorem receiveEndRegexp_defined_iff (hc : d.Linked c) (id : ℤ) (arg : Text) :
    receiveEndRegexp a c id arg d ≠ none ↔ (d.records c).readyToSend + 1 < 2 ^ 31 := by
  refine ⟨fun hdefined => ?_, receiveEndRegexp_defined hc⟩
  by_contra hoverflow
  apply hdefined
  unfold receiveEndRegexp
  dsimp only
  refine Option.bind_eq_none_iff.mpr fun registry _ => ?_
  exact if_neg hoverflow

end Data

section Open
variable {w : Watched Code User}

theorem receiveStartRegexp_open (hlinked : w.user.Linked c) (id : ℤ) (arg : Text)
    (hopen : w.user.target a.order c = none) :
    ∃ d : Data Code User, (toolkit a).receiveStartRegexp a c id arg w = some { w with user := d } ∧
      Agent.receiveStartRegexp a c id arg w.alone = some (Watched.alone { w with user := d }) := by
  obtain ⟨registry, hregistry, hclients⟩ := receiveLine_startRegexp a.compile hlinked id arg
  let d : Data Code User := { w.user with registry := registry }
  let d' := d.setRecord c { d.records c with app_port := UInt16.ofInt id }
  have htarget : d'.target a.order c = none := by
    rw [target_setRecord, target_congr (d := w.user) hclients rfl rfl, hopen]
  refine ⟨d', ?_, ?_⟩
  · unfold MainLoop.receiveStartRegexp
    refine (congrArg (Option.bind · _) hregistry).trans ?_
    dsimp only [Option.bind_some]
    split
    · rfl
    · rename_i target hsome
      exact absurd (htarget.symm.trans hsome) (by simp)
  · unfold Agent.receiveStartRegexp
    refine (congrArg (Option.map _) hregistry).trans (congrArg some ?_)
    dsimp only
    split
    · rfl
    · rename_i target hsome
      exact absurd (htarget.symm.trans hsome) (by simp)

theorem receiveRequest_open (hlinked : w.user.Linked c) {r : Request}
    (hopen : removes (w.user.target a.order c) r = false) :
    ∃ d : Option (Data Code User), (toolkit a).receiveRequest a c w r = d.map ((toolkit a).withUser w) ∧
      Agent.receiveRequest a c w.alone r = d.map (fun d => Watched.alone { w with user := d }) ∧
      (d ≠ none ↔ CanCount c w.user r) := by
  have hset (id : ℤ) : ((toolkit a).setClientId c id w).user.Linked c :=
    fun hnone => hlinked ((sameClients_setId id c).mp hnone)
  cases r with
  | ignored => exact ⟨some w.user, rfl, rfl, by simp [CanCount]⟩
  | badFormat => simp [removes] at hopen
  | call id callback user_data argv => exact ⟨some _, rfl, rfl, by simp [CanCount]⟩
  | unhandled id | noCallback id | tooManyArgs id | notFound id =>
    exact ⟨some _, rfl, rfl, by simp [CanCount]⟩
  | control kind id arg =>
    cases kind with
    | bye | die => simp [removes] at hopen
    | startRegexp =>
      have htarget : ((toolkit a).setClientId c id w).user.target a.order c = none := by
        have hclients : ((toolkit a).setClientId c id w).user.clients = w.user.clients := clients_modify _ c _
        rw [target_congr hclients rfl rfl]
        simpa [removes] using hopen
      obtain ⟨d, hd, hd'⟩ := receiveStartRegexp_open (hset id) id arg htarget
      exact ⟨some d, hd, hd', by simp [CanCount]⟩
    | endRegexp =>
      exact ⟨receiveEndRegexp a c id arg ((toolkit a).setClientId c id w).user, rfl, rfl,
        receiveEndRegexp_defined_iff (hset id) id arg⟩
    | addRegexp =>
      refine ⟨receiveAddRegexp a c id arg ((toolkit a).setClientId c id w).user, rfl, rfl, ?_⟩
      unfold receiveAddRegexp
      split_ifs
      · simpa [CanCount] using registryLine_defined (hset id) _
      · simp [CanCount]
    | delRegexp =>
      refine ⟨registryLine a c (.delRegexp id arg) ((toolkit a).setClientId c id w).user, rfl, rfl, ?_⟩
      simpa [CanCount] using registryLine_defined (hset id) _
    | directMsg => exact ⟨some _, rfl, rfl, by simp [CanCount]⟩
    | ping => exact ⟨some _, rfl, rfl, by simp [CanCount]⟩
    | error | msg | pong => exact ⟨some _, rfl, rfl, by simp [CanCount]⟩

theorem receive_open {line : Text} (hserved : w.user.Served c) (hopen : ¬ Closes a c w.user line) :
    ∃ d : Option (Data Code User), (toolkit a).receive a c w line = d.map ((toolkit a).withUser w) ∧
      Agent.receive a c w.alone line = d.map (fun d => Watched.alone { w with user := d }) ∧
      (d ≠ none ↔ CanCount c w.user (w.user.request c line)) := by
  let v := (toolkit a).modify (·.record (.receive c (w.user.request c line))) w
  have hlinked : v.user.Linked c := hserved.2
  have htarget : v.user.target a.order c = w.user.target a.order c := target_congr rfl rfl rfl a.order
  have hnot : removes (v.user.target a.order c) (w.user.request c line) = false := by
    rw [htarget]
    simpa [Closes] using hopen
  obtain ⟨d, hd, hd', hdefined⟩ := receiveRequest_open hlinked hnot
  exact ⟨d, (if_pos hserved).trans hd, (if_pos hserved).trans hd', hdefined⟩

end Open

section Closing
variable {w w' : Watched Code User}

theorem remove_gone (hw : (toolkit a).ivyChannelRemove c w = some w') :
    w'.user.memory c = none ∧ (w.user.sock c ≠ none → ¬ w'.user.Linked c) := by
  obtain ⟨d, hd, rfl⟩ := Option.map_eq_some_iff.mp hw
  have hdel := deletes_of_deleteSocket hd (channelless w.brk)
  refine ⟨(congrFun hdel.memory c).trans (Function.update_self ..), fun hsock hlinked => ?_⟩
  exact hlinked ((hdel.clients c).mpr (.inl ⟨rfl, hsock⟩))

/-- The client that was closed is in the list no more when the loop reads it. -/
theorem sayBye_none (hsock : w.user.sock c ≠ none) : (toolkit a).sayBye a w c = none := by
  refine Option.bind_eq_none_iff.mpr fun w' hw' => if_neg ((remove_gone hw').2 ?_)
  exact (sock_msgSendTo a w.user c .bye 0 [] c).trans_ne hsock

theorem ivyCleanup_none (hsock : ∀ c, w.user.Linked c → w.user.sock c ≠ none) (hlinked : w.user.Linked c) :
    (toolkit a).ivyCleanup a w = none := by
  have hmem := mem_clients_iff.mpr hlinked
  have hrun : Machine.run ((toolkit a).sayBye a) w (w.user.registry.allClients.list.map (·.client)) = none := by
    cases hclients : w.user.registry.allClients.list.map (·.client) with
    | nil => simp [hclients] at hmem
    | cons first clients =>
      have hfirst : w.user.Linked first := mem_clients_iff.mp (by simp [hclients])
      rw [Machine.run, sayBye_none (hsock first hfirst), Option.bind_none]
  exact congrArg (Option.bind · _) hrun

theorem sock_of_target {d : Data Code User} {order : ByteOrder} {target : ℕ}
    (h : d.target order c = some target) : d.sock target ≠ none := by
  obtain ⟨clnt, hclnt, h⟩ := Option.bind_eq_some_iff.mp h
  obtain ⟨other, -, h⟩ := Option.bind_eq_some_iff.mp h
  obtain ⟨sock, hsock, rfl⟩ := Option.map_eq_some_iff.mp h
  split_ifs
  · simp [hsock]
  · simp [hclnt]

theorem receiveStartRegexp_none (hlinked : w.user.Linked c) (id : ℤ) (arg : Text)
    (hcloses : w.user.target a.order c ≠ none) : (toolkit a).receiveStartRegexp a c id arg w = none := by
  obtain ⟨registry, hregistry, hclients⟩ := receiveLine_startRegexp a.compile hlinked id arg
  unfold MainLoop.receiveStartRegexp
  refine (congrArg (Option.bind · _) hregistry).trans ?_
  dsimp only [Option.bind_some]
  generalize hd : Data.setRecord _ c _ = d
  have htarget : d.target a.order c = w.user.target a.order c := by
    rw [← hd, target_setRecord]
    exact target_congr hclients rfl rfl a.order
  obtain ⟨target, hsome⟩ := Option.ne_none_iff_exists'.mp hcloses
  rw [htarget, hsome]
  refine Option.bind_eq_none_iff.mpr fun w' hw' => if_neg ((remove_gone hw').2 ?_)
  exact (sock_msgSendTo a d target .error 0 _ target).trans_ne (sock_of_target (htarget.trans hsome))

/-- A line that closes a connection leads to a read of what was freed. -/
theorem goOn_closes {line : Text} (hsock : ∀ c, w.user.Linked c → w.user.sock c ≠ none)
    (hcloses : Closes a c w.user line) : (toolkit a).goOn c ((toolkit a).receive a c) w line = none := by
  refine Option.bind_eq_none_iff.mpr fun w' hw' => ?_
  by_cases hserved : w.user.Served c
  · let v := (toolkit a).modify (·.record (.receive c (w.user.request c line))) w
    have hw' : (toolkit a).receiveRequest a c v (w.user.request c line) = some w' :=
      (if_pos hserved).symm.trans hw'
    have hset (id : ℤ) : ((toolkit a).setClientId c id v).user.Linked c :=
      fun hnone => hserved.2 ((sameClients_setId id c).mp hnone)
    unfold Closes at hcloses
    generalize w.user.request c line = r at hw' hcloses
    cases r with
    | badFormat => exact if_pos (remove_gone hw').1
    | control kind id arg =>
      cases kind with
      | bye => exact if_pos (remove_gone hw').1
      | die =>
        have hnone : (toolkit a).receiveDie a c id ((toolkit a).setClientId c id v) = none := by
          refine Option.map_eq_none_iff.mpr (ivyCleanup_none (fun c hlinked => ?_) (hset id))
          exact hsock c fun hnone => hlinked ((sameClients_setId _ c).mpr hnone)
        exact absurd (hnone.symm.trans hw') (by simp)
      | startRegexp =>
        have hclients : ((toolkit a).setClientId c id v).user.clients = w.user.clients := clients_modify _ c _
        have hnone : (toolkit a).receiveStartRegexp a c id arg ((toolkit a).setClientId c id v) = none := by
          apply receiveStartRegexp_none (hset id)
          rw [target_congr hclients rfl rfl]
          simpa [removes, Option.isSome_iff_ne_none] using hcloses
        exact absurd (hnone.symm.trans hw') (by simp)
      | _ => simp [removes] at hcloses
    | _ => simp [removes] at hcloses
  · exact absurd ((if_neg hserved).symm.trans hw') (by simp)

end Closing

/-- The line closes no connection, and what it counts does not overflow. -/
def Stays (a : Setup Code User) (c : ℕ) (w : Watched Code User) (line : Text) : Prop :=
  ¬ Closes a c w.user line ∧ CanCount c w.user (w.user.request c line)

instance (a : Setup Code User) (c : ℕ) (w : Watched Code User) (line : Text) : Decidable (Stays a c w line) :=
  inferInstanceAs (Decidable (_ ∧ _))

section Runs
variable {w w' : Watched Code User}

/-- A line that closes nothing is one of the agent over its own main loop. -/
theorem sound_line {c' : ℕ} {line : Text} (h : ∀ c, Sound w c) (hopen : ¬ Closes a c' w.user line)
    (hw : (toolkit a).receive a c' w line = some w') :
    (∀ c, Sound w' c) ∧ w'.user.memory = w.user.memory := by
  have hserved : w.user.Served c' := by
    by_contra hnot
    exact absurd ((if_neg hnot).symm.trans hw) (by simp)
  obtain ⟨d, hd, hd', -⟩ := receive_open hserved hopen
  obtain ⟨e, rfl, rfl⟩ := Option.map_eq_some_iff.mp (hd.symm.trans hw)
  have hreceive : Agent.receive a c' w.alone line = some (Watched.alone ((toolkit a).withUser w e)) := hd'
  have hmemory := memory_receive hreceive
  refine ⟨fun c => (h c).of_alike ?_ (fun _ => rfl) .inl, hmemory⟩
  obtain ⟨-, hhandles⟩ := receive_handles hreceive
  have hnot : ∀ id arg, w.alone.user.request c' line ≠ .control .die id arg := by
    intro id arg hdie
    have hdie : w.user.request c' line = .control .die id arg := hdie
    exact hopen (by simp [Closes, hdie, removes])
  generalize w.alone.user.request c' line = r at hhandles hnot
  have hlogged : Alike w.alone (logged c' r w.alone) c := alike_logged r c'
  cases hhandles with
  | calm _ hcalm => exact alike_trans hlogged (alike_calm hcalm)
  | endRegexp id arg hend => exact alike_trans hlogged (alike_completed hend)
  | die id arg => exact absurd rfl (hnot id arg)

theorem goOn_eq_receive {line : Text} (h : ∀ c, Sound w c) (hc : w.user.memory c ≠ none)
    (hopen : ¬ Closes a c w.user line) :
    (toolkit a).goOn c ((toolkit a).receive a c) w line = (toolkit a).receive a c w line := by
  unfold MainLoop.goOn
  cases hw : (toolkit a).receive a c w line with
  | none => rfl
  | some w' =>
    have hmemory := (sound_line h hopen hw).2
    exact if_neg (hmemory ▸ hc)

theorem goOn_iff {line : Text} (h : ∀ c, Sound w c) (hsock : w.user.sock c ≠ none) :
    (toolkit a).goOn c ((toolkit a).receive a c) w line ≠ none ↔ Stays a c w line := by
  by_cases hopen : Closes a c w.user line
  · rw [goOn_closes (fun c => (h c).sock) hopen]
    exact ⟨fun hnot => absurd rfl hnot, fun hstays => absurd hopen hstays.1⟩
  · have hc : w.user.memory c ≠ none := fun hnone => hsock (by rw [Data.sock, hnone])
    obtain ⟨d, hd, -, hdefined⟩ := receive_open ((h c).served hsock) hopen
    rw [goOn_eq_receive h hc hopen, hd, Stays, and_iff_right hopen, ← hdefined]
    exact not_congr Option.map_eq_none_iff

theorem goOn_sound {line : Text} (h : ∀ c, Sound w c) (hsock : w.user.sock c ≠ none)
    (hw : (toolkit a).goOn c ((toolkit a).receive a c) w line = some w') :
    (∀ c, Sound w' c) ∧ w'.user.sock c ≠ none := by
  have hopen := ((goOn_iff h hsock).mp (Option.ne_none_iff_exists'.mpr ⟨w', hw⟩)).1
  have hc : w.user.memory c ≠ none := fun hnone => hsock (by rw [Data.sock, hnone])
  rw [goOn_eq_receive h hc hopen] at hw
  obtain ⟨hsound, hmemory⟩ := sound_line h hopen hw
  exact ⟨hsound, by rwa [sock_of_memory (congrFun hmemory c)]⟩

theorem lines_iff (h : ∀ c, Sound w c) (hsock : w.user.sock c ≠ none) (lines : List Text) :
    Machine.run ((toolkit a).goOn c ((toolkit a).receive a c)) w lines ≠ none ↔
      Machine.Guarded ((toolkit a).goOn c ((toolkit a).receive a c)) (Stays a c) w lines :=
  Machine.run_ne_none_iff (I := fun w => (∀ c, Sound w c) ∧ w.user.sock c ≠ none)
    (fun _ _ _ hI hw => goOn_sound hI.1 hI.2 hw) (fun _ _ hI => goOn_iff hI.1 hI.2) ⟨h, hsock⟩ lines

theorem lines_sound (h : ∀ c, Sound w c) (hsock : w.user.sock c ≠ none) {lines : List Text}
    (hw : Machine.run ((toolkit a).goOn c ((toolkit a).receive a c)) w lines = some w') (c : ℕ) :
    Sound w' c :=
  (Machine.run_reaches (I := fun _ w => (∀ c, Sound w c) ∧ w.user.sock _ ≠ none) ⟨h, hsock⟩
    (fun _ _ _ _ hI hw => goOn_sound hI.1 hI.2 hw) hw).1 c

end Runs

end Ivy.Toolkit

import Ivy.Agent.Sockets

/-! The agent's handlers do to the channels what a handler of the main loop may do. -/
namespace Ivy.Agent
open Socket Registry Loop

variable {Code User : Type*}

section
variable {a : Setup Code User} {c : ℕ} {w w' : World Code User}

theorem acts_sayBye (a : Setup Code User) (clients : List ℕ) (w : World Code User) :
    Acts w.channels (clients.foldl (sayBye a) w).channels := by
  induction clients using List.reverseRecOn with
  | nil => exact .nothing _
  | append_singleton clients c ih =>
    rw [List.foldl_concat]
    exact ih.remove c

theorem acts_ivyCleanup (hw : ivyCleanup a w = some w') : Acts w.channels w'.channels := by
  unfold ivyCleanup at hw
  dsimp only at hw
  split_ifs at hw
  obtain rfl := Option.some.inj hw
  exact ((acts_sayBye a _ w).remove _).remove _

theorem acts_receiveStartRegexp {id : ℤ} {arg : Text} (hw : receiveStartRegexp a c id arg w = some w') :
    Acts w.channels w'.channels := by
  obtain ⟨reg, -, rfl⟩ := Option.map_eq_some_iff.mp hw
  dsimp only
  split
  · exact .nothing _
  · rename_i target _
    exact (Acts.nothing _).remove target

theorem acts_receiveControl {kind : MsgType} {id : ℤ} {arg : Text}
    (hw : receiveControl a c kind id arg w = some w') : Acts w.channels w'.channels := by
  have hdata (d : Option (Data Code User)) (hd : (d.map fun d => { w with user := d }) = some w') :
      Acts w.channels w'.channels := by
    obtain ⟨d, -, rfl⟩ := Option.map_eq_some_iff.mp hd
    exact .nothing _
  cases kind with
  | bye =>
    obtain rfl := Option.some.inj hw
    exact (Acts.nothing _).remove c
  | startRegexp => exact acts_receiveStartRegexp hw
  | die =>
    obtain ⟨v, hv, rfl⟩ := Option.map_eq_some_iff.mp hw
    have hcleanup := acts_ivyCleanup hv
    exact hcleanup.stop
  | directMsg | ping | error | msg | pong =>
    obtain rfl := Option.some.inj hw
    exact .nothing _
  | addRegexp | delRegexp | endRegexp => exact hdata _ hw

theorem acts_receive {line : Text} (hw : receive a c w line = some w') : Acts w.channels w'.channels := by
  unfold receive at hw
  dsimp only at hw
  split_ifs at hw
  cases hrequest : w.user.request c line with
  | badFormat =>
    rw [hrequest] at hw
    obtain rfl := Option.some.inj hw
    exact (Acts.nothing _).remove c
  | control kind id arg =>
    rw [hrequest] at hw
    have hacts := acts_receiveControl hw
    exact hacts
  | ignored | call | unhandled | noCallback | tooManyArgs | notFound =>
    rw [hrequest] at hw
    obtain rfl := Option.some.inj hw
    exact .nothing _

theorem Connects.acts {addresses : Addresses} (h : Connects addresses w w') : Acts w.channels w'.channels := by
  obtain ⟨fd, hchannels⟩ := h.channels
  rw [hchannels]
  exact (Acts.nothing _).add fd () true

theorem Rejects.acts {addresses : Addresses} (h : Rejects addresses w w') : Acts w.channels w'.channels := by
  obtain ⟨fd, hchannels⟩ := h.channels
  rw [hchannels]
  exact ((Acts.nothing _).add fd () true).remove _

theorem acts_handleSocket {interpretation : World Code User → Text → Option (World Code User)} {received : Received}
    (hline : ∀ u line u', interpretation u line = some u' → Acts u.channels u'.channels)
    (hw : handleSocket c interpretation received w = some w') : Acts w.channels w'.channels := by
  rcases handleSocket_cases hw with rfl | ⟨v, held, rfl, hv⟩
  · exact (Acts.nothing _).remove c
  · have hrun : Acts w.channels v.channels := Machine.run_reaches (I := fun _ u => Acts w.channels u.channels)
      (Acts.nothing _) (fun _ u line u' hu hstep => hu.trans (hline u line u' hstep)) hv
    exact hrun

theorem acts_broadcastReceive {line : Text} (hw : broadcastReceive a c w line = some w') :
    Acts w.channels w'.channels := by
  obtain ⟨v, hv, hw'⟩ := broadcastReceive_cases hw
  have hsame : v.channels = w.channels := by
    rcases hv with rfl | ⟨connects, rfl⟩ <;> rfl
  rcases hw' with rfl | ⟨addresses, hconnects⟩
  · rw [hsame]
    exact .nothing _
  · rw [← hsame]
    exact hconnects.acts

theorem acts_handleRead {env : Env} (hw : handleRead a c env w = some w') : Acts w.channels w'.channels := by
  unfold handleRead at hw
  split at hw
  · simp at hw
  · unfold handleServer at hw
    split at hw
    · obtain rfl := Option.some.inj hw
      exact .nothing _
    · rcases clientCreate_cases hw with hconnects | hrejects
      · exact hconnects.acts
      · exact hrejects.acts
  · have hacts := acts_handleSocket (fun u line u' => acts_broadcastReceive) hw
    exact hacts
  · exact acts_handleSocket (fun u line u' => acts_receive) hw

theorem acts_handleWrite {env : Env} (hw : handleWrite a c env w = some w') : Acts w.channels w'.channels := by
  obtain ⟨sock, -, rfl⟩ := Option.map_eq_some_iff.mp hw
  unfold handleCongestionWrite
  split
  · exact (Acts.nothing _).remove c
  · exact .nothing _
  · exact (Acts.nothing _).clearWritable c

theorem acts_congest (congested : List ℕ) (w : World Code User) :
    Acts w.channels (congested.foldl congest w).channels := by
  induction congested using List.reverseRecOn with
  | nil => exact .nothing _
  | append_singleton congested c ih =>
    rw [List.foldl_concat, congest]
    split_ifs
    · exact ih.addWritable c
    · exact ih

end

/-- The agent is a program that the life cycle of the channels is about. -/
theorem program_wellBehaved (a : Setup Code User) : (program a).WellBehaved where
  handleDelete _ ch w w' hw := by
    rw [(deleteSocket_deletes hw).channels]
    exact .nothing _
  handleRead _ _ _ _ hw := acts_handleRead hw
  handleWrite _ _ _ _ hw := acts_handleWrite hw
  hook env w w' hw := by
    obtain rfl := Option.some.inj hw
    exact acts_congest env.congested w

/-- The channels of the agent: in a run in which `select` reports no exceptional condition on a client
or the server, every handler is called for a channel that was not deleted. -/
theorem run_sound (a : Setup Code User) (o : Opened User) (events : List (Loop.Event Env))
    (hno : Machine.Guarded (Loop.step (program a)) NoException (Loop.started (ivyStart o)) events)
    (s : Loop.State Unit (Data Code User)) (hrun : run a o events = some s) : Sound s := by
  have hopened : Acts ivyChannelInit (ivyStart o : World Code User).channels :=
    ((Acts.nothing _).add o.serverFd () true).add o.broadcastFd () true
  exact Machine.run_guarded (I := fun _ => Sound) (started_sound hopened _)
    (fun _ _ _ _ h hG ht => sound_step (program_wellBehaved a) h hG ht) hno hrun

end Ivy.Agent

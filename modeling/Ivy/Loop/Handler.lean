import Ivy.Loop.MainLoop

/-! The handlers that a run of the loop calls, and how properties of the world follow from them. -/
namespace Ivy.Loop

inductive Handler (Data Env : Type*)
  | delete (env : Env) (ch : Channel Data)
  | read (env : Env) (ch : Channel Data)
  | write (env : Env) (ch : Channel Data)
  | hook (env : Env)

variable {Data User Env : Type*}

def Handler.channel : Handler Data Env → Option (Channel Data)
  | .delete _ ch => some ch
  | .read _ ch => some ch
  | .write _ ch => some ch
  | .hook _ => none

/-- The channels that a handler is called for are in the list. -/
def Handler.InList (w : World Data User) (h : Handler Data Env) : Prop :=
  ∀ ch ∈ h.channel, w.channels.find ch.id = some ch

def Program.call (p : Program Data User Env) : Handler Data Env → World Data User → Option (World Data User)
  | .delete env ch => p.handleDelete env ch
  | .read env ch => p.handleRead env ch
  | .write env ch => p.handleWrite env ch
  | .hook env => p.hook env

def State.handler (s : State Data User) : Event Env → Option (Handler Data Env)
  | .next env =>
    let serve (c : ℕ) (cond : Channel Data → Bool) := (s.world.channels.find c).filter cond
    match s.pc with
    | .channelDefferedDelete (c :: _) =>
      (serve c fun ch => ch.tobedeleted && ch.handle_delete).map (.delete env)
    | .ivyChannelHandleExcpt (c :: _) sets =>
      (serve c fun ch => ch.fd ∈ sets.exset && ch.handle_delete).map (.delete env)
    | .ivyChannelHandleRead (c :: _) sets => (serve c fun ch => ch.fd ∈ sets.rdset).map (.read env)
    | .ivyChannelHandleWrite (c :: _) sets => (serve c fun ch => ch.fd ∈ sets.wrset).map (.write env)
    | _ => none
  | .hook env => some (.hook env)
  | _ => none

def OnHandler (G : World Data User → Handler Data Env → Prop) (s : State Data User) (e : Event Env) :
    Prop := ∀ h ∈ s.handler e, G s.world h

instance (G : World Data User → Handler Data Env → Prop) [∀ w h, Decidable (G w h)]
    (s : State Data User) (e : Event Env) : Decidable (OnHandler G s e) :=
  inferInstanceAs (Decidable (∀ h ∈ s.handler e, G s.world h))

/-- The world is what the handler leaves, up to a channel that is unlinked after it. -/
def After (p : Program Data User Env) (s : State Data User) (e : Event Env) (w' : World Data User) : Prop :=
  ∃ w, (match s.handler e with | none => w = s.world | some h => p.call h s.world = some w) ∧
    (w' = w ∨ ∃ c fd, w' = { w with channels := w.channels.unlink c fd })

section
variable {p : Program Data User Env} {s t : State Data User} {env : Env}

theorem after_same {e : Event Env} (hnone : s.handler e = none) : After p s e s.world := by
  refine ⟨s.world, ?_, .inl rfl⟩
  rw [hnone]

theorem after_call {h : Handler Data Env} {e : Event Env} (he : s.handler e = some h)
    {s' : State Data User} (hs : s'.withWorld (p.call h s.world) = some t) : After p s e t.world := by
  obtain ⟨w, hw, rfl⟩ := Option.map_eq_some_iff.mp hs
  refine ⟨w, ?_, .inl rfl⟩
  rw [he]
  exact hw

theorem after_visit {body : Channel Data → State Data User → Option (State Data User)} {c : ℕ} {pc : Pc}
    (hbody : ∀ ch u, s.world.channels.find c = some ch → body ch s = some u →
      After p s (.next env) u.world) (ht : visit body c pc s = some t) : After p s (.next env) t.world := by
  obtain ⟨ch, u, hch, hu, rfl⟩ := visit_cases ht
  exact hbody ch u hch hu

theorem after_delete {c : ℕ} {next : List ℕ} (hpc : s.pc = .channelDefferedDelete (c :: next))
    {ch : Channel Data} (hch : s.world.channels.find c = some ch) (ht : visitDelete p env ch s = some t) :
    After p s (.next env) t.world := by
  unfold visitDelete ivyChannelDelete callDelete at ht
  split_ifs at ht with hmarked hdelete
  · obtain ⟨u, hu, rfl⟩ := Option.map_eq_some_iff.mp ht
    obtain ⟨w, hw, rfl⟩ := Option.map_eq_some_iff.mp hu
    have hhandler : s.handler (.next env) = some (.delete env ch) := by
      simp [State.handler, hpc, hch, hmarked, hdelete]
    refine ⟨w, ?_, .inr ⟨ch.id, ch.fd, rfl⟩⟩
    rw [hhandler]
    exact hw
  · obtain ⟨u, hu, rfl⟩ := Option.map_eq_some_iff.mp ht
    obtain rfl := Option.some.inj hu
    have hhandler : s.handler (.next env) = none := by simp [State.handler, hpc, hch, hdelete]
    refine ⟨s.world, ?_, .inr ⟨ch.id, ch.fd, rfl⟩⟩
    rw [hhandler]
  · obtain rfl := Option.some.inj ht
    exact after_same (by simp [State.handler, hpc, hch, hmarked])

theorem after_excpt {c : ℕ} {next : List ℕ} {sets : FdSets} (hpc : s.pc = .ivyChannelHandleExcpt (c :: next) sets)
    {ch : Channel Data} (hch : s.world.channels.find c = some ch)
    (ht : visitExcpt p env sets ch s = some t) : After p s (.next env) t.world := by
  unfold visitExcpt callDelete at ht
  split_ifs at ht with hset hdelete
  · have hhandler : s.handler (.next env) = some (.delete env ch) := by
      simp [State.handler, hpc, hch, hset, hdelete]
    exact after_call hhandler ht
  · obtain rfl := Option.some.inj ht
    exact after_same (by simp [State.handler, hpc, hch, hdelete])
  · obtain rfl := Option.some.inj ht
    exact after_same (by simp [State.handler, hpc, hch, hset])

theorem after_read {c : ℕ} {next : List ℕ} {sets : FdSets} (hpc : s.pc = .ivyChannelHandleRead (c :: next) sets)
    {ch : Channel Data} (hch : s.world.channels.find c = some ch)
    (ht : visitRead p env sets ch s = some t) : After p s (.next env) t.world := by
  unfold visitRead at ht
  split_ifs at ht with hset
  · have hhandler : s.handler (.next env) = some (.read env ch) := by
      simp [State.handler, hpc, hch, hset]
    exact after_call hhandler ht
  · obtain rfl := Option.some.inj ht
    exact after_same (by simp [State.handler, hpc, hch, hset])

theorem after_write {c : ℕ} {next : List ℕ} {sets : FdSets} (hpc : s.pc = .ivyChannelHandleWrite (c :: next) sets)
    {ch : Channel Data} (hch : s.world.channels.find c = some ch)
    (ht : visitWrite p env sets ch s = some t) : After p s (.next env) t.world := by
  unfold visitWrite at ht
  split_ifs at ht with hset
  · have hhandler : s.handler (.next env) = some (.write env ch) := by
      simp [State.handler, hpc, hch, hset]
    exact after_call hhandler ht
  · obtain rfl := Option.some.inj ht
    exact after_same (by simp [State.handler, hpc, hch, hset])

theorem step_world {e : Event Env} (ht : step p s e = some t) : After p s e t.world := by
  cases e with
  | enter idle =>
    simp only [step] at ht
    split at ht
    · split_ifs at ht
      obtain rfl := Option.some.inj ht
      exact after_same rfl
    · simp at ht
  | select ready =>
    simp only [step] at ht
    split at ht
    · obtain rfl := Option.some.inj ht
      have hworld : (select ready s).world = s.world := by cases ready <;> rfl
      rw [hworld]
      exact after_same rfl
    · simp at ht
  | hook env =>
    have hhandler : s.handler (.hook env) = some (.hook env) := rfl
    simp only [step] at ht
    split at ht
    · exact after_call hhandler ht
    · exact after_call hhandler ht
    · simp at ht
  | next env =>
    simp only [step, advance] at ht
    split at ht
    case h_1 => simp at ht
    case h_3 hpc => exact after_visit (fun ch u => after_delete hpc) ht
    case h_4 => simp at ht
    case h_7 hpc => exact after_visit (fun ch u => after_excpt hpc) ht
    case h_9 hpc => exact after_visit (fun ch u => after_read hpc) ht
    case h_11 hpc => exact after_visit (fun ch u => after_write hpc) ht
    -- a walk starts or ends
    all_goals
      rename_i hpc
      obtain rfl := Option.some.inj ht
      exact after_same (by simp only [State.handler, hpc])

theorem State.handler_channel {e : Event Env} {h : Handler Data Env} (hs : s.handler e = some h) :
    h.InList s.world := by
  have hfilter {c : ℕ} {cond : Channel Data → Bool} {ch : Channel Data}
      (hch : (s.world.channels.find c).filter cond = some ch) : s.world.channels.find ch.id = some ch := by
    have hfind := (Option.filter_eq_some_iff.mp hch).1
    have hid : ch.id = c := Keyed.find_key hfind
    rwa [hid]
  cases e with
  | enter idle => simp [State.handler] at hs
  | select ready => simp [State.handler] at hs
  | hook env =>
    obtain rfl := Option.some.inj hs
    simp [Handler.InList, Handler.channel]
  | next env =>
    simp only [State.handler] at hs
    split at hs
    case h_5 => simp at hs
    all_goals
      obtain ⟨ch, hch, rfl⟩ := Option.map_eq_some_iff.mp hs
      intro ch' hch'
      obtain rfl := Option.some.inj hch'
      exact hfilter hch

end

section Rules
variable {p : Program Data User Env} {I : World Data User → Prop} {G : World Data User → Handler Data Env → Prop}
  (hunlink : ∀ w c fd, I w → I { w with channels := w.channels.unlink c fd })
include hunlink

theorem world_step (hcall : ∀ w h w', I w → h.InList w → G w h → p.call h w = some w' → I w')
    {s t : State Data User} {e : Event Env} (hI : I s.world) (hG : OnHandler G s e)
    (ht : step p s e = some t) : I t.world := by
  obtain ⟨w, hw, hworld⟩ := step_world ht
  have hIw : I w := by
    cases hhandler : s.handler e with
    | none =>
      rw [hhandler] at hw
      exact hw ▸ hI
    | some h =>
      rw [hhandler] at hw
      exact hcall s.world h w hI (State.handler_channel hhandler) (hG h hhandler) hw
  rcases hworld with hworld | ⟨c, fd, hworld⟩
  · rwa [hworld]
  · rw [hworld]
    exact hunlink w c fd hIw

/-- What the handlers keep holds of the world after every run. -/
theorem run_world (hcall : ∀ w h w', I w → h.InList w → G w h → p.call h w = some w' → I w')
    {s t : State Data User} {es : List (Event Env)} (h₀ : I s.world)
    (hG : Machine.Guarded (step p) (OnHandler G) s es) (hrun : Machine.run (step p) s es = some t) :
    I t.world :=
  Machine.run_guarded (I := fun _ s => I s.world) h₀
    (fun _ _ _ _ hI hG ht => world_step hunlink hcall hI hG ht) hG hrun

/-- A condition on the calls of handlers implies another one, where `I` holds. -/
theorem guarded_imp {G' : World Data User → Handler Data Env → Prop}
    (hcall : ∀ w h w', I w → h.InList w → G w h → p.call h w = some w' → I w')
    (himp : ∀ w h, I w → h.InList w → G w h → G' w h) {s : State Data User} {es : List (Event Env)}
    (h₀ : I s.world) (hG : Machine.Guarded (step p) (OnHandler G) s es) :
    Machine.Guarded (step p) (OnHandler G') s es :=
  hG.imp (I := fun s => I s.world) h₀ (fun _ _ _ hI hG ht => world_step hunlink hcall hI hG ht)
    fun s _ hI hG h hh => himp s.world h hI (State.handler_channel hh) (hG h hh)

end Rules
end Ivy.Loop

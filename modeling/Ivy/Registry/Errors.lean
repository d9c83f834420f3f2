import Ivy.Registry.Coherence
import Ivy.Registry.Sending

/-! Who is told that PCRE2 rejects a regexp. It is compiled when its entry is made, and the entry
stays for those who ask for it later. -/
namespace Ivy.Registry

variable {Code : Type*}

def Effect.isError : Effect → Bool
  | .sendError _ _ _ => true
  | .bindCallback _ _ _ _ => false

def errorFrames (s : State Code) : List Effect := s.effects.filter Effect.isError

def Event.errors (compile : Compile Code) : Event → List Effect
  | .line c (.addRegexp _ regexp) =>
    match compile regexp with
    | .ok _ => []
    | .error (erroffset, errbuf) => [.sendError c erroffset (errorBuffer regexp errbuf)]
  | _ => []

/-- A client asks for a regexp that it has not. -/
def Fresh (s : State Code) : Event → Prop
  | .line c (.addRegexp _ regexp) => ∀ n ∈ s.messSndByRegexp.subs regexp, n.client ≠ c
  | _ => True

/-- A rejected regexp has no entry when it comes, and the client that leaves has a safe walk. -/
def Tells (compile : Compile Code) (s : State Code) : Event → Prop
  | .line _ (.addRegexp _ regexp) => (compile regexp).toOption.isNone → (s.messSndByRegexp.hashFind regexp).isNone
  | .disconnect c => SafeWalk ((s.allClients.srcs c).map GlobReg.id)
  | _ => True

instance (s : State Code) : ∀ e, Decidable (Fresh s e)
  | .line _ (.addRegexp _ _) => inferInstanceAs (Decidable (∀ n ∈ _, _))
  | .line _ (.delRegexp _ _) => .isTrue trivial
  | .line _ (.startRegexp _ _) => .isTrue trivial
  | .line _ (.endRegexp _ _) => .isTrue trivial
  | .connect _ => .isTrue trivial
  | .disconnect _ => .isTrue trivial

instance (compile : Compile Code) (s : State Code) : ∀ e, Decidable (Tells compile s e)
  | .line _ (.addRegexp _ _) => inferInstanceAs (Decidable (_ = true → _ = true))
  | .line _ (.delRegexp _ _) => .isTrue trivial
  | .line _ (.startRegexp _ _) => .isTrue trivial
  | .line _ (.endRegexp _ _) => .isTrue trivial
  | .connect _ => .isTrue trivial
  | .disconnect _ => inferInstanceAs (Decidable (SafeWalk _))

/-- After some events, the agent has sent one Error frame for each line with a rejected regexp, in
order, and no other. An entry of a rejected regexp sends nothing, and is there as long as a client
subscribes it. -/
structure Told (compile : Compile Code) (past : List Event) (s : State Code) : Prop where
  sound : Sound past s
  frames : errorFrames s = past.flatMap (Event.errors compile)
  compiled : ∀ e ∈ s.messSndByRegexp.entries, e.binding = (compile e.regexp_src).toOption
  silent : ∀ e ∈ s.messSndByRegexp.entries, (compile e.regexp_src).toOption = none →
    ∀ exec message, regexpCall exec message e = []

/-- No error is sent and no regexp compiled. -/
structure Quiet (s t : State Code) : Prop where
  frames : errorFrames t = errorFrames s
  compiled : ∀ e' ∈ t.messSndByRegexp.entries, ∃ e ∈ s.messSndByRegexp.entries,
    e'.regexp_src = e.regexp_src ∧ e'.binding = e.binding

namespace Quiet
variable {s t u : State Code}

theorem refl (s : State Code) : Quiet s s := ⟨rfl, fun e he => ⟨e, he, rfl, rfl⟩⟩

theorem trans (h : Quiet s t) (h' : Quiet t u) : Quiet s u := by
  refine ⟨h'.frames.trans h.frames, fun e he => ?_⟩
  obtain ⟨e', he', hkey', hbinding'⟩ := h'.compiled e he
  obtain ⟨e₀, he₀, hkey, hbinding⟩ := h.compiled e' he'
  exact ⟨e₀, he₀, hkey'.trans hkey, hbinding'.trans hbinding⟩

theorem regenerate (h : Quiet s t) : Quiet s (regenerateRegPtrArrayCache t) := ⟨h.frames, h.compiled⟩

theorem update {f : MsgSndDict Code → Option (MsgSndDict Code)} (hf : InPlace f)
    (hbinding : ∀ e, ∀ e' ∈ f e, e'.binding = e.binding) :
    Quiet s { s with messSndByRegexp := s.messSndByRegexp.update f hf } := by
  refine ⟨rfl, fun e' he' => ?_⟩
  obtain ⟨e, he, hfe⟩ := List.mem_filterMap.mp he'
  exact ⟨e, he, (hf e e' hfe).1, hbinding e e' hfe⟩

theorem binding_pruneEntry {keep : Subscriber → Bool} {e e' : MsgSndDict Code} (h : e' ∈ pruneEntry keep e) :
    e'.binding = e.binding := by
  simp only [pruneEntry, Option.mem_def, Option.ite_none_left_eq_some, Option.some.injEq] at h
  obtain ⟨-, rfl⟩ := h
  rfl

theorem delFromDictionary (s : State Code) (regexp : Text) (client : IvyClient) :
    Quiet s (delRegexpForOneClientFromDictionary s regexp client) := by
  unfold delRegexpForOneClientFromDictionary
  apply regenerate
  cases s.messSndByRegexp.hashFind regexp with
  | none => exact refl s
  | some e =>
    refine update (inPlace_onEntry (inPlace_pruneEntry _) _) ?_
    intro e₀ e' he'
    unfold onEntry at he'
    split_ifs at he'
    · exact binding_pruneEntry he'
    · exact congrArg _ (Option.some.inj he').symm

theorem delRegexpForOneClient (s : State Code) (client : IvyClient) (id : ℤ) :
    Quiet s (delRegexpForOneClient s client id).1 := by
  unfold Registry.delRegexpForOneClient
  split
  · exact refl s
  · next clnt hclnt =>
    have hfold (l : List GlobReg) : ∀ t, Quiet s t → Quiet s
        (l.foldl (fun s regxpSrc => delRegexpForOneClientFromDictionary s regxpSrc.str_regexp client) t) := by
      induction l with
      | nil => exact fun t ht => ht
      | cons n l ih => exact fun t ht => ih _ (ht.trans (delFromDictionary t n.str_regexp client))
    have hremoved := hfold (clnt.srcRegList.filter fun regxpSrc => regxpSrc.id = id) s (refl s)
    exact ⟨hremoved.frames, hremoved.compiled⟩

theorem delOneClient {c : ℕ} {clnt : IvyClient} (hclnt : s.allClients.find c = some clnt)
    (hwalk : SafeWalk (clnt.srcRegList.map GlobReg.id)) (ht : delOneClient s c = some t) : Quiet s t := by
  have hstep : ∀ u id, Quiet s u → Quiet s (Registry.delRegexpForOneClient u clnt id).1 :=
    fun u id hu => hu.trans (delRegexpForOneClient u clnt id)
  obtain ⟨u, hu, hquiet⟩ := delSources_keeps hstep hwalk (Nat.le_refl _) (refl s)
  rw [Registry.delOneClient, delClientNode, hclnt] at ht
  dsimp only at ht
  rw [hu, Option.map_some, Option.map_some] at ht
  obtain rfl := Option.some.inj ht
  apply hquiet.trans
  have hgone : Quiet u { u with messSndByRegexp := delOneClientFromDictionary u.messSndByRegexp c } :=
    update _ fun _ _ => binding_pruneEntry
  exact ⟨hgone.frames, hgone.compiled⟩

end Quiet

section Add
variable {compile : Compile Code} {s t : State Code} {regexp : Text} {client : IvyClient}

@[simp] theorem addReg_effects (s : State Code) (newReg : ℕ) : (addRegToPtrArrayCache s newReg).effects = s.effects := by
  simp only [addRegToPtrArrayCache]
  split_ifs <;> rfl

theorem addEntry_effects (h : s.messSndByRegexp.hashFind regexp = none) :
    (addEntry compile s regexp client h).effects =
      s.effects ++ Event.errors compile (.line client.client (.addRegexp client.id regexp)) := by
  cases hcompile : compile regexp with
  | ok code =>
    simp only [addEntry, Event.errors, hcompile, List.append_nil]
    split_ifs <;> simp
  | error err =>
    simp only [addEntry, Event.errors, hcompile]
    split_ifs <;> simp

theorem addToDictionary_effects :
    (addRegexpToDictionary compile s regexp client).effects =
      s.effects ++ (if (s.messSndByRegexp.hashFind regexp).isNone then
        Event.errors compile (.line client.client (.addRegexp client.id regexp)) else []) := by
  unfold addRegexpToDictionary
  split
  · next e he => simp [he]
  · next hnone =>
    have hnew : (s.messSndByRegexp.hashFind regexp).isNone = true := Option.isNone_iff_eq_none.mpr hnone
    rw [if_pos hnew]
    exact addEntry_effects hnone

/-- The entry of the regexp has been compiled from it, whether it is new or not. -/
theorem addToDictionary_compiled
    (h : ∀ e ∈ s.messSndByRegexp.entries, e.binding = (compile e.regexp_src).toOption) :
    ∀ e ∈ (addRegexpToDictionary compile s regexp client).messSndByRegexp.entries,
      e.binding = (compile e.regexp_src).toOption := by
  have hfound : ∀ e ∈ (findOrAdd s.messSndByRegexp regexp (compile regexp).toOption).1.entries,
      e.binding = (compile e.regexp_src).toOption := by
    unfold findOrAdd
    split
    · exact h
    · intro e he
      rcases List.mem_append.mp he with he | he
      · exact h e he
      · rw [List.mem_singleton.mp he]
        rfl
  rw [addToDictionary_messSndByRegexp]
  intro e' he'
  obtain ⟨e, he, hfe⟩ := List.mem_filterMap.mp he'
  simp only [onEntry, addClient] at hfe
  split_ifs at hfe <;> obtain rfl := Option.some.inj hfe <;> exact hfound e he

/-- What `addRegexp` does besides is a call of the application. -/
theorem addRegexp_eq (ht : addRegexp compile s regexp client = some t) :
    errorFrames t = errorFrames (addRegexpToDictionary compile s regexp client) ∧
      t.messSndByRegexp = (addRegexpToDictionary compile s regexp client).messSndByRegexp := by
  simp only [addRegexp] at ht
  split at ht
  · exact absurd ht (Option.some_ne_none t).symm
  · obtain rfl := Option.some.inj ht
    refine ⟨?_, rfl⟩
    simp [errorFrames, bindCallback, Effect.isError]

end Add

theorem errors_filter (compile : Compile Code) (e : Event) :
    (e.errors compile).filter Effect.isError = e.errors compile := by
  unfold Event.errors
  split
  · split <;> simp [Effect.isError]
  · rfl

section Steps
variable {compile : Compile Code} {past : List Event} {s t : State Code} {e : Event}

theorem silent_of_compiled (h : ∀ e ∈ s.messSndByRegexp.entries, e.binding = (compile e.regexp_src).toOption) :
    ∀ e ∈ s.messSndByRegexp.entries, (compile e.regexp_src).toOption = none →
      ∀ exec message, regexpCall exec message e = [] := by
  intro e he hrejected exec message
  have hbinding : e.binding = none := (h e he).trans hrejected
  rw [regexpCall, hbinding]
  rfl

/-- A step that compiles nothing and sends no error. -/
theorem Told.quiet (h : Told compile past s) (hsound : Sound (past ++ [e]) t) (hquiet : Quiet s t)
    (hnone : e.errors compile = []) : Told compile (past ++ [e]) t := by
  have hcompiled : ∀ e ∈ t.messSndByRegexp.entries, e.binding = (compile e.regexp_src).toOption := by
    intro e' he'
    obtain ⟨e, he, hkey, hbinding⟩ := hquiet.compiled e' he'
    rw [hbinding, hkey, h.compiled e he]
  refine ⟨hsound, ?_, hcompiled, silent_of_compiled hcompiled⟩
  rw [hquiet.frames, h.frames, List.flatMap_append, List.flatMap_singleton, hnone, List.append_nil]

/-- A regexp that its client has not yet: its error is sent if there is none, or no entry yet. -/
theorem told_addRegexp_iff {c : ℕ} {id : ℤ} {regexp : Text} (h : Told compile past s)
    (hc : s.allClients.find c ≠ none) (hlists : s.messSndByRegexp.lists regexp c id = false)
    (hsound : Sound (past ++ [.line c (.addRegexp id regexp)]) t)
    (ht : receiveLine compile s c (.addRegexp id regexp) = some t) :
    Told compile (past ++ [.line c (.addRegexp id regexp)]) t ↔ Tells compile s (.line c (.addRegexp id regexp)) := by
  obtain ⟨clnt, hfind, rfl, rfl⟩ := find_setId hc id
  have hnot : ¬ (setId s clnt.client clnt.id).messSndByRegexp.lists regexp clnt.client clnt.id = true :=
    ne_true_of_eq_false hlists
  have hadd : addRegexp compile (setId s clnt.client clnt.id) regexp clnt = some t := by
    rwa [receiveLine_addRegexp hfind, addOrChangeRegexp, if_neg hnot] at ht
  obtain ⟨hframes, hdictionary⟩ := addRegexp_eq hadd
  have hcompiled : ∀ e ∈ t.messSndByRegexp.entries, e.binding = (compile e.regexp_src).toOption := by
    rw [hdictionary]
    exact addToDictionary_compiled h.compiled
  have hpast : (past ++ [Event.line clnt.client (.addRegexp clnt.id regexp)]).flatMap (Event.errors compile) =
      errorFrames s ++ Event.errors compile (.line clnt.client (.addRegexp clnt.id regexp)) := by
    rw [List.flatMap_append, List.flatMap_singleton, h.frames]
  have hsent : errorFrames t = errorFrames s ++
      if (s.messSndByRegexp.hashFind regexp).isNone then
        Event.errors compile (.line clnt.client (.addRegexp clnt.id regexp)) else [] := by
    rw [hframes, errorFrames, addToDictionary_effects, List.filter_append]
    change errorFrames s ++ _ = _
    congr 1
    change (if (s.messSndByRegexp.hashFind regexp).isNone then _ else _ : List Effect).filter _ = _
    split_ifs
    · exact errors_filter compile _
    · rfl
  constructor
  · intro htold hrejected
    by_contra hentry
    have hframes := htold.frames
    rw [hsent, hpast, if_neg hentry, List.append_cancel_left_eq] at hframes
    cases hcompile : compile regexp with
    | ok code => simp [hcompile, Except.toOption] at hrejected
    | error err => simp [Event.errors, hcompile] at hframes
  · intro htells
    refine ⟨hsound, ?_, hcompiled, silent_of_compiled hcompiled⟩
    rw [hsent, hpast]
    congr 1
    split_ifs with hentry
    · rfl
    · cases hcompile : compile regexp with
      | ok code => simp only [Event.errors, hcompile]
      | error err =>
        have hnew := htells (by rw [hcompile]; rfl)
        exact absurd hnew hentry

theorem quiet_line {c : ℕ} (hc : s.allClients.find c ≠ none) {line : Line}
    (hline : ∀ id regexp, line ≠ .addRegexp id regexp) (ht : receiveLine compile s c line = some t) : Quiet s t := by
  obtain ⟨clnt, hfind, -, -⟩ := find_setId hc line.id
  have hset : Quiet s (setId s c line.id) := ⟨rfl, fun e he => ⟨e, he, rfl, rfl⟩⟩
  simp only [receiveLine, hfind] at ht
  cases line with
  | addRegexp id regexp => exact absurd rfl (hline id regexp)
  | delRegexp id arg =>
    obtain rfl := Option.some.inj ht
    have hdel := hset.trans (Quiet.delRegexpForOneClient _ clnt id)
    rw [receiveDelRegexp]
    split_ifs
    · refine ⟨?_, hdel.compiled⟩
      rw [← hdel.frames]
      simp [errorFrames, bindCallback, Effect.isError]
    · exact hdel
  | startRegexp id arg =>
    obtain rfl := Option.some.inj ht
    exact ⟨rfl, hset.compiled⟩
  | endRegexp id arg =>
    obtain rfl := Option.some.inj ht
    exact ⟨rfl, hset.compiled⟩

theorem Told.quiet_line {c : ℕ} {line : Line} (h : Told compile past s) (hc : s.allClients.find c ≠ none)
    (hline : ∀ id regexp, line ≠ .addRegexp id regexp) (hone : OneRegexp s (.line c line))
    (hnone : Event.errors compile (.line c line) = []) :
    ∃ t, step compile s (.line c line) = some t ∧ Told compile (past ++ [.line c line]) t := by
  obtain ⟨t, ht, hst⟩ := (sound_step_iff (e := .line c line) h.sound hc).mpr hone
  exact ⟨t, ht, h.quiet hst (Registry.quiet_line hc hline ht) hnone⟩

/-- `Tells` says exactly which steps tell everyone of the errors that are due. -/
theorem told_step_iff (h : Told compile past s) (he : Possible s e) (hfresh : Fresh s e) :
    (∃ t, step compile s e = some t ∧ Told compile (past ++ [e]) t) ↔ Tells compile s e := by
  have hsound : (∃ t, step compile s e = some t ∧ Sound (past ++ [e]) t) ↔ OneRegexp s e :=
    sound_step_iff h.sound he
  cases e with
  | connect c =>
    obtain ⟨t, ht, hst⟩ := hsound.mpr trivial
    refine iff_of_true ⟨t, ht, h.quiet hst ?_ rfl⟩ trivial
    rw [step_connect he] at ht
    obtain rfl := Option.some.inj ht
    exact ⟨rfl, (Quiet.refl s).compiled⟩
  | line c line =>
    cases line with
    | addRegexp id regexp =>
      have hlists : s.messSndByRegexp.lists regexp c id = false := by
        by_contra hlists
        exact hfresh _ (mem_subs_of_lists (eq_true_of_ne_false hlists)) rfl
      obtain ⟨t, ht, hst⟩ := hsound.mpr fun hl => absurd (hlists.symm.trans hl) Bool.false_ne_true
      rw [← told_addRegexp_iff h he hlists hst ht]
      constructor
      · intro hexists
        obtain ⟨u, hu, htold⟩ := hexists
        obtain rfl : t = u := Option.some.inj (ht.symm.trans hu)
        exact htold
      · exact fun htold => ⟨t, ht, htold⟩
    | delRegexp id arg => exact iff_of_true (h.quiet_line he (fun _ _ => Line.noConfusion) trivial rfl) trivial
    | startRegexp id arg => exact iff_of_true (h.quiet_line he (fun _ _ => Line.noConfusion) trivial rfl) trivial
    | endRegexp id arg => exact iff_of_true (h.quiet_line he (fun _ _ => Line.noConfusion) trivial rfl) trivial
  | disconnect c =>
    obtain ⟨clnt, hclnt⟩ := Option.ne_none_iff_exists'.mp he
    constructor
    · intro hexists
      obtain ⟨t, ht, htold⟩ := hexists
      exact hsound.mp ⟨t, ht, htold.sound⟩
    · intro hwalk
      obtain ⟨t, ht, hst⟩ := hsound.mpr hwalk
      rw [Tells, Clients.srcs_of_find _ hclnt] at hwalk
      exact ⟨t, ht, h.quiet hst (Quiet.delOneClient hclnt hwalk ht) rfl⟩

end Steps

theorem told_initial (compile : Compile Code) : Told compile [] initial where
  sound := sound_initial
  frames := rfl
  compiled _ he := absurd he List.not_mem_nil
  silent _ he := absurd he List.not_mem_nil

/-- Everyone is told of the errors that are due all along a run, exactly when every step of it meets
`Tells`. -/
theorem errors_told (compile : Compile Code) (events : List Event)
    (hpossible : Machine.Guarded (step compile) (fun s e => Possible s e ∧ Fresh s e) initial events) :
    Machine.Along (step compile) (Told compile) [] initial events ↔
      Machine.Guarded (step compile) (Tells compile) initial events :=
  Machine.along_iff_guarded (I := Told compile) (fun _ _ _ h he => told_step_iff h he.1 he.2)
    (told_initial compile) hpossible

/-- A rejected regexp whose entry goes before the next client asks for it. -/
theorem errors_told_example :
    Machine.Along (step fun _ => .error (1, [])) (Told (fun _ => .error (1, []) : Compile Unit)) [] initial
      [.connect 1, .connect 2, .line 1 (.addRegexp 7 (ascii "(")), .line 1 (.delRegexp 7 []),
        .line 2 (.addRegexp 7 (ascii "(")), .disconnect 2] := by
  apply (errors_told _ _ ?_).mpr
  · decide +kernel
  · decide +kernel

/-- The second client with a rejected regexp is not told. -/
theorem errors_not_told :
    let compile : Compile Unit := fun _ => .error (1, [])
    let events : List Event := [.connect 1, .connect 2, .line 1 (.addRegexp 7 (ascii "(")),
      .line 2 (.addRegexp 7 (ascii "("))]
    Machine.Guarded (step compile) (fun s e => Possible s e ∧ Fresh s e) initial events ∧
      ∃ s, Machine.run (step compile) initial events = some s ∧
        errorFrames s = [.sendError 1 1 (errorBuffer (ascii "(") [])] ∧
        events.flatMap (Event.errors compile) = [.sendError 1 1 (errorBuffer (ascii "(") []),
          .sendError 2 1 (errorBuffer (ascii "(") [])] := by
  refine ⟨by decide +kernel, _, rfl, ?_⟩
  decide +kernel

end Ivy.Registry

import Ivy.Lib.Machine
import Ivy.Registry.Lines

/-! The dictionary and the list of clients tell the same subscriptions, until an id is
announced again while the client has it under another regexp, or a client leaves with two
neighbouring sources of one id. -/
namespace Ivy.Registry

variable {Code : Type*}

def Agree (subs : Text → List Subscriber) (srcs : ℕ → List GlobReg) : Prop :=
  ∀ c id r, ⟨c, id⟩ ∈ subs r ↔ ⟨r, id⟩ ∈ srcs c

def Coherent (s : State Code) : Prop := Agree s.messSndByRegexp.subs s.allClients.srcs

/-- The condition on a step under which the registry stays coherent. -/
def OneRegexp (s : State Code) : Event → Prop
  | .line c (.addRegexp id regexp) => s.messSndByRegexp.lists regexp c id = true →
      ∀ n ∈ s.allClients.srcs c, n.id = id → n.str_regexp = regexp
  | .disconnect c => SafeWalk ((s.allClients.srcs c).map GlobReg.id)
  | _ => True

instance (s : State Code) : ∀ e, Decidable (OneRegexp s e)
  | .line _ (.addRegexp _ _) => inferInstanceAs (Decidable (_ = true → _))
  | .line _ (.delRegexp _ _) => .isTrue trivial
  | .line _ (.startRegexp _ _) => .isTrue trivial
  | .line _ (.endRegexp _ _) => .isTrue trivial
  | .connect _ => .isTrue trivial
  | .disconnect _ => inferInstanceAs (Decidable (SafeWalk _))

structure Sound (past : List Event) (s : State Code) : Prop where
  coherent : Coherent s
  occupied : s.messSndByRegexp.Occupied
  deleted : ∀ c id arg, past.getLast? = some (.line c (.delRegexp id arg)) →
    ∀ r, ⟨c, id⟩ ∉ s.messSndByRegexp.subs r

theorem mem_subs_of_lists {d : Dictionary Code} {r : Text} {c : ℕ} {id : ℤ}
    (h : d.lists r c id = true) : ⟨c, id⟩ ∈ d.subs r := by
  unfold Dictionary.lists at h
  split at h
  · exact absurd h (by simp)
  · rename_i e he
    split at h
    · exact absurd h (by simp)
    · rename_i n hn
      have hclient : n.client = c := by simpa using List.find?_some hn
      have hid : n.id = id := by simpa using h
      rw [Dictionary.subs_of_hashFind _ he, ← hclient, ← hid]
      exact List.mem_of_find?_eq_some hn

theorem mem_filter_others {c c' : ℕ} {id id' : ℤ} {l : List Subscriber} :
    ⟨c', id'⟩ ∈ l.filter (others c id) ↔ ⟨c', id'⟩ ∈ l ∧ ¬ (c' = c ∧ id' = id) := by
  rw [List.mem_filter, others_eq_true, Ne, Subscriber.mk.injEq]

theorem map_renameSource {id : ℤ} {regexp : Text} {l : List GlobReg}
    (h : ∀ n ∈ l, n.id = id → n.str_regexp = regexp) : l.map (renameSource id regexp) = l := by
  refine (List.map_congr_left fun n hn => ?_).trans (List.map_id _)
  unfold renameSource
  split_ifs with hid
  · rw [← h n hn hid]
    rfl
  · rfl

section
variable {subs : Text → List Subscriber} {srcs : ℕ → List GlobReg} (h : Agree subs srcs)
  (c : ℕ) (id : ℤ) (regexp : Text)
include h

theorem Agree.add : Agree (fun r => if regexp = r then ⟨c, id⟩ :: subs r else subs r)
    (fun c' => if c = c' then ⟨regexp, id⟩ :: srcs c' else srcs c') := by
  intro c' id' r
  have := h c' id' r
  beta_reduce
  split_ifs with hr hc hc <;> grind

/-- Deleting an id from the regexps that the client has under it deletes it everywhere. -/
theorem Agree.del : Agree
    (fun r => if ⟨r, id⟩ ∈ srcs c then (subs r).filter (others c id) else subs r)
    (fun c' => if c = c' then (srcs c').filter fun regxpSrc => regxpSrc.id ≠ id else srcs c') := by
  intro c' id' r
  have := h c' id' r
  have := h c id r
  beta_reduce
  split_ifs <;> grind [mem_filter_others]

theorem Agree.gone : Agree (fun r => (subs r).filter (notOf c))
    (fun c' => if c = c' then [] else srcs c') := by
  intro c' id' r
  have := h c' id' r
  beta_reduce
  split_ifs with hc <;> grind [notOf]

/-- Announcing an id again keeps the views together only if the client has no other regexp
under it: the other subscription stays in the dictionary, but its source gets the new regexp. -/
theorem Agree.change_iff (hmem : ⟨c, id⟩ ∈ subs regexp) :
    Agree (fun r => if regexp = r then ⟨c, id⟩ :: (subs r).filter (others c id) else subs r)
      (fun c' => if c = c' then (srcs c').map (renameSource id regexp) else srcs c') ↔
    ∀ n ∈ srcs c, n.id = id → n.str_regexp = regexp := by
  constructor
  · rintro hagree ⟨r, id'⟩ hn rfl
    have hsub : (⟨c, id'⟩ : Subscriber) ∈ subs r := (h c id' r).mpr hn
    by_contra hr
    have hsrc := (hagree c id' r).mp (by simpa [Ne.symm hr] using hsub)
    beta_reduce at hsrc
    rw [if_pos rfl, List.mem_map] at hsrc
    obtain ⟨m, -, hm⟩ := hsrc
    unfold renameSource at hm
    split_ifs at hm with hid
    · exact hr (GlobReg.mk.inj hm).1.symm
    · exact hid (congrArg GlobReg.id hm)
  · intro hone
    have hrename := map_renameSource hone
    intro c' id' r
    have := h c' id' r
    beta_reduce
    split_ifs with hr hc hc <;> grind [mem_filter_others]

end

theorem Becomes.coherent_iff {s t : State Code} {subs : Text → List Subscriber}
    {srcs : ℕ → List GlobReg} (h : Becomes s t subs srcs) : Coherent t ↔ Agree subs srcs := by
  rw [Coherent, Agree, Agree]
  simp only [h.subs, h.srcs]

theorem Sound.of_coherent {past : List Event} {s : State Code} {e : Event} (hcoh : Coherent s)
    (hocc : s.messSndByRegexp.Occupied) (he : ∀ c id arg, e ≠ .line c (.delRegexp id arg)) :
    Sound (past ++ [e]) s where
  coherent := hcoh
  occupied := hocc
  deleted c id arg hlast := absurd (by simpa using hlast) (he c id arg)

section
variable {compile : Compile Code} {past : List Event} {s : State Code} (h : Sound past s)
include h

theorem sound_connect {c : ℕ} (hc : s.allClients.find c = none) :
    ∃ t, step compile s (.connect c) = some t ∧ Sound (past ++ [.connect c]) t := by
  refine ⟨_, step_connect hc, .of_coherent ?_ h.occupied (by simp)⟩
  intro c' id r
  rw [Clients.srcs_add]
  exact h.coherent c' id r

theorem sound_add_iff {c : ℕ} (hc : s.allClients.find c ≠ none) (id : ℤ) (regexp : Text) :
    (∃ t, step compile s (.line c (.addRegexp id regexp)) = some t ∧
      Sound (past ++ [.line c (.addRegexp id regexp)]) t) ↔
    OneRegexp s (.line c (.addRegexp id regexp)) := by
  cases hlists : s.messSndByRegexp.lists regexp c id with
  | false =>
    obtain ⟨t, ht, hbecomes⟩ := receiveLine_add compile hc hlists
    have hcoh := hbecomes.coherent_iff.mpr (h.coherent.add c id regexp)
    refine ⟨fun _ hl => absurd (hlists.symm.trans hl) (by simp), fun _ => ⟨t, ht, ?_⟩⟩
    exact .of_coherent hcoh (hbecomes.occupied h.occupied) (by simp)
  | true =>
    obtain ⟨t, ht, hbecomes⟩ := receiveLine_change compile hc hlists
    have hiff := h.coherent.change_iff c id regexp (mem_subs_of_lists hlists)
    rw [← hbecomes.coherent_iff] at hiff
    constructor
    · rintro ⟨u, hu, hsound⟩ -
      obtain rfl : t = u := Option.some.inj (ht.symm.trans hu)
      exact hiff.mp hsound.coherent
    · intro hone
      refine ⟨t, ht, .of_coherent (hiff.mpr (hone hlists)) (hbecomes.occupied h.occupied) (by simp)⟩

theorem sound_del {c : ℕ} (hc : s.allClients.find c ≠ none) (id : ℤ) (arg : Text) :
    ∃ t, step compile s (.line c (.delRegexp id arg)) = some t ∧
      Sound (past ++ [.line c (.delRegexp id arg)]) t := by
  obtain ⟨t, ht, hbecomes⟩ := receiveLine_del compile hc id arg
  have hcoh := hbecomes.coherent_iff.mpr (h.coherent.del c id)
  refine ⟨t, ht, hcoh, hbecomes.occupied h.occupied, ?_⟩
  rintro c' id' arg' hlast r
  obtain ⟨rfl, rfl, -⟩ : c = c' ∧ id = id' ∧ arg = arg' := by simpa using hlast
  rw [hcoh, hbecomes.srcs, if_pos rfl]
  simp

theorem sound_handshake {c : ℕ} (hc : s.allClients.find c ≠ none) {line : Line}
    (hline : ∃ id arg, line = .startRegexp id arg ∨ line = .endRegexp id arg) :
    ∃ t, step compile s (.line c line) = some t ∧ Sound (past ++ [.line c line]) t := by
  have hsame {t : State Code} {received : Bool} (ht : Completes c received s t) : Coherent t := by
    intro c' id r
    rw [ht.dictionary, ht.srcs]
    exact h.coherent c' id r
  obtain ⟨id, arg, rfl | rfl⟩ := hline
  · obtain ⟨t, ht, hcompletes, -⟩ := receiveLine_start compile hc id arg
    refine ⟨t, ht, .of_coherent (hsame hcompletes) ?_ (by simp)⟩
    exact hcompletes.dictionary ▸ h.occupied
  · obtain ⟨t, ht, hcompletes⟩ := receiveLine_end compile hc id arg
    refine ⟨_, ht, .of_coherent (hsame hcompletes.regenerate) ?_ (by simp)⟩
    exact hcompletes.dictionary ▸ h.occupied

theorem sound_disconnect_iff {c : ℕ} (hc : s.allClients.find c ≠ none) :
    (∃ t, step compile s (.disconnect c) = some t ∧ Sound (past ++ [.disconnect c]) t) ↔
    OneRegexp s (.disconnect c) := by
  obtain ⟨clnt, hclnt⟩ := Option.ne_none_iff_exists'.mp hc
  rw [OneRegexp, Clients.srcs_of_find _ hclnt]
  by_cases hwalk : SafeWalk (clnt.srcRegList.map GlobReg.id)
  · obtain ⟨t, ht, hsubs, hsrcs, -, hocc⟩ := delOneClient_spec hclnt hwalk
    refine ⟨fun _ => hwalk, fun _ => ⟨t, ht, .of_coherent ?_ hocc (by simp)⟩⟩
    intro c' id r
    rw [hsubs, hsrcs]
    exact h.coherent.gone c c' id r
  · refine ⟨fun ⟨t, ht, _⟩ => ?_, fun hw => absurd hw hwalk⟩
    rw [step, delOneClient_none hclnt hwalk] at ht
    exact absurd ht (by simp)

/-- `OneRegexp` says exactly which steps keep the registry sound. -/
theorem sound_step_iff {e : Event} (he : Possible s e) :
    (∃ t, step compile s e = some t ∧ Sound (past ++ [e]) t) ↔ OneRegexp s e := by
  cases e with
  | connect c => exact iff_of_true (sound_connect h he) trivial
  | line c line =>
    cases line with
    | addRegexp id regexp => exact sound_add_iff h he id regexp
    | delRegexp id arg => exact iff_of_true (sound_del h he id arg) trivial
    | startRegexp id arg => exact iff_of_true (sound_handshake h he ⟨id, arg, .inl rfl⟩) trivial
    | endRegexp id arg => exact iff_of_true (sound_handshake h he ⟨id, arg, .inr rfl⟩) trivial
  | disconnect c => exact sound_disconnect_iff h he

end

theorem sound_initial : Sound [] (initial : State Code) where
  coherent c id r := by simp [initial, Dictionary.subs, Dictionary.hashFind, Dictionary.empty,
    Keyed.find, Clients.srcs, Clients.find]
  occupied := by simp [initial, Dictionary.Occupied, Dictionary.empty]
  deleted c id arg hlast := by simp at hlast

/-- The registry is sound all along a run exactly when every step of it meets `OneRegexp`. -/
theorem registry_coherent (compile : Compile Code) (events : List Event)
    (hpossible : Machine.Guarded (step compile) Possible initial events) :
    Machine.Along (step compile) Sound [] initial events ↔
      Machine.Guarded (step compile) OneRegexp initial events :=
  Machine.along_iff_guarded (I := Sound) (fun _ _ _ h he => sound_step_iff h he) sound_initial
    hpossible

theorem registry_coherent_example :
    Machine.Along (step fun _ => .ok ()) Sound [] initial
      [.connect 1, .line 1 (.addRegexp 7 (ascii "a")), .disconnect 1] := by
  apply (registry_coherent _ _ ?_).mpr
  · decide +kernel
  · decide +kernel

/-- The subscriptions of id 1 under two regexps, after the first of them is announced again. -/
theorem registry_incoherent :
    ∃ s : State Unit, Machine.run (step fun _ => .ok ()) initial
      [.connect 1, .line 1 (.addRegexp 1 (ascii "a")), .line 1 (.addRegexp 1 (ascii "b")),
        .line 1 (.addRegexp 1 (ascii "a"))] = some s ∧ ¬ Coherent s := by
  refine ⟨_, rfl, fun h => ?_⟩
  have hsub := (h 1 1 (ascii "b")).mp (by decide)
  exact absurd hsub (by decide)

end Ivy.Registry

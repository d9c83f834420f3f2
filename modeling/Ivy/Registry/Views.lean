import Ivy.Registry.Update

/-! What each function does to the two views of the registry: the subscriptions under a
regexp and the regexps of a client. -/
namespace Ivy.Registry

variable {Code : Type*}

/-- The nodes that `delOneIvyClientFromDictionaryEntry` leaves. -/
def others (client : ℕ) (id : ℤ) (n : Subscriber) : Bool := !(n.client = client && n.id = id)

theorem others_eq_true {client : ℕ} {id : ℤ} {n : Subscriber} :
    others client id n = true ↔ n ≠ ⟨client, id⟩ := by
  cases n
  simp [others, imp_iff_not_or]

namespace Clients
variable (cs : Clients)

theorem find_modify_self (client : ℕ) (f : IvyClient → IvyClient) {clnt : IvyClient}
    (h : cs.find client = some clnt) :
    (cs.modify client f).find client = some { f clnt with client := client } := by
  have hc : clnt.client = client := Keyed.find_key h
  simp [find_modify, h, onClient, hc]

theorem find_modify_of_ne {client c : ℕ} (f : IvyClient → IvyClient) (h : client ≠ c) :
    (cs.modify client f).find c = cs.find c := by
  rw [find_modify]
  cases hc : cs.find c with
  | none => rfl
  | some clnt =>
    have hclnt : clnt.client = c := Keyed.find_key hc
    rw [Option.map_some, onClient, if_neg (by omega)]

theorem find_modify_eq_none {client c : ℕ} (f : IvyClient → IvyClient) :
    (cs.modify client f).find c = none ↔ cs.find c = none := by
  rw [find_modify, Option.map_eq_none_iff]

theorem srcs_of_find {client : ℕ} {clnt : IvyClient} (h : cs.find client = some clnt) :
    cs.srcs client = clnt.srcRegList := by rw [srcs, h, Option.elim_some]

theorem srcs_modify {client : ℕ} {f : IvyClient → IvyClient} {g : List GlobReg → List GlobReg}
    (hf : ∀ clnt, (f clnt).srcRegList = g clnt.srcRegList) (h : cs.find client ≠ none) (c : ℕ) :
    (cs.modify client f).srcs c = if client = c then g (cs.srcs c) else cs.srcs c := by
  split_ifs with hc
  · subst hc
    obtain ⟨clnt, hclnt⟩ := Option.ne_none_iff_exists'.mp h
    rw [srcs, cs.find_modify_self client f hclnt, cs.srcs_of_find hclnt]
    exact hf clnt
  · rw [srcs, cs.find_modify_of_ne f hc, srcs]

/-- Whether a client is connected, and whether its handshake is complete. -/
def status (client : ℕ) : Option Bool := (cs.find client).map (·.endRegexpReceived)

theorem status_eq_none {client : ℕ} : cs.status client = none ↔ cs.find client = none :=
  Option.map_eq_none_iff

theorem status_modify {client : ℕ} {f : IvyClient → IvyClient}
    (hf : ∀ clnt, (f clnt).endRegexpReceived = clnt.endRegexpReceived) (c : ℕ) :
    (cs.modify client f).status c = cs.status c := by
  rw [status, find_modify, status, Option.map_map]
  congr 1
  funext clnt
  simp only [Function.comp_apply, onClient]
  split_ifs
  · exact hf clnt
  · rfl

theorem srcs_modify_same {client : ℕ} {f : IvyClient → IvyClient}
    (hf : ∀ clnt, (f clnt).srcRegList = clnt.srcRegList) (c : ℕ) :
    (cs.modify client f).srcs c = cs.srcs c := by
  by_cases h : cs.find client = none
  · by_cases hc : client = c
    · subst hc
      rw [srcs, (cs.find_modify_eq_none f).mpr h, srcs, h]
    · rw [srcs, cs.find_modify_of_ne f hc, srcs]
  · rw [cs.srcs_modify (g := id) hf h]
    exact ite_id _

theorem srcs_add {client : ℕ} (h : cs.find client = none) (c : ℕ) :
    (cs.add client h).srcs c = cs.srcs c := by
  rw [srcs, find_add, srcs]
  split_ifs with hc
  · rw [← hc, h]
    rfl
  · rfl

theorem srcs_remove (client c : ℕ) :
    (cs.remove client).srcs c = if client = c then [] else cs.srcs c := by
  rw [srcs, find_remove]
  split_ifs <;> rfl

end Clients

section Dictionary
variable (s : State Code) (compile : Compile Code) (regexp : Text) (client : IvyClient)

@[simp] theorem regenerate_messSndByRegexp :
    (regenerateRegPtrArrayCache s).messSndByRegexp = s.messSndByRegexp := rfl

@[simp] theorem regenerate_allClients :
    (regenerateRegPtrArrayCache s).allClients = s.allClients := rfl

@[simp] theorem addReg_messSndByRegexp (newReg : ℕ) :
    (addRegToPtrArrayCache s newReg).messSndByRegexp = s.messSndByRegexp := by
  simp only [addRegToPtrArrayCache]
  split_ifs <;> rfl

@[simp] theorem addReg_allClients (newReg : ℕ) :
    (addRegToPtrArrayCache s newReg).allClients = s.allClients := by
  simp only [addRegToPtrArrayCache]
  split_ifs <;> rfl

@[simp] theorem delFromDictionary_allClients :
    (delRegexpForOneClientFromDictionary s regexp client).allClients = s.allClients := by
  unfold delRegexpForOneClientFromDictionary
  cases s.messSndByRegexp.hashFind regexp <;> rfl

theorem delFromDictionary_subs (r : Text) :
    (delRegexpForOneClientFromDictionary s regexp client).messSndByRegexp.subs r =
      if regexp = r then (s.messSndByRegexp.subs r).filter (others client.client client.id)
      else s.messSndByRegexp.subs r := by
  simp only [delRegexpForOneClientFromDictionary, regenerate_messSndByRegexp]
  split
  · rename_i hnone
    split_ifs with hr
    · subst hr
      simp [Dictionary.subs, hnone]
    · rfl
  · rename_i e he
    exact Dictionary.subs_delOneIvyClientFromDictionaryEntry _ he _ _ r

theorem addEntry_messSndByRegexp (h : s.messSndByRegexp.hashFind regexp = none) :
    (addEntry compile s regexp client h).messSndByRegexp =
      s.messSndByRegexp.hashAdd regexp (compile regexp).toOption h := by
  simp only [addEntry]
  split_ifs <;> simp

@[simp] theorem addEntry_allClients (h : s.messSndByRegexp.hashFind regexp = none) :
    (addEntry compile s regexp client h).allClients = s.allClients := by
  simp only [addEntry]
  split_ifs <;> simp

@[simp] theorem addToDictionary_allClients :
    (addRegexpToDictionary compile s regexp client).allClients = s.allClients := by
  simp only [addRegexpToDictionary]
  split
  · rfl
  · exact addEntry_allClients _ _ _ _ _

theorem addToDictionary_messSndByRegexp :
    (addRegexpToDictionary compile s regexp client).messSndByRegexp =
      addToClientList (findOrAdd s.messSndByRegexp regexp (compile regexp).toOption).1
        (findOrAdd s.messSndByRegexp regexp (compile regexp).toOption).2
        ⟨client.client, client.id⟩ := by
  unfold addRegexpToDictionary
  split
  · rename_i e he
    rw [findOrAdd_of_some he]
  · rename_i hnone
    rw [findOrAdd_of_none hnone]
    dsimp only
    rw [addEntry_messSndByRegexp]

theorem addToDictionary_subs (r : Text) :
    (addRegexpToDictionary compile s regexp client).messSndByRegexp.subs r =
      if regexp = r then ⟨client.client, client.id⟩ :: s.messSndByRegexp.subs r
      else s.messSndByRegexp.subs r := by
  obtain ⟨⟨e, he, hptr⟩, hsubs⟩ :=
    s.messSndByRegexp.findOrAdd_spec regexp (compile regexp).toOption
  rw [addToDictionary_messSndByRegexp, ← hptr, Dictionary.subs_addToClientList _ he, hsubs]

theorem changeInDictionary_subs (r : Text) :
    (changeRegexpInDictionary compile s regexp client).messSndByRegexp.subs r =
      if regexp = r then
        ⟨client.client, client.id⟩ ::
          (s.messSndByRegexp.subs r).filter (others client.client client.id)
      else s.messSndByRegexp.subs r := by
  rw [changeRegexpInDictionary, addToDictionary_subs, delFromDictionary_subs]
  split_ifs <;> rfl

end Dictionary

section Occupied
variable {s : State Code} (compile : Compile Code) (regexp : Text) (client : IvyClient)

theorem occupied_delOneIvyClientFromDictionaryEntry {d : Dictionary Code} (h : d.Occupied)
    (e : MsgSndDict Code) (c : ℕ) (id : ℤ) :
    (delOneIvyClientFromDictionaryEntry d e c id).Occupied := by
  intro e' he'
  obtain ⟨e₀, he₀, hf⟩ := List.mem_filterMap.mp he'
  simp only [onEntry, pruneEntry] at hf
  split_ifs at hf with hptr hempty
  · obtain rfl := Option.some.inj hf
    exact hempty
  · obtain rfl := Option.some.inj hf
    exact h e₀ he₀

theorem occupied_delOneClientFromDictionary (d : Dictionary Code) (c : ℕ) :
    (delOneClientFromDictionary d c).Occupied := by
  intro e' he'
  obtain ⟨e₀, he₀, hf⟩ := List.mem_filterMap.mp he'
  simp only [pruneEntry] at hf
  split_ifs at hf with hempty
  obtain rfl := Option.some.inj hf
  exact hempty

/-- The new entry alone is empty, and it gets its client. -/
theorem occupied_addToClientList {d : Dictionary Code} {ptr : ℕ}
    (h : ∀ e ∈ d.entries, e.ptr = ptr ∨ e.clientList ≠ []) (n : Subscriber) :
    (addToClientList d ptr n).Occupied := by
  intro e' he'
  obtain ⟨e₀, he₀, hf⟩ := List.mem_filterMap.mp he'
  simp only [onEntry, addClient] at hf
  split_ifs at hf with hptr <;> obtain rfl := Option.some.inj hf
  · exact List.cons_ne_nil _ _
  · exact (h e₀ he₀).resolve_left hptr

theorem occupied_delFromDictionary (h : s.messSndByRegexp.Occupied) :
    (delRegexpForOneClientFromDictionary s regexp client).messSndByRegexp.Occupied := by
  simp only [delRegexpForOneClientFromDictionary, regenerate_messSndByRegexp]
  split
  · exact h
  · exact occupied_delOneIvyClientFromDictionaryEntry h _ _ _

theorem occupied_addToDictionary (h : s.messSndByRegexp.Occupied) :
    (addRegexpToDictionary compile s regexp client).messSndByRegexp.Occupied := by
  rw [addToDictionary_messSndByRegexp]
  apply occupied_addToClientList
  intro e he
  unfold findOrAdd at he ⊢
  split at he
  · exact .inr (h e he)
  · rcases List.mem_append.mp he with he | he
    · exact .inr (h e he)
    · rw [List.mem_singleton.mp he]
      exact .inl rfl

end Occupied

/-- From `s` to `t` the registry gets new views and the same clients. -/
structure Becomes (s t : State Code) (subs : Text → List Subscriber) (srcs : ℕ → List GlobReg) :
    Prop where
  subs : ∀ r, t.messSndByRegexp.subs r = subs r
  srcs : ∀ c, t.allClients.srcs c = srcs c
  status : ∀ c, t.allClients.status c = s.allClients.status c
  occupied : s.messSndByRegexp.Occupied → t.messSndByRegexp.Occupied

section Functions
variable (s : State Code) (compile : Compile Code) (regexp : Text) (client : IvyClient)

/-- `addRegexp` adds one subscription to each view. -/
theorem addRegexp_spec (h : s.allClients.find client.client ≠ none) :
    ∃ t, addRegexp compile s regexp client = some t ∧ Becomes s t
      (fun r => if regexp = r then ⟨client.client, client.id⟩ :: s.messSndByRegexp.subs r
        else s.messSndByRegexp.subs r)
      (fun c => if client.client = c then ⟨regexp, client.id⟩ :: s.allClients.srcs c
        else s.allClients.srcs c) := by
  obtain ⟨clnt, hclnt⟩ := Option.ne_none_iff_exists'.mp h
  simp only [addRegexp, addToDictionary_allClients, hclnt]
  exact ⟨_, rfl, addToDictionary_subs s compile regexp client,
    s.allClients.srcs_modify (fun _ => rfl) h, s.allClients.status_modify fun _ => rfl,
    occupied_addToDictionary compile regexp client⟩

def renameSource (id : ℤ) (regexp : Text) (regxpSrc : GlobReg) : GlobReg :=
  if regxpSrc.id = id then { regxpSrc with str_regexp := regexp } else regxpSrc

/-- `changeRegexp` moves the subscription to the front of its entry, and gives the regexp to
every source of the id. -/
theorem changeRegexp_spec (h : s.allClients.find client.client ≠ none) :
    Becomes s (changeRegexp compile s regexp client)
      (fun r => if regexp = r then
          ⟨client.client, client.id⟩ ::
            (s.messSndByRegexp.subs r).filter (others client.client client.id)
        else s.messSndByRegexp.subs r)
      (fun c => if client.client = c then (s.allClients.srcs c).map (renameSource client.id regexp)
        else s.allClients.srcs c) := by
  have hclients : (changeRegexpInDictionary compile s regexp client).allClients = s.allClients := by
    rw [changeRegexpInDictionary, addToDictionary_allClients, delFromDictionary_allClients]
  refine ⟨changeInDictionary_subs s compile regexp client, fun c => ?_, fun c => ?_, fun hocc => ?_⟩
  · simp only [changeRegexp, bindCallback, hclients]
    exact s.allClients.srcs_modify (g := List.map (renameSource client.id regexp)) (fun _ => rfl) h c
  · simp only [changeRegexp, bindCallback, hclients]
    apply Clients.status_modify
    exact fun _ => rfl
  · exact occupied_addToDictionary compile regexp client
      (occupied_delFromDictionary regexp client hocc)

theorem delSourcesFromDictionary_spec (sources : List GlobReg) :
    let t := sources.foldl
      (fun s regxpSrc => delRegexpForOneClientFromDictionary s regxpSrc.str_regexp client) s
    (∀ r, t.messSndByRegexp.subs r =
      if r ∈ sources.map (·.str_regexp) then
        (s.messSndByRegexp.subs r).filter (others client.client client.id)
      else s.messSndByRegexp.subs r) ∧
    t.allClients = s.allClients ∧ (s.messSndByRegexp.Occupied → t.messSndByRegexp.Occupied) := by
  induction sources generalizing s with
  | nil => exact ⟨fun r => rfl, rfl, fun h => h⟩
  | cons n sources ih =>
    obtain ⟨hsubs, hclients, hocc⟩ :=
      ih (delRegexpForOneClientFromDictionary s n.str_regexp client)
    refine ⟨fun r => ?_, hclients.trans (delFromDictionary_allClients s _ client), fun h =>
      hocc (occupied_delFromDictionary _ client h)⟩
    have hr := hsubs r
    rw [delFromDictionary_subs] at hr
    rw [List.foldl_cons, hr, List.map_cons]
    by_cases hn : n.str_regexp = r <;> by_cases hmem : r ∈ sources.map (·.str_regexp) <;>
      simp [hn, hmem, Ne.symm, List.filter_filter]

/-- `delRegexpForOneClient` unsubscribes the last id received from the regexps of `id`. -/
theorem delRegexpForOneClient_spec (id : ℤ) (h : s.allClients.find client.client ≠ none) :
    Becomes s (delRegexpForOneClient s client id).1
      (fun r => if ⟨r, id⟩ ∈ s.allClients.srcs client.client then
          (s.messSndByRegexp.subs r).filter (others client.client client.id)
        else s.messSndByRegexp.subs r)
      (fun c => if client.client = c then (s.allClients.srcs c).filter fun regxpSrc => regxpSrc.id ≠ id
        else s.allClients.srcs c) := by
  obtain ⟨clnt, hclnt⟩ := Option.ne_none_iff_exists'.mp h
  obtain ⟨hsubs, hclients, hocc⟩ := delSourcesFromDictionary_spec s client
    (clnt.srcRegList.filter fun regxpSrc => regxpSrc.id = id)
  simp only [delRegexpForOneClient, hclnt]
  refine ⟨fun r => ?_, fun c => ?_, fun c => ?_, hocc⟩
  · have hmem : r ∈ (clnt.srcRegList.filter fun regxpSrc => regxpSrc.id = id).map (·.str_regexp) ↔
        (⟨r, id⟩ : GlobReg) ∈ clnt.srcRegList := by
      rw [List.mem_map]
      constructor
      · rintro ⟨n, hn, rfl⟩
        obtain ⟨hn, hid⟩ := List.mem_filter.mp hn
        exact of_decide_eq_true hid ▸ hn
      · exact fun hmem => ⟨_, List.mem_filter.mpr ⟨hmem, decide_eq_true rfl⟩, rfl⟩
    rw [hsubs, s.allClients.srcs_of_find hclnt]
    exact if_congr hmem rfl rfl
  · rw [hclients]
    exact s.allClients.srcs_modify (g := List.filter fun regxpSrc => regxpSrc.id ≠ id)
      (fun _ => rfl) h c
  · rw [hclients]
    apply Clients.status_modify
    exact fun _ => rfl

end Functions

/-- No node of the walk of `delOneClient` is followed by one with the same id, the nodes of
the ids before it being gone. -/
inductive SafeWalk : List ℤ → Prop
  | nil : SafeWalk []
  | cons {id : ℤ} {rest : List ℤ} : rest.head? ≠ some id → SafeWalk (rest.filter (· ≠ id)) →
      SafeWalk (id :: rest)

def SafeWalk.decide : ∀ (n : ℕ) (ids : List ℤ), ids.length ≤ n → Decidable (SafeWalk ids)
  | _, [], _ => .isTrue .nil
  | n + 1, id :: rest, h =>
    if hhead : rest.head? = some id then .isFalse fun hwalk => by
      cases hwalk
      contradiction
    else
      match SafeWalk.decide n (rest.filter (· ≠ id))
        (Nat.le_trans (List.length_filter_le _ _) (Nat.le_of_succ_le_succ h)) with
      | .isTrue hwalk => .isTrue (.cons hhead hwalk)
      | .isFalse hnot => .isFalse fun hwalk => by
        cases hwalk
        contradiction

instance (ids : List ℤ) : Decidable (SafeWalk ids) := SafeWalk.decide ids.length ids (Nat.le_refl _)

section Walk
variable {s : State Code} {client : IvyClient}

/-- On a safe walk the loop runs to its end, and keeps what each deletion keeps. -/
theorem delSources_keeps {P : State Code → Prop}
    (hstep : ∀ s id, P s → P (delRegexpForOneClient s client id).1) {ids : List ℤ}
    (hwalk : SafeWalk ids) {fuel : ℕ} (hfuel : ids.length ≤ fuel) (hP : P s) :
    ∃ t, delSources client fuel s ids = some t ∧ P t := by
  induction hwalk generalizing fuel s with
  | nil => exact ⟨s, by cases fuel <;> rfl, hP⟩
  | @cons id rest hhead _ ih =>
    obtain ⟨fuel, rfl⟩ : ∃ n, fuel = n + 1 := ⟨fuel - 1, by simp at hfuel; omega⟩
    have hlen : (rest.filter (· ≠ id)).length ≤ fuel :=
      Nat.le_trans (List.length_filter_le _ _) (Nat.le_of_succ_le_succ hfuel)
    simp only [delSources, if_neg hhead]
    exact ih hlen (hstep s id hP)

theorem delSources_none {ids : List ℤ} (hwalk : ¬ SafeWalk ids) (fuel : ℕ) (s : State Code) :
    delSources client fuel s ids = none := by
  induction fuel generalizing ids s with
  | zero =>
    cases ids with
    | nil => exact absurd .nil hwalk
    | cons id rest => rfl
  | succ fuel ih =>
    cases ids with
    | nil => exact absurd .nil hwalk
    | cons id rest =>
      simp only [delSources]
      split_ifs with hhead
      · rfl
      · exact ih (fun h => hwalk (.cons hhead h)) _

def notOf (c : ℕ) (n : Subscriber) : Bool := !(n.client = c)

/-- The two states differ in what belongs to one client. -/
structure SameButFor (c : ℕ) (s t : State Code) : Prop where
  subs : ∀ r, (t.messSndByRegexp.subs r).filter (notOf c) = (s.messSndByRegexp.subs r).filter (notOf c)
  srcs : ∀ c', c ≠ c' → t.allClients.srcs c' = s.allClients.srcs c'
  status : ∀ c', t.allClients.status c' = s.allClients.status c'

theorem filter_others (c : ℕ) (id : ℤ) (l : List Subscriber) :
    (l.filter (others c id)).filter (notOf c) = l.filter (notOf c) := by
  rw [List.filter_filter]
  congr 1
  funext n
  by_cases hn : n.client = c <;> simp [others, notOf, hn]

theorem delRegexpForOneClient_sameButFor {t : State Code} (id : ℤ)
    (h : t.allClients.find client.client ≠ none) (hsame : SameButFor client.client s t) :
    SameButFor client.client s (delRegexpForOneClient t client id).1 := by
  have hdel := delRegexpForOneClient_spec t client id h
  constructor
  · intro r
    rw [hdel.subs, ← hsame.subs]
    split_ifs
    · exact filter_others _ _ _
    · rfl
  · intro c' hc'
    rw [hdel.srcs, if_neg hc', hsame.srcs c' hc']
  · exact fun c' => (hdel.status c').trans (hsame.status c')

/-- After a safe walk `delOneClient` leaves nothing of the client. -/
theorem delOneClient_spec {c : ℕ} {clnt : IvyClient} (hclnt : s.allClients.find c = some clnt)
    (hwalk : SafeWalk (clnt.srcRegList.map GlobReg.id)) :
    ∃ t, delOneClient s c = some t ∧
      (∀ r, t.messSndByRegexp.subs r = (s.messSndByRegexp.subs r).filter (notOf c)) ∧
      (∀ c', t.allClients.srcs c' = if c = c' then [] else s.allClients.srcs c') ∧
      (∀ c', t.allClients.status c' = if c = c' then none else s.allClients.status c') ∧
      t.messSndByRegexp.Occupied := by
  have hc : clnt.client = c := Keyed.find_key hclnt
  subst hc
  have hkeeps : ∀ t id, SameButFor clnt.client s t →
      SameButFor clnt.client s (delRegexpForOneClient t clnt id).1 := by
    intro t id hsame
    refine delRegexpForOneClient_sameButFor id ?_ hsame
    rw [Ne, ← Clients.status_eq_none, hsame.status, Clients.status_eq_none, hclnt]
    exact Option.some_ne_none clnt
  obtain ⟨t, ht, hsame⟩ := delSources_keeps hkeeps hwalk (Nat.le_refl _)
    ⟨fun _ => rfl, fun _ _ => rfl, fun _ => rfl⟩
  refine ⟨_, by rw [delOneClient, delClientNode, hclnt]; simp only [ht]; rfl, fun r => ?_,
    fun c' => ?_, fun c' => ?_, ?_⟩
  · rw [regenerate_messSndByRegexp, ← hsame.subs]
    exact Dictionary.subs_delOneClientFromDictionary _ _ _
  · rw [regenerate_allClients, Clients.srcs_remove]
    split_ifs with hc'
    · rfl
    · exact hsame.srcs c' hc'
  · rw [regenerate_allClients, Clients.status, Clients.find_remove]
    split_ifs with hc'
    · rfl
    · exact hsame.status c'
  · exact occupied_delOneClientFromDictionary _ _

theorem delOneClient_none {c : ℕ} {clnt : IvyClient} (hclnt : s.allClients.find c = some clnt)
    (hwalk : ¬ SafeWalk (clnt.srcRegList.map GlobReg.id)) : delOneClient s c = none := by
  simp only [delOneClient, delClientNode, hclnt, delSources_none hwalk, Option.map_none]

end Walk
end Ivy.Registry

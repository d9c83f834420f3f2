import Ivy.Hash.Runs
import Ivy.Lib.Simulation
import Ivy.Registry.Lines

/-! The calls by which the registry works on its dictionary. Made on the hash table in the order in which
the functions of `ivy.c` make them, they keep it equal to the dictionary of the registry. -/
namespace Ivy.Hash
open Registry

variable {Code : Type*}

def onListAll (d : Dictionary Code) (es : List (DictEvent Code)) : Dictionary Code := es.foldl DictEvent.onList d

section Calls
variable (compile : Compile Code) (s : State Code)

def addCall (regexp : Text) (client : IvyClient) : DictEvent Code :=
  .addRegexpToDictionary regexp (compile regexp).toOption ⟨client.client, client.id⟩

def delCall (regexp : Text) (client : IvyClient) : DictEvent Code :=
  .delRegexpForOneClientFromDictionary regexp client.client client.id

def addOrChangeCalls (regexp : Text) (client : IvyClient) : List (DictEvent Code) :=
  if s.messSndByRegexp.lists regexp client.client client.id then
    [delCall regexp client, addCall compile regexp client]
  else [addCall compile regexp client]

def delRegexpCalls (client : IvyClient) (id : ℤ) : List (DictEvent Code) :=
  match s.allClients.find client.client with
  | none => []
  | some client_itr =>
    (client_itr.srcRegList.filter fun regxpSrc => regxpSrc.id = id).map fun regxpSrc =>
      delCall regxpSrc.str_regexp client

def delSourcesCalls (client : IvyClient) : ℕ → State Code → List ℤ → List (DictEvent Code)
  | fuel + 1, s, id :: rest => delRegexpCalls s client id ++
    delSourcesCalls client fuel (delRegexpForOneClient s client id).1 (rest.filter (· ≠ id))
  | _, _, _ => []

def delOneClientCalls (client : ℕ) : List (DictEvent Code) :=
  (match s.allClients.find client with
  | none => []
  | some client_itr =>
    let ids := client_itr.srcRegList.map GlobReg.id
    delSourcesCalls client_itr ids.length s ids) ++ [.delOneClient client]

def calls : Event → List (DictEvent Code)
  | .connect _ => []
  | .line client line =>
    let s := setId s client line.id
    match s.allClients.find client with
    | none => []
    | some clnt =>
      match line with
      | .addRegexp _ regexp => addOrChangeCalls compile s regexp clnt
      | .delRegexp id _ => delRegexpCalls s clnt id
      | _ => []
  | .disconnect client => delOneClientCalls s client

end Calls

section Same
variable {compile : Compile Code} {s t : State Code} {regexp : Text} {client : IvyClient}

theorem addCall_onList : (addCall compile regexp client).onList s.messSndByRegexp =
    (addRegexpToDictionary compile s regexp client).messSndByRegexp := by
  rw [addToDictionary_messSndByRegexp]
  rfl

theorem delCall_onList : (delCall regexp client).onList s.messSndByRegexp =
    (delRegexpForOneClientFromDictionary s regexp client).messSndByRegexp := by
  rw [delCall, DictEvent.onList, delRegexpForOneClientFromDictionary, regenerate_messSndByRegexp]
  cases hfind : s.messSndByRegexp.hashFind regexp with
  | none => simp only [Option.elim_none]
  | some e => simp only [Option.elim_some]

theorem addOrChangeCalls_onList (h : addOrChangeRegexp compile s regexp client = some t) :
    onListAll s.messSndByRegexp (addOrChangeCalls compile s regexp client) = t.messSndByRegexp := by
  unfold addOrChangeRegexp at h
  unfold addOrChangeCalls onListAll
  split_ifs at h ⊢ with hlists
  · obtain rfl := Option.some.inj h
    rw [List.foldl_cons, List.foldl_cons, List.foldl_nil, delCall_onList, addCall_onList]
    rfl
  · rw [List.foldl_cons, List.foldl_nil, addCall_onList]
    simp only [addRegexp] at h
    split at h
    · contradiction
    · obtain rfl := Option.some.inj h
      rfl

theorem delRegexpCalls_onList (s : State Code) (client : IvyClient) (id : ℤ) :
    onListAll s.messSndByRegexp (delRegexpCalls s client id) =
      (delRegexpForOneClient s client id).1.messSndByRegexp := by
  unfold delRegexpCalls delRegexpForOneClient onListAll
  cases s.allClients.find client.client with
  | none => rfl
  | some client_itr =>
    -- each node is deleted from the dictionary in the order of the list
    have hnodes : ∀ (sources : List GlobReg) (s : State Code),
        (sources.map fun regxpSrc => delCall regxpSrc.str_regexp client).foldl DictEvent.onList s.messSndByRegexp =
        (sources.foldl (fun s regxpSrc => delRegexpForOneClientFromDictionary s regxpSrc.str_regexp client)
          s).messSndByRegexp := by
      intro sources
      induction sources with
      | nil => exact fun _ => rfl
      | cons n sources ih =>
        intro s
        rw [List.map_cons, List.foldl_cons, List.foldl_cons, delCall_onList, ih]
    exact hnodes _ s

theorem delSourcesCalls_onList {ids : List ℤ} {fuel : ℕ} (h : delSources client fuel s ids = some t) :
    onListAll s.messSndByRegexp (delSourcesCalls client fuel s ids) = t.messSndByRegexp := by
  induction fuel generalizing s ids with
  | zero =>
    cases ids with
    | nil =>
      obtain rfl := Option.some.inj h
      rfl
    | cons id rest => contradiction
  | succ fuel ih =>
    cases ids with
    | nil =>
      obtain rfl := Option.some.inj h
      rfl
    | cons id rest =>
      simp only [delSources] at h
      split_ifs at h
      have hrest := ih h
      have hid := delRegexpCalls_onList s client id
      unfold onListAll at hrest hid ⊢
      rw [delSourcesCalls, List.foldl_append, hid, hrest]

theorem delOneClientCalls_onList {c : ℕ} (h : delOneClient s c = some t) :
    onListAll s.messSndByRegexp (delOneClientCalls s c) = t.messSndByRegexp := by
  obtain ⟨u, hu, rfl⟩ := Option.map_eq_some_iff.mp h
  rw [regenerate_messSndByRegexp]
  unfold delClientNode at hu
  unfold delOneClientCalls onListAll
  rw [List.foldl_append, List.foldl_cons, List.foldl_nil]
  change Registry.delOneClientFromDictionary _ c = Registry.delOneClientFromDictionary u.messSndByRegexp c
  cases hfind : s.allClients.find c with
  | none =>
    rw [hfind] at hu
    obtain rfl := Option.some.inj hu
    rfl
  | some client_itr =>
    rw [hfind] at hu
    obtain ⟨v, hv, rfl⟩ := Option.map_eq_some_iff.mp hu
    have hsources := delSourcesCalls_onList hv
    exact congrArg (Registry.delOneClientFromDictionary · c) hsources

/-- The calls do to the dictionary what the event does. -/
theorem calls_onList {e : Event} (h : Registry.step compile s e = some t) :
    onListAll s.messSndByRegexp (calls compile s e) = t.messSndByRegexp := by
  cases e with
  | connect c =>
    simp only [Registry.step] at h
    split at h
    · obtain rfl := Option.some.inj h
      rfl
    · contradiction
  | line c line =>
    simp only [Registry.step, receiveLine] at h
    unfold calls
    cases hfind : (setId s c line.id).allClients.find c with
    | none =>
      rw [hfind] at h
      contradiction
    | some clnt =>
      rw [hfind] at h
      dsimp only
      rw [hfind]
      cases line with
      | addRegexp id regexp =>
        have hadd : addOrChangeRegexp compile (setId s c id) regexp clnt = some t := h
        exact (addOrChangeCalls_onList hadd :)
      | delRegexp id arg =>
        obtain rfl := Option.some.inj h
        have hdel := delRegexpCalls_onList (setId s c id) clnt id
        dsimp only [receiveDelRegexp]
        split_ifs
        · exact hdel
        · exact hdel
      | startRegexp id arg =>
        obtain rfl := Option.some.inj h
        rfl
      | endRegexp id arg =>
        obtain rfl := Option.some.inj h
        rfl
  | disconnect c => exact delOneClientCalls_onList h

end Same

section Run
variable (hashFcn : Text → UInt32) (compile : Compile Code)

def registryStep : State Code × DictMemory Code → Event → Option (State Code × DictMemory Code) :=
  Machine.both (Registry.step compile) (DictEvent.step hashFcn) (calls compile)

/-- Each call has room. -/
def CallsFit (sm : State Code × DictMemory Code) (e : Event) : Prop :=
  Machine.Guarded (DictEvent.step hashFcn) (fun m e => e.Fits m) sm.2 (calls compile sm.1 e)

instance (sm : State Code × DictMemory Code) (e : Event) : Decidable (CallsFit hashFcn compile sm e) :=
  inferInstanceAs (Decidable (Machine.Guarded _ _ _ _))

variable {hashFcn : Text → UInt32} {compile : Compile Code}

theorem calls_refines {m : DictMemory Code} {d : Dictionary Code} (h : Refines hashFcn m d) (hshort : Short m.hash)
    {es : List (DictEvent Code)} (hfits : Machine.Guarded (DictEvent.step hashFcn) (fun m e => e.Fits m) m es) :
    ∃ m', Machine.run (DictEvent.step hashFcn) m es = some m' ∧ Refines hashFcn m' (onListAll d es) ∧ Short m'.hash := by
  apply Machine.run_history (I := fun past m => Refines hashFcn m (onListAll d past) ∧ Short m.hash) ⟨h, hshort⟩ ?_ hfits
  intro past m e hI hG
  obtain ⟨m', hm', hrefines, hshort'⟩ := e.step_refines hI.1 hI.2 hG
  unfold onListAll
  rw [List.foldl_concat]
  exact ⟨m', hm', hrefines, hshort'⟩

private def Serves (hashFcn : Text → UInt32) (s : State Code) (m : DictMemory Code) : Prop :=
  Refines hashFcn m s.messSndByRegexp ∧ Short m.hash

private theorem step_serves {s : State Code} {m : DictMemory Code} {e : Event} (h : Serves hashFcn s m)
    (hstep : Registry.step compile s e ≠ none) (hfits : CallsFit hashFcn compile (s, m) e) :
    ∃ t m', Registry.step compile s e = some t ∧
      Machine.run (DictEvent.step hashFcn) m (calls compile s e) = some m' ∧ Serves hashFcn t m' := by
  obtain ⟨t, ht⟩ := Option.ne_none_iff_exists'.mp hstep
  obtain ⟨m', hm', hrefines, hshort⟩ := calls_refines h.1 h.2 hfits
  rw [calls_onList ht] at hrefines
  exact ⟨t, m', ht, hm', hrefines, hshort⟩

/-- In every run of the registry its hash table holds what its dictionary does. -/
theorem registry_hash_run {events : List Event} (hpossible : Machine.Guarded (registryStep hashFcn compile)
    (fun sm e => Registry.step compile sm.1 e ≠ none ∧ CallsFit hashFcn compile sm e) (initial, .null) events) :
    ∃ s m, Machine.run (Registry.step compile) initial events = some s ∧
      Machine.run (DictEvent.step hashFcn) .null (Machine.labels (Registry.step compile) (calls compile) initial events) =
        some m ∧
      Refines hashFcn m s.messSndByRegexp ∧
      ∀ regexp, hashFind hashFcn m.hash regexp = some ((s.messSndByRegexp.hashFind regexp).map (·.ptr)) := by
  have hnull : Serves hashFcn (initial : State Code) .null :=
    ⟨refines_null, fun _ htbl => absurd htbl (Option.not_mem_none _)⟩
  obtain ⟨s, m, hs, hm, hrefines, -⟩ :=
    Machine.simulation hnull (fun s m e hserves hG => step_serves hserves hG.1 hG.2) hpossible
  exact ⟨s, m, hs, hm, hrefines, hrefines.hashFind⟩

/-- The first client takes one of its regexps back and leaves. -/
private def changes : List Event :=
  [.connect 1, .connect 2, .line 1 (.addRegexp 0 (ascii "^a")), .line 2 (.addRegexp 0 (ascii "^a")),
    .line 1 (.addRegexp 1 (ascii "^b")), .line 2 (.addRegexp 1 (ascii "^c")), .line 1 (.delRegexp 1 []),
    .disconnect 1]

theorem registry_hash_run_example : ∃ (s : State Unit) (m : DictMemory Unit),
    Machine.run (Registry.step fun _ => .ok ()) initial changes = some s ∧
    hashFind hashJen m.hash (ascii "^a") = some ((s.messSndByRegexp.hashFind (ascii "^a")).map (·.ptr)) ∧
    s.messSndByRegexp.entries.map (·.regexp_src) = [ascii "^a", ascii "^c"] := by
  have hpossible : Machine.Guarded (registryStep hashJen fun _ => .ok ())
      (fun sm e => Registry.step (fun _ => .ok ()) sm.1 e ≠ none ∧ CallsFit hashJen (fun _ => .ok ()) sm e)
      ((initial : State Unit), .null) changes := by
    decide +kernel
  have hentries : ∀ s ∈ Machine.run (Registry.step fun _ => .ok ()) (initial : State Unit) changes,
      s.messSndByRegexp.entries.map (·.regexp_src) = [ascii "^a", ascii "^c"] := by
    decide +kernel
  obtain ⟨s, m, hs, -, -, hfind⟩ := registry_hash_run hpossible
  exact ⟨s, m, hs, hfind _, hentries s hs⟩

end Run
end Ivy.Hash

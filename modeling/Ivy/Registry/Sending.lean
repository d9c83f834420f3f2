import Ivy.Lib.Machine
import Ivy.Registry.Cache

/-! Sending over the cache reaches every ready client as sending over the dictionary does. -/
namespace Ivy.Registry

variable {Code : Type*}

/-- What PCRE2 finds: the captured groups, if the message matches. -/
abbrev Exec (Code : Type*) := Code → Text → Option (List (Option Text))

/-- The subscriptions that `RegexpCall` sends a frame to, with the captures. -/
def regexpCall (exec : Exec Code) (message : Text) (msg : MsgSndDict Code) :
    List (Subscriber × List (Option Text)) :=
  match msg.binding.bind fun code => exec code message with
  | none => []
  | some captures => msg.clientList.map fun clnt => (clnt, captures)

/-- The loop of `IvySendMsg` over `messSndByRegexp`. -/
def sendOverDictionary (exec : Exec Code) (message : Text) (s : State Code) :
    List (Subscriber × List (Option Text)) :=
  s.messSndByRegexp.entries.flatMap (regexpCall exec message)

/-- The entry that a slot points to; a slot without a live entry has none. -/
def entryAt (s : State Code) (slot : ℕ) : Option (MsgSndDict Code) :=
  (s.ompDictCache.msgPtrArray slot).bind fun ptr => Keyed.find (·.ptr) s.messSndByRegexp.entries ptr

/-- The loop of `IvySendMsg` over `ompDictCache`, undefined if a slot has no entry. -/
def sendOverCache (exec : Exec Code) (message : Text) (s : State Code) :
    Option (List (Subscriber × List (Option Text))) :=
  ((List.range s.ompDictCache.numPtr).mapM (entryAt s)).map (·.flatMap (regexpCall exec message))

/-- The cache serves the ready clients. -/
structure CacheSound (s : State Code) : Prop where
  current : ∃ ptrs : List ℕ,
    (List.range s.ompDictCache.numPtr).map s.ompDictCache.msgPtrArray = ptrs.map some ∧
      ptrs.Nodup ∧ ∀ ptr ∈ ptrs, ptr ∈ s.messSndByRegexp.addresses
  complete : ∀ e ∈ s.messSndByRegexp.entries, (∃ n ∈ e.clientList, Ready s n.client) →
    ∃ i < s.ompDictCache.numPtr, s.ompDictCache.msgPtrArray i = some e.ptr
  sends : ∀ exec message, ∃ sent, sendOverCache exec message s = some sent ∧
    ∀ c, Ready s c → sent.filter (·.1.client = c) =
      (sendOverDictionary exec message s).filter (·.1.client = c)

def CacheWarm (s : State Code) : Prop := Warm s.messSndByRegexp s.ompDictCache (Ready s)

section Sound
variable {s : State Code} (h : CacheWarm s)
include h

theorem CacheWarm.slots_eq : (List.range s.ompDictCache.numPtr).map s.ompDictCache.msgPtrArray =
    (s.messSndByRegexp.addresses.take s.ompDictCache.numPtr).map some := by
  refine List.ext_getElem ?_ fun i hi _ => ?_
  · simp [h.cached.le]
  · have hi : i < s.ompDictCache.numPtr := by simpa using hi
    have hlt := Nat.lt_of_lt_of_le hi h.cached.le
    simp [h.cached.slots i hi, hlt]

theorem CacheWarm.entryAt {i : ℕ} (hi : i < s.ompDictCache.numPtr) :
    entryAt s i = s.messSndByRegexp.entries[i]? := by
  have hlt := Nat.lt_of_lt_of_le hi h.cached.le
  rw [Dictionary.addresses, List.length_map] at hlt
  have hslot : s.ompDictCache.msgPtrArray i = some (s.messSndByRegexp.entries[i]).ptr := by
    rw [h.cached.slots i hi, Dictionary.addresses, List.getElem?_map, List.getElem?_eq_getElem hlt]
    rfl
  rw [Registry.entryAt, hslot, Option.bind_some, List.getElem?_eq_getElem hlt,
    Keyed.find_eq_some s.messSndByRegexp.ptrs]
  exact ⟨List.getElem_mem hlt, rfl⟩

/-- The loop reads the first entries of the dictionary. -/
theorem CacheWarm.mapM_entryAt {k : ℕ} (hk : k ≤ s.ompDictCache.numPtr) :
    (List.range k).mapM (Registry.entryAt s) = some (s.messSndByRegexp.entries.take k) := by
  induction k with
  | zero => rfl
  | succ k ih =>
    have hlt : k < s.messSndByRegexp.entries.length := by
      have hle := h.cached.le
      rw [Dictionary.addresses, List.length_map] at hle
      omega
    rw [List.range_succ, List.mapM_append, ih (by omega), List.take_succ_eq_append_getElem hlt]
    simp [h.entryAt (show k < s.ompDictCache.numPtr by omega), hlt]

theorem CacheWarm.sendOverCache (exec : Exec Code) (message : Text) :
    sendOverCache exec message s = some
      ((s.messSndByRegexp.entries.take s.ompDictCache.numPtr).flatMap (regexpCall exec message)) := by
  rw [Registry.sendOverCache, h.mapM_entryAt (Nat.le_refl _), Option.map_some]

omit h in
theorem client_mem_of_mem_regexpCall {exec : Exec Code} {message : Text} {e : MsgSndDict Code}
    {r : Subscriber × List (Option Text)} (hr : r ∈ regexpCall exec message e) :
    r.1 ∈ e.clientList := by
  unfold regexpCall at hr
  split at hr
  · simp at hr
  · obtain ⟨n, hn, rfl⟩ := List.mem_map.mp hr
    exact hn

/-- The entries beyond the cache send nothing to a ready client. -/
theorem CacheWarm.filter_rest (exec : Exec Code) (message : Text) {c : ℕ} (hc : Ready s c) :
    ((s.messSndByRegexp.entries.drop s.ompDictCache.numPtr).flatMap
      (regexpCall exec message)).filter (·.1.client = c) = [] := by
  rw [List.filter_eq_nil_iff]
  intro r hr hclient
  obtain ⟨e, he, hre⟩ := List.mem_flatMap.mp hr
  obtain ⟨i, hi, rfl⟩ := List.mem_iff_getElem.mp he
  have hclient : r.1.client = c := by simpa using hclient
  rw [List.length_drop] at hi
  rw [List.getElem_drop] at hre
  have hget : s.messSndByRegexp.entries[s.ompDictCache.numPtr + i]? = some _ :=
    List.getElem?_eq_getElem (by omega)
  have hlt := h.rest _ _ hget ⟨r.1, client_mem_of_mem_regexpCall hre, hclient ▸ hc⟩
  omega

theorem CacheWarm.sound : CacheSound s where
  current := ⟨_, h.slots_eq, s.messSndByRegexp.ptrs.sublist (List.take_sublist _ _),
    fun ptr hptr => List.mem_of_mem_take hptr⟩
  complete e he hready := by
    obtain ⟨i, hi, rfl⟩ := List.mem_iff_getElem.mp he
    have hlt := h.rest i _ (List.getElem?_eq_getElem hi) hready
    refine ⟨i, hlt, ?_⟩
    rw [h.cached.slots i hlt, Dictionary.addresses, List.getElem?_map, List.getElem?_eq_getElem hi]
    rfl
  sends exec message := by
    refine ⟨_, h.sendOverCache exec message, fun c hc => ?_⟩
    have hsplit : sendOverDictionary exec message s =
        (s.messSndByRegexp.entries.take s.ompDictCache.numPtr).flatMap (regexpCall exec message) ++
          (s.messSndByRegexp.entries.drop s.ompDictCache.numPtr).flatMap (regexpCall exec message) := by
      rw [← List.flatMap_append, List.take_append_drop, sendOverDictionary]
    rw [hsplit, List.filter_append, h.filter_rest exec message hc, List.append_nil]

end Sound

section Steps
variable {s : State Code} {compile : Compile Code}

theorem ready_iff {c : ℕ} {clnt : IvyClient} (hfind : s.allClients.find c = some clnt) :
    Ready s c ↔ clnt.endRegexpReceived = true := by
  simp [Ready, Clients.status, hfind]

theorem ready_setId {c : ℕ} (id : ℤ) (c' : ℕ) : Ready (setId s c id) c' ↔ Ready s c' := by
  rw [Ready, status_setId, Ready]

/-- The updates leave everyone's readiness alone. -/
theorem CacheWarm.of_status {t : State Code} (h : Warm t.messSndByRegexp t.ompDictCache (Ready s))
    (hstatus : ∀ c, t.allClients.status c = s.allClients.status c) : CacheWarm t :=
  h.imp fun c hc => (hstatus c).symm.trans hc

theorem addRegexp_cache {regexp : Text} {client : IvyClient} {t : State Code}
    (ht : addRegexp compile s regexp client = some t) :
    t.messSndByRegexp = (addRegexpToDictionary compile s regexp client).messSndByRegexp ∧
      t.ompDictCache = (addRegexpToDictionary compile s regexp client).ompDictCache := by
  simp only [addRegexp] at ht
  split at ht
  · simp at ht
  · obtain rfl := Option.some.inj ht
    exact ⟨rfl, rfl⟩

variable (h : CacheWarm s)
include h

theorem cacheWarm_connect {c : ℕ} (hc : s.allClients.find c = none) :
    ∃ t, step compile s (.connect c) = some t ∧ CacheWarm t := by
  refine ⟨_, step_connect hc, Warm.imp h fun c' hc' => ?_⟩
  have hc' : (s.allClients.add c hc).status c' = some true := hc'
  rw [Clients.status, Clients.find_add] at hc'
  split_ifs at hc'
  · simp at hc'
  · exact hc'

theorem cacheWarm_add {c : ℕ} (hc : s.allClients.find c ≠ none) {id : ℤ} {regexp : Text}
    (hcurrent : CacheCurrent s (.line c (.addRegexp id regexp))) :
    ∃ t, step compile s (.line c (.addRegexp id regexp)) = some t ∧ CacheWarm t := by
  obtain ⟨clnt, hfind, rfl, rfl⟩ := find_setId hc id
  have hready : Ready s clnt.client ↔ clnt.endRegexpReceived = true := by
    rw [← ready_setId clnt.id, ready_iff hfind]
  have hwarm : Warm (setId s clnt.client clnt.id).messSndByRegexp
      (setId s clnt.client clnt.id).ompDictCache (Ready s) := h
  cases hlists : s.messSndByRegexp.lists regexp clnt.client clnt.id with
  | false =>
    have hnot : ¬ (setId s clnt.client clnt.id).messSndByRegexp.lists regexp clnt.client clnt.id = true :=
      ne_true_of_eq_false hlists
    obtain ⟨t, ht, hbecomes⟩ := receiveLine_add compile hc hlists
    have hadd : addRegexp compile (setId s clnt.client clnt.id) regexp clnt = some t := by
      rwa [receiveLine_addRegexp hfind, addOrChangeRegexp, if_neg hnot] at ht
    obtain ⟨hdict, hcache⟩ := addRegexp_cache hadd
    refine ⟨t, ht, .of_status (s := s) ?_ hbecomes.status⟩
    rw [hdict, hcache]
    exact warm_addToDictionary compile regexp hwarm hready fun hr => hcurrent (hready.mpr hr) hlists
  | true =>
    have hpos : (setId s clnt.client clnt.id).messSndByRegexp.lists regexp clnt.client clnt.id = true :=
      hlists
    obtain ⟨t, ht, hbecomes⟩ := receiveLine_change compile hc hlists
    have hchange : some (changeRegexp compile (setId s clnt.client clnt.id) regexp clnt) = some t := by
      rwa [receiveLine_addRegexp hfind, addOrChangeRegexp, if_pos hpos] at ht
    refine ⟨t, ht, .of_status (s := s) ?_ hbecomes.status⟩
    rw [← Option.some.inj hchange]
    exact warm_changeInDictionary compile regexp hready

theorem cacheWarm_del {c : ℕ} (hc : s.allClients.find c ≠ none) (id : ℤ) (arg : Text) :
    ∃ t, step compile s (.line c (.delRegexp id arg)) = some t ∧ CacheWarm t := by
  obtain ⟨t, ht, hbecomes⟩ := receiveLine_del compile hc id arg
  obtain ⟨clnt, hfind, rfl, rfl⟩ := find_setId hc id
  refine ⟨t, ht, .of_status (s := s) ?_ hbecomes.status⟩
  have hdel : some (receiveDelRegexp (setId s clnt.client clnt.id) clnt clnt.id arg) = some t := by
    rwa [receiveLine_delRegexp hfind] at ht
  have hset : Warm (setId s clnt.client clnt.id).messSndByRegexp
      (setId s clnt.client clnt.id).ompDictCache (Ready s) := h
  have hwarm := warm_delRegexpForOneClient clnt clnt.id hset
  rw [← Option.some.inj hdel, receiveDelRegexp]
  split_ifs
  · exact hwarm
  · exact hwarm

theorem cacheWarm_handshake {c : ℕ} (hc : s.allClients.find c ≠ none) {line : Line}
    (hline : ∃ id arg, line = .startRegexp id arg ∨ line = .endRegexp id arg) :
    ∃ t, step compile s (.line c line) = some t ∧ CacheWarm t := by
  obtain ⟨id, arg, rfl | rfl⟩ := hline
  · obtain ⟨t, ht, hcompletes, hcache⟩ := receiveLine_start compile hc id arg
    refine ⟨t, ht, ?_⟩
    unfold CacheWarm
    rw [hcompletes.dictionary, hcache]
    refine Warm.imp h fun c' hc' => ?_
    rw [Ready, hcompletes.status] at hc'
    split_ifs at hc'
    · simp at hc'
    · exact hc'
  · obtain ⟨t, ht, -⟩ := receiveLine_end compile hc id arg
    exact ⟨_, ht, (full_regenerate t).warm _⟩

omit h in
theorem cacheWarm_disconnect {c : ℕ} (hc : s.allClients.find c ≠ none)
    (hwalk : SafeWalk ((s.allClients.srcs c).map GlobReg.id)) :
    ∃ t, step compile s (.disconnect c) = some t ∧ CacheWarm t := by
  obtain ⟨clnt, hclnt⟩ := Option.ne_none_iff_exists'.mp hc
  rw [Clients.srcs_of_find _ hclnt] at hwalk
  obtain ⟨t, ht, -⟩ := delOneClient_spec hclnt hwalk
  refine ⟨t, ht, ?_⟩
  obtain ⟨u, -, rfl⟩ := Option.map_eq_some_iff.mp ht
  have hfull := full_regenerate
    { u with messSndByRegexp := delOneClientFromDictionary u.messSndByRegexp c }
  exact hfull.warm _

theorem cacheWarm_step {e : Event} (he : Possible s e) (hcurrent : CacheCurrent s e) :
    ∃ t, step compile s e = some t ∧ CacheWarm t := by
  cases e with
  | connect c => exact cacheWarm_connect h he
  | line c line =>
    cases line with
    | addRegexp id regexp => exact cacheWarm_add h he hcurrent
    | delRegexp id arg => exact cacheWarm_del h he id arg
    | startRegexp id arg => exact cacheWarm_handshake h he ⟨id, arg, .inl rfl⟩
    | endRegexp id arg => exact cacheWarm_handshake h he ⟨id, arg, .inr rfl⟩
  | disconnect c => exact cacheWarm_disconnect he hcurrent

end Steps

/-- The cache serves the ready clients after every run whose steps meet `CacheCurrent`. -/
theorem cache_coherent (compile : Compile Code) (events : List Event)
    (hrun : Machine.Guarded (step compile) (fun s e => Possible s e ∧ CacheCurrent s e) initial
      events) :
    ∃ t, Machine.run (step compile) initial events = some t ∧ CacheSound t := by
  have hstart : CacheWarm (initial : State Code) :=
    ⟨⟨Nat.le_refl _, fun i hi => absurd hi (Nat.not_lt_zero i)⟩, fun i e he => by
      simp [initial, Dictionary.empty] at he⟩
  obtain ⟨t, ht, hwarm⟩ := Machine.run_invariant hstart
    (fun s e h hG => cacheWarm_step h hG.1 hG.2) hrun
  exact ⟨t, ht, hwarm.sound⟩

theorem cache_coherent_example :
    ∃ t, Machine.run (step fun _ => .ok ()) initial
      [.connect 1, .line 1 (.startRegexp 5000 (ascii "A")), .line 1 (.addRegexp 0 (ascii "a")),
        .line 1 (.endRegexp 0 []), .line 1 (.addRegexp 1 (ascii "b")), .line 1 (.delRegexp 0 [])] =
      some t ∧ CacheSound t := by
  apply cache_coherent
  decide +kernel

/-- A client subscribes while another one is in its handshake: a slot is left out. -/
theorem cache_slot_unwritten :
    ∃ s : State Unit, Machine.run (step fun _ => .ok ()) initial
      [.connect 1, .line 1 (.startRegexp 5000 (ascii "A")), .line 1 (.endRegexp 0 []),
        .connect 2, .line 2 (.startRegexp 5001 (ascii "B")), .line 2 (.addRegexp 0 (ascii "r2")),
        .line 1 (.addRegexp 0 (ascii "r3"))] = some s ∧
      Ready s 1 ∧ 0 < s.ompDictCache.numPtr ∧ s.ompDictCache.msgPtrArray 0 = none := by
  refine ⟨_, rfl, ?_⟩
  decide +kernel

end Ivy.Registry

import Ivy.Registry.Lines

/-! The cache of the OPENMP build: its slots are the first entries of the dictionary, in order,
and the entries after them have no client whose handshake is complete. -/
namespace Ivy.Registry

variable {Code : Type*}

/-- The used slots are the first addresses of the dictionary. -/
structure Cache.Prefix (cache : Cache) (d : Dictionary Code) : Prop where
  le : cache.numPtr ≤ d.addresses.length
  slots : ∀ i < cache.numPtr, cache.msgPtrArray i = d.addresses[i]?

/-- A client whose EndRegexp was received. -/
def Ready (s : State Code) (c : ℕ) : Prop := s.allClients.status c = some true

instance (s : State Code) (c : ℕ) : Decidable (Ready s c) := inferInstanceAs (Decidable (_ = _))

/-- The entries beyond the cache have no client that satisfies `ready`. -/
structure Warm (d : Dictionary Code) (cache : Cache) (ready : ℕ → Prop) : Prop where
  cached : cache.Prefix d
  rest : ∀ i e, d.entries[i]? = some e → (∃ n ∈ e.clientList, ready n.client) → i < cache.numPtr

/-- The cache holds the whole dictionary. -/
def Full (d : Dictionary Code) (cache : Cache) : Prop :=
  cache.Prefix d ∧ cache.numPtr = d.addresses.length

theorem Full.warm {d : Dictionary Code} {cache : Cache} (h : Full d cache) (ready : ℕ → Prop) :
    Warm d cache ready := by
  refine ⟨h.1, fun i e he _ => ?_⟩
  rw [h.2, Dictionary.addresses, List.length_map]
  exact (List.getElem?_eq_some_iff.mp he).1

theorem Warm.imp {d : Dictionary Code} {cache : Cache} {ready ready' : ℕ → Prop}
    (h : Warm d cache ready) (himp : ∀ c, ready' c → ready c) : Warm d cache ready' :=
  ⟨h.cached, fun i e he ⟨n, hn, hready⟩ => h.rest i e he ⟨n, hn, himp _ hready⟩⟩

theorem fill_of_lt (slots : ℕ → Option ℕ) {addresses : List ℕ} {i : ℕ} (h : i < addresses.length) :
    fill slots addresses i = addresses[i]? := by simp [fill, h]

theorem full_fill (d : Dictionary Code) (slots : ℕ → Option ℕ) (size : ℕ) :
    Full d ⟨fill slots d.addresses, size, d.addresses.length⟩ :=
  ⟨⟨Nat.le_refl _, fun _ hi => fill_of_lt slots hi⟩, rfl⟩

/-- Regenerating makes the cache full whatever it held. -/
theorem full_regenerate (s : State Code) : Full s.messSndByRegexp
    (regenerateRegPtrArrayCache s).ompDictCache := full_fill _ _ _

theorem full_delFromDictionary (s : State Code) (regexp : Text) (client : IvyClient) :
    Full (delRegexpForOneClientFromDictionary s regexp client).messSndByRegexp
      (delRegexpForOneClientFromDictionary s regexp client).ompDictCache := full_regenerate _

section Entries
variable (d : Dictionary Code)

def withClient (ptr : ℕ) (n : Subscriber) (e : MsgSndDict Code) : MsgSndDict Code :=
  if e.ptr = ptr then { e with clientList := n :: e.clientList } else e

theorem entries_addToClientList (ptr : ℕ) (n : Subscriber) :
    (addToClientList d ptr n).entries = d.entries.map (withClient ptr n) := by
  have hsome : onEntry ptr (addClient n) = some ∘ (withClient ptr n : MsgSndDict Code → _) := by
    funext e
    simp only [onEntry, addClient, withClient, Function.comp_apply]
    split_ifs <;> rfl
  change d.entries.filterMap (onEntry ptr (addClient n)) = _
  rw [hsome, List.filterMap_eq_map]

@[simp] theorem addresses_addToClientList (ptr : ℕ) (n : Subscriber) :
    (addToClientList d ptr n).addresses = d.addresses := by
  rw [Dictionary.addresses, entries_addToClientList, List.map_map, Dictionary.addresses]
  congr 1
  funext e
  simp only [withClient, Function.comp_apply]
  split_ifs <;> rfl

@[simp] theorem addresses_hashAdd {r : Text} {binding : Option Code} (h : d.hashFind r = none) :
    (d.hashAdd r binding h).addresses = d.addresses ++ [d.brk] := by
  simp [Dictionary.addresses, Dictionary.hashAdd, Dictionary.newEntry]

end Entries

section Cache
variable {d : Dictionary Code} {cache : Cache} {ready : ℕ → Prop}

theorem Full.addClient (h : Full d cache) (ptr : ℕ) (n : Subscriber) :
    Full (addToClientList d ptr n) cache :=
  ⟨⟨by simpa using h.1.le, by simpa using h.1.slots⟩, by simpa using h.2⟩

theorem Warm.addClient (h : Warm d cache ready) {ptr : ℕ} {n : Subscriber}
    (hn : ready n.client → ∃ i < cache.numPtr, d.addresses[i]? = some ptr) :
    Warm (addToClientList d ptr n) cache ready := by
  refine ⟨⟨by simpa using h.cached.le, by simpa using h.cached.slots⟩, ?_⟩
  rintro i e he ⟨n', hn', hready⟩
  rw [entries_addToClientList, List.getElem?_map, Option.map_eq_some_iff] at he
  obtain ⟨e₀, he₀, rfl⟩ := he
  unfold withClient at hn'
  split_ifs at hn' with hptr
  · rcases List.mem_cons.mp hn' with rfl | hn'
    · obtain ⟨j, hj, haddr⟩ := hn hready
      have hi : d.addresses[i]? = some ptr := by
        rw [Dictionary.addresses, List.getElem?_map, he₀, ← hptr]
        rfl
      have hlt : i < d.addresses.length := (List.getElem?_eq_some_iff.mp hi).1
      obtain rfl : i = j := (List.getElem?_inj hlt d.ptrs).mp (hi.trans haddr.symm)
      exact hj
    · exact h.rest i e₀ he₀ ⟨n', hn', hready⟩
  · exact h.rest i e₀ he₀ ⟨n', hn', hready⟩

theorem Cache.Prefix.hashAdd (h : cache.Prefix d) {r : Text} {binding : Option Code}
    (hnone : d.hashFind r = none) : cache.Prefix (d.hashAdd r binding hnone) := by
  refine ⟨?_, fun i hi => ?_⟩
  · rw [addresses_hashAdd, List.length_append]
    exact Nat.le_add_right_of_le h.le
  · rw [addresses_hashAdd, List.getElem?_append_left (Nat.lt_of_lt_of_le hi h.le)]
    exact h.slots i hi

theorem Warm.hashAdd (h : Warm d cache ready) {r : Text} {binding : Option Code}
    (hnone : d.hashFind r = none) : Warm (d.hashAdd r binding hnone) cache ready := by
  refine ⟨h.cached.hashAdd hnone, ?_⟩
  rintro i e he ⟨n, hn, hready⟩
  have hentries : (d.hashAdd r binding hnone).entries = d.entries ++ [d.newEntry r binding] := rfl
  rw [hentries, List.getElem?_append] at he
  split_ifs at he with hi
  · exact h.rest i e he ⟨n, hn, hready⟩
  · rw [List.getElem?_singleton] at he
    split_ifs at he
    obtain rfl := Option.some.inj he
    simp [Dictionary.newEntry] at hn

/-- Appending to the cache is right if the slots before were current, or the array is rewritten. -/
theorem full_addReg {s : State Code} {r : Text} {binding : Option Code}
    (hnone : d.hashFind r = none) (hd : s.messSndByRegexp = d.hashAdd r binding hnone)
    (h : Full d s.ompDictCache ∨ s.ompDictCache.size ≤ d.addresses.length + 1) :
    Full (addRegToPtrArrayCache s d.brk).messSndByRegexp
      (addRegToPtrArrayCache s d.brk).ompDictCache := by
  have hlen : (d.hashAdd r binding hnone).addresses.length = d.addresses.length + 1 := by simp
  simp only [addRegToPtrArrayCache, hd, hlen]
  split_ifs with hsize
  · rw [← hlen]
    exact full_fill _ _ _
  · obtain ⟨hpre, hnum⟩ := h.resolve_right (by omega)
    refine ⟨⟨Nat.le_of_eq hlen.symm, fun i hi => ?_⟩, hlen.symm⟩
    dsimp only at hi ⊢
    rw [addresses_hashAdd, Nat.add_sub_cancel]
    split_ifs with hlast
    · rw [hlast, List.getElem?_concat_length]
    · have hi : i < d.addresses.length := by omega
      rw [List.getElem?_append_left hi]
      exact hpre.slots i (by omega)

end Cache

/-- The cache serves a subscription to the regexp: its entry is cached, or it is created at the
end of a current cache, or together with a new array. -/
def UpToDate (s : State Code) (regexp : Text) : Prop :=
  match s.messSndByRegexp.hashFind regexp with
  | some e => ∃ i < s.ompDictCache.numPtr, s.ompDictCache.msgPtrArray i = some e.ptr
  | none => s.ompDictCache.numPtr = s.messSndByRegexp.addresses.length ∨
      s.ompDictCache.size ≤ s.messSndByRegexp.addresses.length + 1

instance (s : State Code) (regexp : Text) : Decidable (UpToDate s regexp) := by
  unfold UpToDate
  split <;> infer_instance

section Functions
variable {s : State Code} {ready : ℕ → Prop} (compile : Compile Code) (regexp : Text)
  {client : IvyClient}

/-- The two parts of `addRegexpToDictionary` for a new regexp. -/
theorem addToDictionary_of_none (hnone : s.messSndByRegexp.hashFind regexp = none) :
    addRegexpToDictionary compile s regexp client =
      { addEntry compile s regexp client hnone with
        messSndByRegexp := addToClientList (addEntry compile s regexp client hnone).messSndByRegexp
          s.messSndByRegexp.brk ⟨client.client, client.id⟩ } := by
  simp only [addRegexpToDictionary]
  split
  · rename_i e he
    simp [hnone] at he
  · rfl

theorem addToDictionary_of_some {e : MsgSndDict Code}
    (he : s.messSndByRegexp.hashFind regexp = some e) :
    addRegexpToDictionary compile s regexp client =
      { s with messSndByRegexp :=
          addToClientList s.messSndByRegexp e.ptr ⟨client.client, client.id⟩ } := by
  simp only [addRegexpToDictionary]
  split
  · rename_i e' he'
    obtain rfl := Option.some.inj (he.symm.trans he')
    rfl
  · rename_i hnone
    simp [he] at hnone

theorem warm_addToDictionary (h : Warm s.messSndByRegexp s.ompDictCache ready)
    (hready : ready client.client ↔ client.endRegexpReceived = true)
    (hcurrent : client.endRegexpReceived = true → UpToDate s regexp) :
    Warm (addRegexpToDictionary compile s regexp client).messSndByRegexp
      (addRegexpToDictionary compile s regexp client).ompDictCache ready := by
  cases hfind : s.messSndByRegexp.hashFind regexp with
  | some e =>
    rw [addToDictionary_of_some compile regexp hfind]
    refine h.addClient fun hr => ?_
    have hcurrent := hcurrent (hready.mp hr)
    simp only [UpToDate, hfind] at hcurrent
    obtain ⟨i, hi, hslot⟩ := hcurrent
    exact ⟨i, hi, (h.cached.slots i hi).symm.trans hslot⟩
  | none =>
    rw [addToDictionary_of_none compile regexp hfind]
    cases hreceived : client.endRegexpReceived with
    | false =>
      have hnot : ¬ ready client.client := by simp [hready, hreceived]
      simp only [addEntry, hreceived, Bool.false_eq_true, if_false]
      exact (h.hashAdd hfind).addClient fun hr => absurd hr hnot
    | true =>
      have hcurrent := hcurrent hreceived
      simp only [UpToDate, hfind] at hcurrent
      simp only [addEntry, hreceived, if_true]
      apply Full.warm
      apply Full.addClient
      refine full_addReg hfind rfl ?_
      exact hcurrent.imp_left fun hnum => ⟨h.cached, hnum⟩

theorem upToDate_of_full (h : Full s.messSndByRegexp s.ompDictCache) : UpToDate s regexp := by
  unfold UpToDate
  split
  · rename_i e he
    have hmem : e.ptr ∈ s.messSndByRegexp.addresses := List.mem_map_of_mem (Keyed.find_mem he)
    obtain ⟨i, hi, hget⟩ := List.mem_iff_getElem.mp hmem
    have hlt : i < s.ompDictCache.numPtr := h.2 ▸ hi
    refine ⟨i, hlt, ?_⟩
    rw [h.1.slots i hlt, List.getElem?_eq_getElem hi, hget]
  · exact .inl h.2

/-- Changing a regexp regenerates the cache before it appends to it. -/
theorem warm_changeInDictionary (hready : ready client.client ↔ client.endRegexpReceived = true) :
    Warm (changeRegexpInDictionary compile s regexp client).messSndByRegexp
      (changeRegexpInDictionary compile s regexp client).ompDictCache ready := by
  have hfull := full_delFromDictionary s regexp client
  exact warm_addToDictionary compile regexp (hfull.warm ready) hready fun _ =>
    upToDate_of_full regexp hfull

theorem warm_delRegexpForOneClient (client : IvyClient) (id : ℤ)
    (h : Warm s.messSndByRegexp s.ompDictCache ready) :
    Warm (delRegexpForOneClient s client id).1.messSndByRegexp
      (delRegexpForOneClient s client id).1.ompDictCache ready := by
  have hfold : ∀ (sources : List GlobReg) (s : State Code),
      Warm s.messSndByRegexp s.ompDictCache ready →
      let t := sources.foldl
        (fun s regxpSrc => delRegexpForOneClientFromDictionary s regxpSrc.str_regexp client) s
      Warm t.messSndByRegexp t.ompDictCache ready := by
    intro sources
    induction sources with
    | nil => exact fun _ h => h
    | cons n sources ih => exact fun s _ => ih _ ((full_delFromDictionary s _ client).warm ready)
  simp only [delRegexpForOneClient]
  split
  · exact h
  · exact hfold _ s h

end Functions

/-- The condition on a step under which the cache stays current. -/
def CacheCurrent (s : State Code) : Event → Prop
  | .line c (.addRegexp id regexp) =>
    Ready s c → s.messSndByRegexp.lists regexp c id = false → UpToDate s regexp
  | .disconnect c => SafeWalk ((s.allClients.srcs c).map GlobReg.id)
  | _ => True

instance (s : State Code) : ∀ e, Decidable (CacheCurrent s e)
  | .line _ (.addRegexp _ _) => inferInstanceAs (Decidable (_ → _ → _))
  | .line _ (.delRegexp _ _) => .isTrue trivial
  | .line _ (.startRegexp _ _) => .isTrue trivial
  | .line _ (.endRegexp _ _) => .isTrue trivial
  | .connect _ => .isTrue trivial
  | .disconnect _ => inferInstanceAs (Decidable (SafeWalk _))

end Ivy.Registry

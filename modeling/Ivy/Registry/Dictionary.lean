import Ivy.Lib.Keyed
import Ivy.Protocol.Text

/-! The dictionary of the regexps that the peers asked for, `messSndByRegexp`. -/
namespace Ivy.Registry

/-- A node of `clientList`: the connection and the id of one subscription. -/
structure Subscriber where
  client : ℕ
  id : ℤ
  deriving DecidableEq, Repr

/-- `struct _msg_snd_dict`; `ptr` is its address. -/
structure MsgSndDict (Code : Type*) where
  ptr : ℕ
  regexp_src : Text
  clientList : List Subscriber
  binding : Option Code

/-- The hash table in the order of its `hh.next` links. Addresses from `brk` on are unused. -/
structure Dictionary (Code : Type*) where
  entries : List (MsgSndDict Code)
  brk : ℕ
  keys : (entries.map (·.regexp_src)).Nodup
  ptrs : (entries.map (·.ptr)).Nodup
  below : ∀ e ∈ entries, e.ptr < brk

variable {Code : Type*}

/-- An update of an entry that changes neither its key nor its address. -/
def InPlace (f : MsgSndDict Code → Option (MsgSndDict Code)) : Prop :=
  ∀ e, ∀ e' ∈ f e, e'.regexp_src = e.regexp_src ∧ e'.ptr = e.ptr

theorem InPlace.keepsKey {f : MsgSndDict Code → Option (MsgSndDict Code)} (hf : InPlace f) :
    Keyed.KeepsKey (·.regexp_src) f := fun e e' he => (hf e e' he).1

theorem InPlace.keepsPtr {f : MsgSndDict Code → Option (MsgSndDict Code)} (hf : InPlace f) :
    Keyed.KeepsKey (·.ptr) f := fun e e' he => (hf e e' he).2

namespace Dictionary
variable (d : Dictionary Code)

/-- `NULL` -/
def empty : Dictionary Code := ⟨[], 0, by simp, by simp, by simp⟩

/-- `HASH_FIND_STR` -/
def hashFind (regexp : Text) : Option (MsgSndDict Code) :=
  Keyed.find (·.regexp_src) d.entries regexp

def newEntry (regexp : Text) (binding : Option Code) : MsgSndDict Code := ⟨d.brk, regexp, [], binding⟩

/-- `HASH_ADD_KEYPTR` of a new entry, whose key was searched before. -/
def hashAdd (regexp : Text) (binding : Option Code) (h : d.hashFind regexp = none) :
    Dictionary Code where
  entries := d.entries ++ [d.newEntry regexp binding]
  brk := d.brk + 1
  keys := by
    have hnot := Keyed.find_eq_none.mp h
    rw [List.map_append]
    exact d.keys.append (List.nodup_singleton _) (by simpa [newEntry] using hnot)
  ptrs := by
    have hnot : d.brk ∉ d.entries.map (·.ptr) := by
      intro hmem
      obtain ⟨e, he, hptr⟩ := List.mem_map.mp hmem
      exact absurd hptr (Nat.ne_of_lt (d.below e he))
    rw [List.map_append]
    exact d.ptrs.append (List.nodup_singleton _) (by simpa [newEntry] using hnot)
  below e he := by
    rcases List.mem_append.mp he with he | he
    · exact Nat.lt_succ_of_lt (d.below e he)
    · rw [List.mem_singleton.mp he]
      exact Nat.lt_succ_self _

/-- Entries that `f` drops are deleted with `HASH_DEL`. -/
def update (f : MsgSndDict Code → Option (MsgSndDict Code)) (hf : InPlace f) : Dictionary Code where
  entries := d.entries.filterMap f
  brk := d.brk
  keys := Keyed.nodup_filterMap hf.keepsKey d.keys
  ptrs := Keyed.nodup_filterMap hf.keepsPtr d.ptrs
  below e he := by
    obtain ⟨e', he', hfe⟩ := List.mem_filterMap.mp he
    rw [(hf e' e hfe).2]
    exact d.below e' he'

end Dictionary

def onEntry (ptr : ℕ) (f : MsgSndDict Code → Option (MsgSndDict Code)) (e : MsgSndDict Code) :
    Option (MsgSndDict Code) := if e.ptr = ptr then f e else some e

/-- The clients that do not satisfy `keep` are removed, and the entry with its last client. -/
def pruneEntry (keep : Subscriber → Bool) (e : MsgSndDict Code) : Option (MsgSndDict Code) :=
  let clientList := e.clientList.filter keep
  if clientList = [] then none else some { e with clientList := clientList }

def addClient (newClient : Subscriber) (e : MsgSndDict Code) : Option (MsgSndDict Code) :=
  some { e with clientList := newClient :: e.clientList }

theorem inPlace_onEntry {f : MsgSndDict Code → Option (MsgSndDict Code)} (hf : InPlace f) (ptr : ℕ) :
    InPlace (onEntry ptr f) := by
  intro e e' he
  unfold onEntry at he
  split_ifs at he
  · exact hf e e' he
  · obtain rfl := Option.some.inj he
    exact ⟨rfl, rfl⟩

theorem inPlace_pruneEntry (keep : Subscriber → Bool) :
    InPlace (pruneEntry keep : MsgSndDict Code → _) := by
  intro e e' he
  simp only [pruneEntry, Option.mem_def, Option.ite_none_left_eq_some, Option.some.injEq] at he
  obtain rfl := he.2
  exact ⟨rfl, rfl⟩

theorem inPlace_addClient (newClient : Subscriber) :
    InPlace (addClient newClient : MsgSndDict Code → _) := by
  intro e e' he
  obtain rfl := Option.some.inj he
  exact ⟨rfl, rfl⟩

def delOneIvyClientFromDictionaryEntry (d : Dictionary Code) (msgSendDict : MsgSndDict Code)
    (client : ℕ) (id : ℤ) : Dictionary Code :=
  d.update (onEntry msgSendDict.ptr (pruneEntry fun n => !(n.client = client && n.id = id)))
    (inPlace_onEntry (inPlace_pruneEntry _) _)

def delOneClientFromDictionary (d : Dictionary Code) (client : ℕ) : Dictionary Code :=
  d.update (pruneEntry fun n => !(n.client = client)) (inPlace_pruneEntry _)

def addToClientList (d : Dictionary Code) (ptr : ℕ) (newClient : Subscriber) : Dictionary Code :=
  d.update (onEntry ptr (addClient newClient)) (inPlace_onEntry (inPlace_addClient _) _)

/-- The address of the entry of a regexp, created without clients when there is none. -/
def findOrAdd (d : Dictionary Code) (regexp : Text) (binding : Option Code) : Dictionary Code × ℕ :=
  match h : d.hashFind regexp with
  | some msgSendDict => (d, msgSendDict.ptr)
  | none => (d.hashAdd regexp binding h, d.brk)

theorem findOrAdd_of_some {d : Dictionary Code} {regexp : Text} {e : MsgSndDict Code}
    (h : d.hashFind regexp = some e) (binding : Option Code) :
    findOrAdd d regexp binding = (d, e.ptr) := by
  unfold findOrAdd
  split
  · rename_i e' he'
    obtain rfl := Option.some.inj (h.symm.trans he')
    rfl
  · rename_i hnone
    exact absurd (h.symm.trans hnone) (Option.some_ne_none e)

theorem findOrAdd_of_none {d : Dictionary Code} {regexp : Text} (h : d.hashFind regexp = none)
    (binding : Option Code) : findOrAdd d regexp binding = (d.hashAdd regexp binding h, d.brk) := by
  unfold findOrAdd
  split
  · rename_i e he
    exact absurd (he.symm.trans h) (Option.some_ne_none e)
  · rfl

namespace Dictionary
variable (d : Dictionary Code)

def subs (regexp : Text) : List Subscriber := (d.hashFind regexp).elim [] (·.clientList)

def Occupied : Prop := ∀ e ∈ d.entries, e.clientList ≠ []

theorem hashFind_some {r : Text} {e : MsgSndDict Code} :
    d.hashFind r = some e ↔ e ∈ d.entries ∧ e.regexp_src = r := Keyed.find_eq_some d.keys

theorem hashFind_update {f : MsgSndDict Code → Option (MsgSndDict Code)} (hf : InPlace f)
    (r : Text) : (d.update f hf).hashFind r = (d.hashFind r).bind f :=
  Keyed.find_filterMap hf.keepsKey d.keys

theorem hashFind_hashAdd {r : Text} {binding : Option Code} (h : d.hashFind r = none) (r' : Text) :
    (d.hashAdd r binding h).hashFind r' =
      if r = r' then some (d.newEntry r binding) else d.hashFind r' :=
  Keyed.find_concat (d.newEntry r binding) h

theorem hashFind_onEntry {f : MsgSndDict Code → Option (MsgSndDict Code)} (hf : InPlace f)
    {r : Text} {e : MsgSndDict Code} (he : d.hashFind r = some e) (r' : Text) :
    (d.update (onEntry e.ptr f) (inPlace_onEntry hf _)).hashFind r' =
      if r = r' then f e else d.hashFind r' := by
  rw [hashFind_update]
  obtain ⟨hmem, hkey⟩ := d.hashFind_some.mp he
  split_ifs with hr
  · subst hr
    rw [he, Option.bind_some, onEntry, if_pos rfl]
  · cases he' : d.hashFind r' with
    | none => rfl
    | some e' =>
      obtain ⟨hmem', hkey'⟩ := d.hashFind_some.mp he'
      have hptr : e'.ptr ≠ e.ptr := fun h => hr (by
        rw [← hkey, ← hkey', List.inj_on_of_nodup_map d.ptrs hmem' hmem h])
      rw [Option.bind_some, onEntry, if_neg hptr]

theorem elim_pruneEntry (keep : Subscriber → Bool) (e : MsgSndDict Code) :
    (pruneEntry keep e).elim [] (·.clientList) = e.clientList.filter keep := by
  simp only [pruneEntry]
  split_ifs with h
  · exact h.symm
  · rfl

theorem subs_of_hashFind {r : Text} {e : MsgSndDict Code} (he : d.hashFind r = some e) :
    d.subs r = e.clientList := by rw [subs, he, Option.elim_some]

theorem subs_delOneIvyClientFromDictionaryEntry {r : Text} {e : MsgSndDict Code}
    (he : d.hashFind r = some e) (client : ℕ) (id : ℤ) (r' : Text) :
    (delOneIvyClientFromDictionaryEntry d e client id).subs r' =
      if r = r' then (d.subs r').filter fun n => !(n.client = client && n.id = id)
      else d.subs r' := by
  rw [subs, delOneIvyClientFromDictionaryEntry, hashFind_onEntry _ (inPlace_pruneEntry _) he]
  split_ifs with hr
  · rw [elim_pruneEntry, ← hr, d.subs_of_hashFind he]
  · rfl

theorem subs_delOneClientFromDictionary (client : ℕ) (r : Text) :
    (delOneClientFromDictionary d client).subs r =
      (d.subs r).filter fun n => !(n.client = client) := by
  rw [subs, delOneClientFromDictionary, hashFind_update, subs]
  cases d.hashFind r with
  | none => rfl
  | some e => exact elim_pruneEntry _ e

theorem subs_addToClientList {r : Text} {e : MsgSndDict Code} (he : d.hashFind r = some e)
    (newClient : Subscriber) (r' : Text) :
    (addToClientList d e.ptr newClient).subs r' =
      if r = r' then newClient :: d.subs r' else d.subs r' := by
  rw [subs, addToClientList, hashFind_onEntry _ (inPlace_addClient _) he]
  split_ifs with hr
  · rw [← hr, d.subs_of_hashFind he]
    rfl
  · rfl

theorem findOrAdd_spec (r : Text) (binding : Option Code) :
    (∃ e, (findOrAdd d r binding).1.hashFind r = some e ∧ e.ptr = (findOrAdd d r binding).2) ∧
      ∀ r', (findOrAdd d r binding).1.subs r' = d.subs r' := by
  unfold findOrAdd
  split
  · rename_i e he
    exact ⟨⟨e, he, rfl⟩, fun _ => rfl⟩
  · rename_i hnone
    refine ⟨⟨_, by rw [hashFind_hashAdd, if_pos rfl], rfl⟩, fun r' => ?_⟩
    rw [subs, hashFind_hashAdd, subs]
    split_ifs with hr
    · rw [← hr, hnone]
      rfl
    · rfl

end Dictionary
end Ivy.Registry

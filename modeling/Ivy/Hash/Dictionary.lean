import Ivy.Hash.Chains
import Ivy.Lib.Machine
import Ivy.Registry.Views

/-! The dictionary of the regexps over the memory of its hash table. Each function of `ivy.c` on it
does to the table what the dictionary as a list does, over whole runs. -/
namespace Ivy.Hash
open Registry

variable {Code : Type*}

/-- The variable `messSndByRegexp`, and what the entries hold besides their handles. Addresses from
`brk` on were never allocated. -/
structure DictMemory (Code : Type*) where
  hash : Memory
  dict : ℕ → Option (MsgSndDict Code)
  brk : ℕ

namespace DictMemory

def null : DictMemory Code := ⟨⟨none, fun _ => none, none⟩, fun _ => none, 0⟩

def setDict (m : DictMemory Code) (msgSendDict : ℕ) (e : Option (MsgSndDict Code)) : DictMemory Code :=
  { m with dict := Function.update m.dict msgSendDict e }

/-- `free (msgSendDict)` -/
def free (m : DictMemory Code) (msgSendDict : ℕ) : DictMemory Code :=
  { m.setDict msgSendDict none with hash := m.hash.free msgSendDict }

/-- Clients are removed from an entry, and the entry with its last client. -/
def delFromEntry (keep : Subscriber → Bool) (m : DictMemory Code) (msgSendDict : ℕ) : Option (DictMemory Code) :=
  (m.dict msgSendDict).bind fun e =>
    match pruneEntry keep e with
    | some e => some (m.setDict msgSendDict (some e))
    | none => (hashDelete m.hash msgSendDict).map fun hash => { m with hash := hash }.free msgSendDict

section
variable (hashFcn : Text → UInt32) (m : DictMemory Code)

/-- `addRegexpToDictionary`; `binding` is what the regexp compiles to. -/
def addRegexpToDictionary (regexp : Text) (binding : Option Code) (newClient : Subscriber) :
    Option (DictMemory Code) :=
  (hashFind hashFcn m.hash regexp).bind fun
    | some msgSendDict => (m.dict msgSendDict).map fun e => m.setDict msgSendDict (addClient newClient e)
    | none => (hashAddKeyptr hashFcn m.hash regexp m.brk).map fun hash =>
      { m.setDict m.brk (some ⟨m.brk, regexp, [newClient], binding⟩) with hash := hash, brk := m.brk + 1 }

def delRegexpForOneClientFromDictionary (regexp : Text) (client : ℕ) (id : ℤ) : Option (DictMemory Code) :=
  (hashFind hashFcn m.hash regexp).bind fun
    | some msgSendDict => m.delFromEntry (fun n => !(n.client = client && n.id = id)) msgSendDict
    | none => some m

end

/-- The loop of `delOneClient` over the entries, which reads `hh.next` before an entry is freed. -/
def delOneClientFrom (keep : Subscriber → Bool) : ℕ → DictMemory Code → Option ℕ → Option (DictMemory Code)
  | _, m, none => some m
  | 0, _, some _ => none
  | fuel + 1, m, some msgSendDict => (m.hash.handle msgSendDict).bind fun hh =>
    (m.delFromEntry keep msgSendDict).bind fun m => delOneClientFrom keep fuel m hh.next

def delOneClientFromDictionary (m : DictMemory Code) (client : ℕ) : Option (DictMemory Code) :=
  delOneClientFrom (fun n => !(n.client = client)) m.brk m m.hash.head

/-- The loop of `delAllRegexpsFromDictionary`, which reads `hh.next` of an entry that it deleted and
did not free. -/
def delAllRegexpsFrom : ℕ → DictMemory Code → Option ℕ → Option (DictMemory Code)
  | _, m, none => some m
  | 0, _, some _ => none
  | fuel + 1, m, some msgSendDict => (m.dict msgSendDict).bind fun e =>
    (hashDelete m.hash msgSendDict).bind fun hash => (hash.handle msgSendDict).bind fun hh =>
      delAllRegexpsFrom fuel { m.setDict msgSendDict (some { e with clientList := [] }) with hash := hash } hh.next

def delAllRegexpsFromDictionary (m : DictMemory Code) : Option (DictMemory Code) :=
  delAllRegexpsFrom m.brk m m.hash.head

end DictMemory

def element (e : MsgSndDict Code) : ℕ × Text := (e.ptr, e.regexp_src)

/-- The hash table holds the entries of the dictionary, and nothing else is allocated. -/
structure Refines (hashFcn : Text → UInt32) (m : DictMemory Code) (d : Dictionary Code) : Prop where
  holds : Holds hashFcn m.hash (d.entries.map element)
  dict : ∀ a, m.dict a = Keyed.find (·.ptr) d.entries a
  brk : m.brk = d.brk

section Lists
variable {f : MsgSndDict Code → Option (MsgSndDict Code)} {pre post : List (MsgSndDict Code)} {e : MsgSndDict Code}

theorem map_fst_element (es : List (MsgSndDict Code)) : (es.map element).map Prod.fst = es.map (·.ptr) := by
  rw [List.map_map]
  rfl

theorem map_snd_element (es : List (MsgSndDict Code)) : (es.map element).map Prod.snd = es.map (·.regexp_src) := by
  rw [List.map_map]
  rfl

theorem find_element (es : List (MsgSndDict Code)) (regexp : Text) :
    (Keyed.find Prod.snd (es.map element) regexp).map Prod.fst =
      (Keyed.find (·.regexp_src) es regexp).map (·.ptr) := by
  induction es with
  | nil => rfl
  | cons e es ih =>
    rw [List.map_cons, Keyed.find_cons, Keyed.find_cons]
    change (if e.regexp_src = regexp then _ else _ : Option _).map _ = _
    split_ifs
    · rfl
    · exact ih

theorem filterMap_onEntry_of_ne {es : List (MsgSndDict Code)} {ptr : ℕ} (h : ptr ∉ es.map (·.ptr)) :
    es.filterMap (onEntry ptr f) = es := by
  have hsame : ∀ e ∈ es, onEntry ptr f e = some e := by
    intro e he
    have hne : e.ptr ≠ ptr := fun heq => h (heq ▸ List.mem_map_of_mem he)
    exact if_neg hne
  rw [List.filterMap_congr hsame, List.filterMap_some]

theorem filterMap_onEntry (h : ((pre ++ e :: post).map (·.ptr)).Nodup) :
    (pre ++ e :: post).filterMap (onEntry e.ptr f) = pre ++ (f e).toList ++ post := by
  rw [List.map_append, List.map_cons] at h
  have hpre : e.ptr ∉ pre.map (·.ptr) := fun hmem => (List.nodup_append.mp h).2.2 _ hmem _ List.mem_cons_self rfl
  have hpost : e.ptr ∉ post.map (·.ptr) := (List.nodup_cons.mp (List.nodup_append.mp h).2.1).1
  have hself : onEntry e.ptr f e = f e := if_pos rfl
  rw [List.filterMap_append, List.filterMap_cons, filterMap_onEntry_of_ne hpre, filterMap_onEntry_of_ne hpost, hself]
  cases f e <;> simp

end Lists

theorem dictionary_ext {d d' : Dictionary Code} (hentries : d.entries = d'.entries) (hbrk : d.brk = d'.brk) :
    d = d' := by
  cases d
  cases d'
  subst hentries hbrk
  rfl

section Operations
variable {hashFcn : Text → UInt32} {m : DictMemory Code} {d : Dictionary Code} {e : MsgSndDict Code}

theorem refines_null : Refines hashFcn (DictMemory.null : DictMemory Code) .empty where
  holds := ⟨fun _ => ⟨rfl, rfl⟩, fun hne => absurd rfl hne⟩
  dict _ := rfl
  brk := rfl

theorem Refines.hashFind (h : Refines hashFcn m d) (regexp : Text) :
    hashFind hashFcn m.hash regexp = some ((d.hashFind regexp).map (·.ptr)) := by
  have hkeys : ((d.entries.map element).map Prod.snd).Nodup := map_snd_element d.entries ▸ d.keys
  rw [h.holds.hashFind hkeys, find_element]
  rfl

theorem Refines.dict_eq (h : Refines hashFcn m d) (he : e ∈ d.entries) : m.dict e.ptr = some e := by
  rw [h.dict, Keyed.find_eq_some d.ptrs]
  exact ⟨he, rfl⟩

theorem Refines.dict_onEntry (h : Refines hashFcn m d) {f : MsgSndDict Code → Option (MsgSndDict Code)}
    (hf : InPlace f) (he : e ∈ d.entries) (c : ℕ) :
    Function.update m.dict e.ptr (f e) c = Keyed.find (·.ptr) (d.entries.filterMap (onEntry e.ptr f)) c := by
  rw [Keyed.find_filterMap (inPlace_onEntry hf e.ptr).keepsPtr d.ptrs, ← h.dict]
  by_cases hc : c = e.ptr
  · rw [hc, Function.update_self, h.dict_eq he, Option.bind_some, onEntry, if_pos rfl]
  · rw [Function.update_of_ne hc]
    cases hdict : m.dict c with
    | none => rfl
    | some e' =>
      rw [h.dict] at hdict
      have hptr : e'.ptr ≠ e.ptr := fun heq => hc ((Keyed.find_key hdict).symm.trans heq)
      rw [Option.bind_some, onEntry, if_neg hptr]

theorem Refines.setDict (h : Refines hashFcn m d) {f : MsgSndDict Code → Option (MsgSndDict Code)} (hf : InPlace f)
    (he : e ∈ d.entries) {e' : MsgSndDict Code} (hfe : f e = some e') :
    Refines hashFcn (m.setDict e.ptr (some e')) (d.update (onEntry e.ptr f) (inPlace_onEntry hf _)) where
  holds := by
    have hptrs := d.ptrs
    have hholds := h.holds
    obtain ⟨pre, post, hentries⟩ := List.append_of_mem he
    rw [hentries] at hptrs hholds
    have helement : element e' = element e := by
      obtain ⟨hkey, hptr⟩ := hf e e' hfe
      rw [element, hkey, hptr, element]
    have hnew : (d.update (onEntry e.ptr f) (inPlace_onEntry hf _)).entries.map element =
        (pre ++ e :: post).map element := by
      change (d.entries.filterMap (onEntry e.ptr f)).map element = _
      rw [hentries, filterMap_onEntry hptrs, hfe]
      simp [helement]
    rw [hnew]
    exact hholds
  dict c := hfe ▸ h.dict_onEntry hf he c
  brk := h.brk

theorem Refines.delFromEntry (h : Refines hashFcn m d) (keep : Subscriber → Bool) (he : e ∈ d.entries) :
    ∃ m', m.delFromEntry keep e.ptr = some m' ∧
      Refines hashFcn m' (d.update (onEntry e.ptr (pruneEntry keep)) (inPlace_onEntry (inPlace_pruneEntry keep) _)) ∧
      (Short m.hash → Short m'.hash) := by
  rw [DictMemory.delFromEntry, h.dict_eq he, Option.bind_some]
  cases hprune : pruneEntry keep e with
  | some e' => exact ⟨_, rfl, h.setDict (inPlace_pruneEntry keep) he hprune, id⟩
  | none =>
    have hptrs := d.ptrs
    have hholds := h.holds
    obtain ⟨pre, post, hentries⟩ := List.append_of_mem he
    rw [hentries] at hptrs hholds
    rw [List.map_append, List.map_cons] at hholds
    obtain ⟨hash, hdelete, hholds', -, hshrunk⟩ := hholds.hashDelete
    have hnew : (d.update (onEntry e.ptr (pruneEntry keep)) (inPlace_onEntry (inPlace_pruneEntry keep) _)).entries =
        pre ++ post := by
      change d.entries.filterMap (onEntry e.ptr (pruneEntry keep)) = _
      rw [hentries, filterMap_onEntry hptrs, hprune]
      simp
    have hfreed : e.ptr ∉ (pre.map element ++ post.map element).map Prod.fst := by
      rw [← List.map_append, map_fst_element, List.map_append]
      rw [List.map_append, List.map_cons] at hptrs
      exact (List.nodup_middle.mp hptrs).notMem
    have hfree : (hashDelete m.hash e.ptr).map (fun hash => { m with hash := hash }.free e.ptr) =
        some ({ m with hash := hash }.free e.ptr) := by
      rw [show hashDelete m.hash e.ptr = some hash from hdelete, Option.map_some]
    refine ⟨{ m with hash := hash }.free e.ptr, hfree, ⟨?_, ?_, h.brk⟩, fun hshort => ?_⟩
    · rw [hnew, List.map_append]
      exact hholds'.free hfreed
    · intro c
      have hc := h.dict_onEntry (inPlace_pruneEntry keep) he c
      rw [hprune] at hc
      exact hc
    · have hshort' : Short hash := short_delete hshort hshrunk
      exact hshort'

def Room (m : Memory) : Prop := ∀ tbl ∈ m.tbl, tbl.num_items + 1 < 2 ^ 32 ∧ tbl.num_buckets * 2 < 2 ^ 32

instance (m : Memory) : Decidable (Room m) := inferInstanceAs (Decidable (∀ tbl ∈ m.tbl, _))

theorem Holds.few {hash : Memory} {es : List (ℕ × Text)} (h : Holds hashFcn hash es) (hroom : Room hash) :
    es.length + 1 < 2 ^ 32 := by
  rcases eq_or_ne es [] with rfl | hes
  · simp
  · obtain ⟨tbl, htbl, htable⟩ := h.table hes
    rw [← htable.num_items]
    exact (hroom tbl htbl).1

theorem Refines.addRegexpToDictionary (h : Refines hashFcn m d) {regexp : Text} (hkey : regexp.length < 2 ^ 32)
    (hroom : Room m.hash) (binding : Option Code) (newClient : Subscriber) :
    ∃ m', m.addRegexpToDictionary hashFcn regexp binding newClient = some m' ∧
      Refines hashFcn m' (addToClientList (findOrAdd d regexp binding).1 (findOrAdd d regexp binding).2 newClient) ∧
      (Short m.hash → Short m'.hash) := by
  rw [DictMemory.addRegexpToDictionary, h.hashFind, Option.bind_some]
  cases hfind : d.hashFind regexp with
  | some e =>
    have he := (d.hashFind_some.mp hfind).1
    rw [findOrAdd_of_some hfind, Option.map_some]
    simp only
    rw [h.dict_eq he, Option.map_some]
    exact ⟨_, rfl, h.setDict (inPlace_addClient newClient) he rfl, id⟩
  | none =>
    have hfresh : m.brk ∉ (d.entries.map element).map Prod.fst := by
      rw [map_fst_element, h.brk]
      intro hmem
      obtain ⟨e, he, hptr⟩ := List.mem_map.mp hmem
      exact absurd hptr (Nat.ne_of_lt (d.below e he))
    obtain ⟨hash, tbl, hadd, htbl, hholds, hto⟩ := h.holds.hashAddKeyptr hfresh hkey (h.holds.few hroom)
      fun tbl htbl => (hroom tbl htbl).2
    rw [findOrAdd_of_none hfind, Option.map_none]
    simp only
    rw [hadd, Option.map_some]
    have hptrs : ((d.entries ++ [d.newEntry regexp binding]).map (·.ptr)).Nodup :=
      (d.hashAdd regexp binding hfind).ptrs
    have hentries : (addToClientList (d.hashAdd regexp binding hfind) d.brk newClient).entries =
        d.entries ++ [⟨d.brk, regexp, [newClient], binding⟩] := by
      change (d.entries ++ [d.newEntry regexp binding]).filterMap (onEntry (d.newEntry regexp binding).ptr _) = _
      rw [filterMap_onEntry hptrs]
      simp [addClient, Dictionary.newEntry]
    refine ⟨_, rfl, ⟨?_, ?_, ?_⟩, fun hshort => ?_⟩
    · rw [hentries, List.map_append, ← h.brk]
      exact hholds
    · intro c
      rw [hentries]
      have hnone : Keyed.find (·.ptr) d.entries d.brk = none := by
        rw [Keyed.find_eq_none]
        rwa [map_fst_element, h.brk] at hfresh
      rw [Keyed.find_concat _ hnone, ← h.dict, h.brk]
      by_cases hc : d.brk = c
      · subst hc
        rw [if_pos rfl]
        exact Function.update_self _ _ _
      · rw [if_neg hc]
        exact Function.update_of_ne (Ne.symm hc) _ _
    · exact congrArg (· + 1) h.brk
    · exact h.holds.short_add hshort hholds htbl hto

theorem Refines.delRegexpForOneClientFromDictionary (h : Refines hashFcn m d) (regexp : Text) (client : ℕ) (id : ℤ) :
    ∃ m', m.delRegexpForOneClientFromDictionary hashFcn regexp client id = some m' ∧
      Refines hashFcn m' ((d.hashFind regexp).elim d fun e => delOneIvyClientFromDictionaryEntry d e client id) ∧
      (Short m.hash → Short m'.hash) := by
  rw [DictMemory.delRegexpForOneClientFromDictionary, h.hashFind, Option.bind_some]
  cases hfind : d.hashFind regexp with
  | some e => exact h.delFromEntry _ (d.hashFind_some.mp hfind).1
  | none => exact ⟨m, rfl, h, fun hshort => hshort⟩

/-- The link that the loops over the dictionary follow. -/
theorem Holds.next_eq {hash : Memory} {pre post : List (MsgSndDict Code)}
    (h : Holds hashFcn hash ((pre ++ e :: post).map element)) :
    ∃ hh, hash.handle e.ptr = some hh ∧ hh.next = (post.head?).map (·.ptr) := by
  obtain ⟨tbl, htbl, happ, -, -⟩ := h.table (by simp)
  have hseg := happ.seg
  rw [map_fst_element, List.map_append, List.map_cons] at hseg
  obtain ⟨hh, hhh, hlinks⟩ := Option.map_eq_some_iff.mp hseg.neighbours
  refine ⟨hh, hhh, ?_⟩
  have hnext : hh.next = (post.map (·.ptr)).head? := congrArg Doubly.Links.next hlinks
  rw [hnext, List.head?_map]

theorem Refines.head_eq (h : Refines hashFcn m d) : m.hash.head = (d.entries.head?).map (·.ptr) := by
  have hholds := h.holds
  cases hentries : d.entries with
  | nil =>
    rw [hentries] at hholds
    exact (hholds.null rfl).1
  | cons e es =>
    rw [hentries] at hholds
    obtain ⟨tbl, -, happ, -, -⟩ := hholds.table (by simp)
    exact happ.seg.1

/-- There are no more entries than addresses. -/
theorem length_le_brk (d : Dictionary Code) : d.entries.length ≤ d.brk := by
  have hsub : (d.entries.map (·.ptr)).toFinset ⊆ Finset.range d.brk := by
    intro a ha
    obtain ⟨e, he, rfl⟩ := List.mem_map.mp (List.mem_toFinset.mp ha)
    exact Finset.mem_range.mpr (d.below e he)
  have hcard := Finset.card_le_card hsub
  rwa [List.toFinset_card_of_nodup d.ptrs, Finset.card_range, List.length_map] at hcard

/-- The walk of `delOneClient`: what it left behind is updated, what lies ahead is as it was. -/
theorem Refines.delOneClientFrom (keep : Subscriber → Bool) {rest : List (MsgSndDict Code)} {fuel : ℕ}
    (hfuel : rest.length ≤ fuel) {pre : List (MsgSndDict Code)} {m : DictMemory Code} {d : Dictionary Code}
    (h : Refines hashFcn m d) (hentries : d.entries = pre ++ rest) :
    ∃ m' d', DictMemory.delOneClientFrom keep fuel m ((rest.head?).map (·.ptr)) = some m' ∧ Refines hashFcn m' d' ∧
      d'.entries = pre ++ rest.filterMap (pruneEntry keep) ∧ d'.brk = d.brk ∧ (Short m.hash → Short m'.hash) := by
  induction rest generalizing fuel pre m d with
  | nil =>
    refine ⟨m, d, ?_, h, hentries, rfl, id⟩
    cases fuel <;> rfl
  | cons e rest ih =>
    cases fuel with
    | zero => simp at hfuel
    | succ fuel =>
      have hholds := h.holds
      rw [hentries] at hholds
      obtain ⟨hh, hhh, hnext⟩ := hholds.next_eq
      have he : e ∈ d.entries := by simp [hentries]
      obtain ⟨m₁, hm₁, hrefines, hshort⟩ := h.delFromEntry keep he
      have hptrs := d.ptrs
      rw [hentries] at hptrs
      have hentries₁ : (d.update (onEntry e.ptr (pruneEntry keep))
          (inPlace_onEntry (inPlace_pruneEntry keep) _)).entries = (pre ++ (pruneEntry keep e).toList) ++ rest := by
        change d.entries.filterMap _ = _
        rw [hentries, filterMap_onEntry hptrs]
      obtain ⟨m', d', hm', hrefines', hentries', hbrk, hshort'⟩ :=
        ih (Nat.le_of_succ_le_succ hfuel) hrefines hentries₁
      refine ⟨m', d', ?_, hrefines', ?_, hbrk, hshort' ∘ hshort⟩
      · rw [List.head?_cons, Option.map_some, DictMemory.delOneClientFrom, hhh, Option.bind_some, hm₁,
          Option.bind_some, hnext, hm']
      · rw [hentries', List.filterMap_cons]
        cases pruneEntry keep e <;> simp

theorem Refines.delOneClientFromDictionary (h : Refines hashFcn m d) (client : ℕ) :
    ∃ m', m.delOneClientFromDictionary client = some m' ∧
      Refines hashFcn m' (Registry.delOneClientFromDictionary d client) ∧ (Short m.hash → Short m'.hash) := by
  have hfuel : d.entries.length ≤ m.brk := h.brk ▸ length_le_brk d
  have hstart : d.entries = [] ++ d.entries := rfl
  obtain ⟨m', d', hm', hrefines, hentries, hbrk, hshort⟩ :=
    h.delOneClientFrom (fun n => !(n.client = client)) hfuel hstart
  refine ⟨m', ?_, ?_, hshort⟩
  · rw [DictMemory.delOneClientFromDictionary, h.head_eq, hm']
  · have hd : d' = Registry.delOneClientFromDictionary d client := dictionary_ext hentries hbrk
    exact hd ▸ hrefines

/-- The walk of `delAllRegexpsFromDictionary` goes on from entries that it deleted. -/
theorem delAllRegexpsFrom_spec {rest : List (MsgSndDict Code)} {fuel : ℕ} (hfuel : rest.length ≤ fuel)
    {m : DictMemory Code} (h : Holds hashFcn m.hash (rest.map element)) (hptrs : (rest.map (·.ptr)).Nodup)
    (hdict : ∀ e ∈ rest, m.dict e.ptr = some e) :
    ∃ m', DictMemory.delAllRegexpsFrom fuel m ((rest.head?).map (·.ptr)) = some m' ∧ m'.hash.head = none ∧
      m'.hash.tbl = none ∧ (∀ e ∈ rest, m'.dict e.ptr = some { e with clientList := [] }) ∧
      ∀ a ∉ rest.map (·.ptr), m'.dict a = m.dict a := by
  induction rest generalizing fuel m with
  | nil =>
    obtain ⟨hhead, htbl⟩ := h.null rfl
    refine ⟨m, ?_, hhead, htbl, by simp, fun _ _ => rfl⟩
    cases fuel <;> rfl
  | cons e rest ih =>
    cases fuel with
    | zero => simp at hfuel
    | succ fuel =>
      obtain ⟨hnot, hptrs⟩ := List.nodup_cons.mp hptrs
      have hall : Holds hashFcn m.hash (([] ++ e :: rest).map element) := h
      obtain ⟨hh, hhh, hnext⟩ := hall.next_eq
      have hfirst : Holds hashFcn m.hash ([] ++ element e :: rest.map element) := h
      obtain ⟨hash, hdelete, hholds, hsame, -⟩ := hfirst.hashDelete
      have hdelete : hashDelete m.hash e.ptr = some hash := hdelete
      have hkept : hash.handle e.ptr = some hh := by
        rw [← hhh]
        apply hsame
        rw [List.nil_append, map_fst_element]
        exact hnot
      let m₁ : DictMemory Code := { m.setDict e.ptr (some { e with clientList := [] }) with hash := hash }
      have hother : ∀ a, a ≠ e.ptr → m₁.dict a = m.dict a := fun a ha => Function.update_of_ne ha _ _
      have hdict₁ : ∀ e' ∈ rest, m₁.dict e'.ptr = some e' := by
        intro e' he'
        rw [hother _ (ne_of_mem_of_not_mem (List.mem_map_of_mem he') hnot)]
        exact hdict e' (List.mem_cons_of_mem e he')
      obtain ⟨m', hm', hhead, htbl, hemptied, hrest⟩ := ih (Nat.le_of_succ_le_succ hfuel) hholds hptrs hdict₁
      refine ⟨m', ?_, hhead, htbl, ?_, ?_⟩
      · rw [List.head?_cons, Option.map_some, DictMemory.delAllRegexpsFrom, hdict e List.mem_cons_self,
          Option.bind_some, hdelete, Option.bind_some, hkept, Option.bind_some, hnext]
        exact hm'
      · intro e' he'
        rcases List.mem_cons.mp he' with rfl | he'
        · rw [hrest _ hnot]
          exact Function.update_self _ _ _
        · exact hemptied e' he'
      · intro a ha
        obtain ⟨hae, harest⟩ := not_or.mp (List.mem_cons.not.mp ha)
        rw [hrest a harest, hother a hae]

end Operations

/-- What the library does to the dictionary; a regexp is added with what it compiles to. -/
inductive DictEvent (Code : Type*)
  | addRegexpToDictionary (regexp : Text) (binding : Option Code) (newClient : Subscriber)
  | delRegexpForOneClientFromDictionary (regexp : Text) (client : ℕ) (id : ℤ)
  | delOneClient (client : ℕ)

namespace DictEvent

def step (hashFcn : Text → UInt32) (m : DictMemory Code) : DictEvent Code → Option (DictMemory Code)
  | addRegexpToDictionary regexp binding newClient => m.addRegexpToDictionary hashFcn regexp binding newClient
  | delRegexpForOneClientFromDictionary regexp client id =>
    m.delRegexpForOneClientFromDictionary hashFcn regexp client id
  | delOneClient client => m.delOneClientFromDictionary client

def onList (d : Dictionary Code) : DictEvent Code → Dictionary Code
  | addRegexpToDictionary regexp binding newClient =>
    addToClientList (findOrAdd d regexp binding).1 (findOrAdd d regexp binding).2 newClient
  | delRegexpForOneClientFromDictionary regexp client id =>
    (d.hashFind regexp).elim d fun e => delOneIvyClientFromDictionaryEntry d e client id
  | delOneClient client => Registry.delOneClientFromDictionary d client

/-- Keys are shorter than an `unsigned` counts, and an addition has room. -/
def Fits (m : DictMemory Code) : DictEvent Code → Prop
  | addRegexpToDictionary regexp _ _ => regexp.length < 2 ^ 32 ∧ Room m.hash
  | _ => True

instance (m : DictMemory Code) : ∀ e : DictEvent Code, Decidable (e.Fits m)
  | addRegexpToDictionary _ _ _ => inferInstanceAs (Decidable (_ ∧ _))
  | delRegexpForOneClientFromDictionary _ _ _ | delOneClient _ => inferInstanceAs (Decidable True)

end DictEvent

section Runs
variable {hashFcn : Text → UInt32} {m : DictMemory Code} {d : Dictionary Code}

theorem DictEvent.step_refines (h : Refines hashFcn m d) (hshort : Short m.hash) (e : DictEvent Code) (hfits : e.Fits m) :
    ∃ m', e.step hashFcn m = some m' ∧ Refines hashFcn m' (e.onList d) ∧ Short m'.hash := by
  cases e with
  | addRegexpToDictionary regexp binding newClient =>
    obtain ⟨m', hm', hrefines, hshort'⟩ := h.addRegexpToDictionary hfits.1 hfits.2 binding newClient
    exact ⟨m', hm', hrefines, hshort' hshort⟩
  | delRegexpForOneClientFromDictionary regexp client id =>
    obtain ⟨m', hm', hrefines, hshort'⟩ := h.delRegexpForOneClientFromDictionary regexp client id
    exact ⟨m', hm', hrefines, hshort' hshort⟩
  | delOneClient client =>
    obtain ⟨m', hm', hrefines, hshort'⟩ := h.delOneClientFromDictionary client
    exact ⟨m', hm', hrefines, hshort' hshort⟩

theorem run_refines {es : List (DictEvent Code)}
    (hfits : Machine.Guarded (DictEvent.step hashFcn) (fun m e => e.Fits m) .null es) :
    ∃ m, Machine.run (DictEvent.step hashFcn) .null es = some m ∧
      Refines hashFcn m (es.foldl DictEvent.onList .empty) ∧ Short m.hash := by
  apply Machine.run_history (I := fun past m => Refines hashFcn m (past.foldl DictEvent.onList .empty) ∧ Short m.hash)
    ⟨refines_null, fun _ htbl => absurd htbl (Option.not_mem_none _)⟩ ?_ hfits
  intro past m e hI hG
  obtain ⟨m', hm', hrefines, hshort⟩ := e.step_refines hI.1 hI.2 hG
  rw [List.foldl_concat]
  exact ⟨m', hm', hrefines, hshort⟩

end Runs
end Ivy.Hash

import Ivy.Registry.Agreement
import Ivy.Registry.Errors
import Ivy.Registry.Sending

/-! What is sent for a message to a subscriber that the peer agrees with: one frame for each of its
bindings that match. -/
namespace Ivy.Registry

variable {Code : Type*}

def answers (compile : Compile Code) (exec : Exec Code) (message regexp : Text) : Option (List (Option Text)) :=
  (compile regexp).toOption.bind fun code => exec code message

/-- Every entry holds the code of its regexp. -/
def Compiled (compile : Compile Code) (s : State Code) : Prop :=
  ∀ e ∈ s.messSndByRegexp.entries, e.binding = (compile e.regexp_src).toOption

section Steps
variable {compile : Compile Code} {s t : State Code}

theorem Compiled.quiet (h : Compiled compile s) (hquiet : Quiet s t) : Compiled compile t := by
  intro e' he'
  obtain ⟨e, he, hkey, hbinding⟩ := hquiet.compiled e' he'
  rw [hbinding, hkey, h e he]

theorem Compiled.addOrChange (h : Compiled compile s) {regexp : Text} {client : IvyClient}
    (ht : addOrChangeRegexp compile s regexp client = some t) : Compiled compile t := by
  unfold addOrChangeRegexp at ht
  split_ifs at ht
  · obtain rfl := Option.some.inj ht
    have hdeleted := h.quiet (Quiet.delFromDictionary s regexp client)
    exact addToDictionary_compiled hdeleted
  · unfold Compiled
    rw [(addRegexp_eq ht).2]
    exact addToDictionary_compiled h

/-- A line compiles what it adds and nothing else. -/
theorem Compiled.receiveLine (h : Compiled compile s) {c : ℕ} (hc : s.allClients.find c ≠ none) {line : Line}
    (ht : receiveLine compile s c line = some t) : Compiled compile t := by
  cases line with
  | addRegexp id regexp =>
    obtain ⟨clnt, hfind, -, -⟩ := find_setId hc id
    rw [receiveLine_addRegexp hfind] at ht
    have hset : Compiled compile (setId s c id) := h
    exact hset.addOrChange ht
  | delRegexp id arg => exact h.quiet (quiet_line hc (fun _ _ => Line.noConfusion) ht)
  | startRegexp id arg => exact h.quiet (quiet_line hc (fun _ _ => Line.noConfusion) ht)
  | endRegexp id arg => exact h.quiet (quiet_line hc (fun _ _ => Line.noConfusion) ht)

end Steps

section Sends
variable {compile : Compile Code} {exec : Exec Code} {message : Text} {s : State Code} {c : ℕ} {b : Bindings}

def callsTo (exec : Exec Code) (message : Text) (s : State Code) (c : ℕ) : List (ℤ × List (Option Text)) :=
  ((sendOverDictionary exec message s).filter (·.1.client = c)).map fun call => (call.1.id, call.2)

def matching (compile : Compile Code) (exec : Exec Code) (message : Text) (b : Bindings) :
    List (ℤ × List (Option Text)) :=
  b.msg_recv.filterMap fun msg => (answers compile exec message msg.regexp).map fun captures => (msg.id, captures)

def callsOf (exec : Exec Code) (message : Text) (c : ℕ) (e : MsgSndDict Code) : List (ℤ × List (Option Text)) :=
  ((regexpCall exec message e).filter (·.1.client = c)).map fun call => (call.1.id, call.2)

theorem callsTo_eq (exec : Exec Code) (message : Text) (s : State Code) (c : ℕ) :
    callsTo exec message s c = s.messSndByRegexp.entries.flatMap (callsOf exec message c) := by
  unfold callsTo sendOverDictionary callsOf
  rw [List.filter_flatMap, List.map_flatMap]

theorem callsOf_eq (hcompiled : Compiled compile s) {e : MsgSndDict Code} (he : e ∈ s.messSndByRegexp.entries) :
    callsOf exec message c e = (answers compile exec message e.regexp_src).elim []
      fun captures => (e.clientList.filter (·.client = c)).map fun n => (n.id, captures) := by
  unfold callsOf regexpCall answers
  rw [hcompiled e he]
  cases (compile e.regexp_src).toOption.bind fun code => exec code message with
  | none => rfl
  | some captures =>
    dsimp only
    rw [List.filter_map, List.map_map]
    rfl

theorem subs_of_entry {e : MsgSndDict Code} (he : e ∈ s.messSndByRegexp.entries) :
    s.messSndByRegexp.subs e.regexp_src = e.clientList := by
  have hfind : s.messSndByRegexp.hashFind e.regexp_src = some e :=
    (Keyed.find_eq_some s.messSndByRegexp.keys).mpr ⟨he, rfl⟩
  rw [Dictionary.subs, hfind]
  rfl

theorem mem_callsOf (h : Holds s c b.regexp) (hcompiled : Compiled compile s) {e : MsgSndDict Code}
    (he : e ∈ s.messSndByRegexp.entries) {id : ℤ} {captures : List (Option Text)} :
    (id, captures) ∈ callsOf exec message c e ↔
      b.regexp id = some e.regexp_src ∧ answers compile exec message e.regexp_src = some captures := by
  rw [callsOf_eq hcompiled he, ← h.mem_subs, subs_of_entry he]
  cases answers compile exec message e.regexp_src with
  | none => simp
  | some found =>
    simp only [Option.elim_some, List.mem_map, List.mem_filter, decide_eq_true_eq, Prod.mk.injEq,
      Option.some.injEq]
    constructor
    · rintro ⟨⟨client, id'⟩, ⟨hn, rfl⟩, rfl, rfl⟩
      exact ⟨hn, rfl⟩
    · rintro ⟨hn, rfl⟩
      exact ⟨⟨c, id⟩, ⟨hn, rfl⟩, rfl, rfl⟩

/-- A client is sent for a binding exactly if it matches. -/
theorem mem_callsTo (h : Holds s c b.regexp) (hcompiled : Compiled compile s) {id : ℤ}
    {captures : List (Option Text)} :
    (id, captures) ∈ callsTo exec message s c ↔ (id, captures) ∈ matching compile exec message b := by
  have hleft : (id, captures) ∈ callsTo exec message s c ↔
      ∃ r, b.regexp id = some r ∧ answers compile exec message r = some captures := by
    rw [callsTo_eq, List.mem_flatMap]
    constructor
    · rintro ⟨e, he, hmem⟩
      exact ⟨e.regexp_src, (mem_callsOf h hcompiled he).mp hmem⟩
    · rintro ⟨r, hr, hanswers⟩
      have hsubs := h.mem_subs.mpr hr
      unfold Dictionary.subs at hsubs
      cases hfind : s.messSndByRegexp.hashFind r with
      | none => simp [hfind] at hsubs
      | some e =>
        obtain ⟨he, rfl⟩ := (Keyed.find_eq_some s.messSndByRegexp.keys).mp hfind
        exact ⟨e, he, (mem_callsOf h hcompiled he).mpr ⟨hr, hanswers⟩⟩
  rw [hleft]
  simp only [matching, List.mem_filterMap, Option.map_eq_some_iff, Prod.mk.injEq, b.regexp_eq_some]
  constructor
  · rintro ⟨r, ⟨msg, hmsg, rfl, rfl⟩, hanswers⟩
    exact ⟨msg, hmsg, captures, hanswers, rfl, rfl⟩
  · rintro ⟨msg, hmsg, captures', hanswers, rfl, rfl⟩
    exact ⟨msg.regexp, ⟨msg, hmsg, rfl, rfl⟩, hanswers⟩

theorem nodup_matching (compile : Compile Code) (exec : Exec Code) (message : Text) (b : Bindings) :
    (matching compile exec message b).Nodup := by
  have hids : ((matching compile exec message b).map (·.1)).Sublist (b.msg_recv.map (·.id)) := by
    unfold matching
    induction b.msg_recv with
    | nil => exact .slnil
    | cons msg msgs ih =>
      cases hanswers : answers compile exec message msg.regexp with
      | none => simpa [List.filterMap_cons, hanswers] using ih.cons msg.id
      | some captures => simpa [List.filterMap_cons, hanswers] using ih
  exact (b.ids.sublist hids).of_map

theorem nodup_callsTo (h : Holds s c b.regexp) (hcompiled : Compiled compile s) :
    (callsTo exec message s c).Nodup := by
  rw [callsTo_eq, List.nodup_flatMap]
  constructor
  · intro e he
    have hclients : (e.clientList.filter (·.client = c)).Nodup := by
      rw [List.nodup_iff_count_le_one]
      rintro ⟨client, id⟩
      by_cases hclient : client = c
      · subst hclient
        have hcount := h.count id e.regexp_src
        have hsub : (e.clientList.filter (·.client = client)).Sublist e.clientList := List.filter_sublist
        have hle := hsub.count_le ⟨client, id⟩
        rw [subs_of_entry he] at hcount
        split_ifs at hcount <;> omega
      · have hnot : (⟨client, id⟩ : Subscriber) ∉ e.clientList.filter (·.client = c) := by simp [hclient]
        rw [List.count_eq_zero.mpr hnot]
        exact Nat.zero_le 1
    rw [callsOf_eq hcompiled he]
    cases answers compile exec message e.regexp_src with
    | none => exact List.nodup_nil
    | some captures =>
      refine List.Nodup.map_on ?_ hclients
      rintro ⟨client, id⟩ hn ⟨client', id'⟩ hn' heq
      have hclient : client = c := by simpa using (List.mem_filter.mp hn).2
      have hclient' : client' = c := by simpa using (List.mem_filter.mp hn').2
      have hid : id = id' := (Prod.mk.inj heq).1
      rw [hclient, hclient', hid]
  · -- an id has one regexp, so it is in one entry
    have hkeys := List.pairwise_map.mp s.messSndByRegexp.keys
    refine hkeys.imp_of_mem fun {e e'} he he' hne => ?_
    rintro ⟨id, captures⟩ hmem hmem'
    have hr := ((mem_callsOf h hcompiled he).mp hmem).1
    have hr' := ((mem_callsOf h hcompiled he').mp hmem').1
    exact hne (Option.some.inj (hr.symm.trans hr'))

/-- Each binding that matches is sent for once, and no other. -/
theorem callsTo_perm (h : Holds s c b.regexp) (hcompiled : Compiled compile s) :
    (callsTo exec message s c).Perm (matching compile exec message b) := by
  rw [List.perm_ext_iff_of_nodup (nodup_callsTo h hcompiled) (nodup_matching compile exec message b)]
  rintro ⟨id, captures⟩
  exact mem_callsTo h hcompiled

end Sends

end Ivy.Registry

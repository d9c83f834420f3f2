import Ivy.Probe.Stdin
import Mathlib.Data.List.Nodup
import Mathlib.Algebra.BigOperators.Group.List.Basic

/-! The command that sends a Die to every application. -/
namespace Ivy.Probe
open Tokens

section List

def listed (apps : Applications) (sep : Text) : Text := apps.list.flatMap fun app => app.2 ++ sep

theorem ivyGetApplicationList_eq (apps : Applications) (sep : Text) :
    ivyGetApplicationList apps sep =
      if (listed apps sep).length < 4096 then some (listed apps sep) else none := by
  suffices h : ∀ (l : List (ℕ × Text)) (applist : Text), applist.length < 4096 →
      l.foldlM (fun applist app => (strcat 4096 applist app.2).bind (strcat 4096 · sep)) applist =
        if (applist ++ l.flatMap fun app => app.2 ++ sep).length < 4096 then
          some (applist ++ l.flatMap fun app => app.2 ++ sep) else none from h apps.list [] (by simp)
  intro l
  induction l with
  | nil =>
    intro applist hlt
    simp [hlt]
  | cons app l ih =>
    intro applist hlt
    rw [List.foldlM_cons]
    by_cases hname : (applist ++ app.2 ++ sep).length < 4096
    · have hcat : (strcat 4096 applist app.2).bind (strcat 4096 · sep) = some (applist ++ app.2 ++ sep) := by
        simp only [List.length_append] at hname
        have hfirst : strcat 4096 applist app.2 = some (applist ++ app.2) := if_pos (by omega)
        rw [hfirst, Option.bind_some]
        exact if_pos (by simpa using hname)
      rw [hcat]
      refine (ih _ hname).trans ?_
      simp [List.flatMap_cons]
    · have hcat : (strcat 4096 applist app.2).bind (strcat 4096 · sep) = none := by
        refine Option.bind_eq_none_iff.mpr fun dest hdest => ?_
        unfold strcat at hdest
        split_ifs at hdest
        obtain rfl := Option.some.inj hdest
        rw [List.append_assoc] at hname
        exact if_neg (by simpa [Nat.add_assoc] using hname)
      rw [hcat, if_neg]
      · rfl
      · simp only [List.flatMap_cons, List.length_append] at hname ⊢
        omega

end List

section Kills
variable {apps : Applications}

theorem app_unique {app app' : ℕ × Text} (h : app ∈ apps.list) (h' : app' ∈ apps.list)
    (heq : app.1 = app'.1) : app = app' :=
  List.inj_on_of_nodup_map apps.nodup h h' heq

theorem ivyGetApplication_some {name : Text} {c : ℕ} (h : ivyGetApplication apps name = some c) :
    (c, name) ∈ apps.list := by
  obtain ⟨app, hfind, rfl⟩ := Option.map_eq_some_iff.mp h
  have hname : app.2 = name := by simpa using List.find?_some hfind
  rw [← hname]
  exact List.mem_of_find?_eq_some hfind

theorem ivyGetApplication_iff (hnames : (apps.list.map (·.2)).Nodup) {app : ℕ × Text} (h : app ∈ apps.list)
    (name : Text) : ivyGetApplication apps name = some app.1 ↔ name = app.2 := by
  constructor
  · intro hsome
    have hmem := ivyGetApplication_some hsome
    exact congrArg Prod.snd (app_unique hmem h rfl)
  · rintro rfl
    cases hsome : ivyGetApplication apps app.2 with
    | none =>
      have hnone := List.find?_eq_none.mp (Option.map_eq_none_iff.mp hsome) app h
      simp at hnone
    | some c =>
      have heq := List.inj_on_of_nodup_map hnames (ivyGetApplication_some hsome) h rfl
      exact congrArg (fun app => some app.1) heq

theorem count_kill (arg : Text) (c : ℕ) :
    (kill apps arg).count (.ivySendDieMsg c) = if ivyGetApplication apps arg = some c then 1 else 0 := by
  unfold kill
  cases ivyGetApplication apps arg with
  | none => simp [noApplication]
  | some app => simp [List.count_cons]

theorem count_kills (args : List Text) (c : ℕ) :
    (args.flatMap (kill apps)).count (.ivySendDieMsg c) =
      args.countP fun arg => ivyGetApplication apps arg = some c := by
  induction args with
  | nil => rfl
  | cons arg args ih =>
    rw [List.flatMap_cons, List.count_append, ih, count_kill, List.countP_cons, Nat.add_comm]
    simp

/-- The byte that `dieall-yes-i-am-sure` lists the names with. -/
def hash : UInt8 := 35

theorem ascii_hash : ascii "#" = [hash] := by
  decide

theorem isToken_byte {separators : String} {b : UInt8} (h : ascii separators = [b]) {t : Text} :
    IsToken ((ascii separators).contains ·) t ↔ t ≠ [] ∧ b ∉ t := by
  have hsep (a : UInt8) : (ascii separators).contains a = false ↔ a ≠ b := by
    simp [h]
  simp only [IsToken, hsep]
  refine and_congr_right fun _ => ⟨fun ht hmem => ht b hmem rfl, fun ht a ha heq => ht (heq ▸ ha)⟩

theorem tokens_listed (apps : Applications) : tokens ((ascii "#").contains ·) (listed apps (ascii "#")) =
    (apps.list.map (·.2)).flatMap (tokens ((ascii "#").contains ·)) := by
  have hlisted : listed apps (ascii "#") = (apps.list.map (·.2)).flatMap (· ++ [hash]) := by
    rw [List.flatMap_map]
    rfl
  rw [hlisted]
  exact tokens_flatMap (by decide) _

/-- Each application gets one Die exactly if the names are pairwise different and each is a token. -/
theorem kills_each_once (apps : Applications) :
    (∀ app ∈ apps.list, ((tokens ((ascii "#").contains ·) (listed apps (ascii "#"))).flatMap
      (kill apps)).count (.ivySendDieMsg app.1) = 1) ↔
      (apps.list.map (·.2)).Nodup ∧ ∀ app ∈ apps.list, app.2 ≠ [] ∧ hash ∉ app.2 := by
  rw [tokens_listed]
  simp only [count_kills, ← isToken_byte ascii_hash]
  constructor
  · intro h
    have hfound (app : ℕ × Text) (happ : app ∈ apps.list) :
        IsToken ((ascii "#").contains ·) app.2 ∧ ivyGetApplication apps app.2 = some app.1 := by
      have hpos : 0 < ((apps.list.map (·.2)).flatMap (tokens ((ascii "#").contains ·))).countP
          fun arg => ivyGetApplication apps arg = some app.1 := by
        rw [h app happ]
        exact Nat.one_pos
      obtain ⟨arg, harg, hsome⟩ := List.countP_pos_iff.mp hpos
      have hsome : ivyGetApplication apps arg = some app.1 := of_decide_eq_true hsome
      have hname : arg = app.2 := congrArg Prod.snd (app_unique (ivyGetApplication_some hsome) happ rfl)
      subst hname
      obtain ⟨name, -, hmem⟩ := List.mem_flatMap.mp harg
      exact ⟨isToken_of_mem hmem, hsome⟩
    refine ⟨?_, fun app happ => (hfound app happ).1⟩
    refine List.Nodup.map_on (fun app happ app' happ' heq => ?_) (List.Nodup.of_map _ apps.nodup)
    have hsame := (hfound app happ).2
    rw [heq, (hfound app' happ').2] at hsame
    exact app_unique happ happ' (Option.some.inj hsame).symm
  · intro ⟨hnames, htokens⟩ app happ
    have hself : (apps.list.map (·.2)).flatMap (tokens ((ascii "#").contains ·)) = apps.list.map (·.2) := by
      have heach : ∀ name ∈ apps.list.map (·.2), tokens ((ascii "#").contains ·) name = [name] := by
        intro name hname
        obtain ⟨app, happ, rfl⟩ := List.mem_map.mp hname
        exact tokens_self (htokens app happ)
      rw [List.flatMap_congr heach]
      simp
    have hcount : (apps.list.map (·.2)).countP (fun arg => ivyGetApplication apps arg = some app.1) =
        (apps.list.map (·.2)).count app.2 := by
      refine List.countP_congr fun name _ => ?_
      simpa using ivyGetApplication_iff hnames happ name
    rw [hself, hcount]
    exact List.count_eq_one_of_mem hnames (List.mem_map_of_mem happ)

end Kills

/-- The command gets a Die to each application, and one only, exactly if the list of the names fits its array,
no two applications have the same name, and no name is empty or has the separator in it. -/
theorem dieall_once_each {Code : Type*} (compile : Registry.Compile Code) (apps : Applications)
    (fbindcallback : Bool) :
    (∃ acts, handleStdin compile apps fbindcallback (some (ascii ".dieall-yes-i-am-sure\n")) =
        some (acts, fbindcallback) ∧ ∀ app ∈ apps.list, acts.count (.ivySendDieMsg app.1) = 1) ↔
      (listed apps (ascii "#")).length < 4096 ∧ (apps.list.map (·.2)).Nodup ∧
        ∀ app ∈ apps.list, app.2 ≠ [] ∧ hash ∉ app.2 := by
  have hline : handleStdin compile apps fbindcallback (some (ascii ".dieall-yes-i-am-sure\n")) =
      (dieAll apps).map fun acts => (acts, fbindcallback) := by
    have hcmd : strtok ".: \n" (ascii ".dieall-yes-i-am-sure\n") =
        some (ascii "dieall-yes-i-am-sure", []) := by
      decide +kernel
    unfold handleStdin command
    dsimp only
    rw [if_pos (by decide), hcmd, Option.bind_some]
    dsimp only
    rw [if_neg (by decide), if_pos rfl]
  rw [hline, ← kills_each_once, dieAll, ivyGetApplicationList_eq]
  by_cases hfits : (listed apps (ascii "#")).length < 4096
  · simp [hfits]
  · simp [hfits]

/-- The second of two applications with one name gets none, and the first one two. -/
example : handleStdin (fun _ => .ok ()) ⟨[(2, ascii "A"), (3, ascii "A")], by decide⟩ false
    (some (ascii ".dieall-yes-i-am-sure\n")) =
      some ([.printf (ascii "Killing 'A'...\n"), .ivySendDieMsg 2, .printf (ascii "Killing 'A'...\n"),
        .ivySendDieMsg 2], false) := by
  decide +kernel

end Ivy.Probe

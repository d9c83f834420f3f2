import Ivy.Lib.Machine

/-! Parties that open an ear before they announce themselves. Whatever the order, of any two that did
both and that reach each other, one hears the other: the one that opened first. -/
namespace Ivy

/-- Who listens, who announced itself, and what each one heard. -/
structure Announce (κ : Type*) where
  opened : κ → Bool
  announced : κ → Bool
  heard : κ → List κ

namespace Announce

variable {κ : Type*}

def start : Announce κ := ⟨fun _ => false, fun _ => false, fun _ => []⟩

inductive Event (κ : Type*)
  | opens (k : κ)
  | announces (k : κ)
  deriving DecidableEq

/-- One of two parties hears the other as soon as that one announces itself. -/
def Meets (s : Announce κ) (i j : κ) : Prop :=
  (s.announced i = true → i ∈ s.heard j) ∨ (s.announced j = true → j ∈ s.heard i)

/-- Who announced itself listens, and parties that listen and reach each other meet. -/
structure Meeting (reach : κ → κ → Bool) (s : Announce κ) : Prop where
  opened : ∀ k, s.announced k = true → s.opened k = true
  meets : ∀ i j, reach i j = true → reach j i = true → s.opened i = true → s.opened j = true → s.Meets i j

theorem meeting_start {reach : κ → κ → Bool} : Meeting reach start where
  opened _ h := absurd h Bool.false_ne_true
  meets _ _ _ _ h := absurd h Bool.false_ne_true

variable [DecidableEq κ]

/-- A party may do both any number of times; an announcement is heard by those that listen then. -/
def step (reach : κ → κ → Bool) (s : Announce κ) : Event κ → Option (Announce κ)
  | .opens k => some { s with opened := Function.update s.opened k true }
  | .announces k =>
    if s.opened k then
      some { s with
        announced := Function.update s.announced k true
        heard := fun j => if s.opened j && reach k j then s.heard j ++ [k] else s.heard j }
    else none

variable {reach : κ → κ → Bool} {s t : Announce κ}

/-- A party that starts to listen has not announced itself. -/
theorem Meeting.opens (h : Meeting reach s) (k : κ) :
    Meeting reach { s with opened := Function.update s.opened k true } where
  opened j hj := by
    have hopened := h.opened j hj
    by_cases hjk : j = k
    · simp [hjk]
    · simpa [Function.update_of_ne hjk] using hopened
  meets i j hij hji hi hj := by
    by_cases hi' : s.opened i = true
    · by_cases hj' : s.opened j = true
      · exact h.meets i j hij hji hi' hj'
      · exact Or.inr fun hannounced => absurd (h.opened j hannounced) hj'
    · exact Or.inl fun hannounced => absurd (h.opened i hannounced) hi'

theorem Meeting.announces (h : Meeting reach s) {k : κ} (hk : s.opened k = true) :
    Meeting reach { s with
      announced := Function.update s.announced k true
      heard := fun j => if s.opened j && reach k j then s.heard j ++ [k] else s.heard j } where
  opened j hj := by
    by_cases hjk : j = k
    · exact hjk ▸ hk
    · have hj : Function.update s.announced k true j = true := hj
      rw [Function.update_of_ne hjk] at hj
      exact h.opened j hj
  meets i j hij hji hi hj := by
    -- what was heard stays heard, and the announcement is heard by the other one
    have hkept (p q : κ) (hpq : reach p q = true) (hq : s.opened q = true)
        (hp : s.announced p = true → p ∈ s.heard q) :
        Function.update s.announced k true p = true →
          p ∈ if s.opened q && reach k q then s.heard q ++ [k] else s.heard q := by
      intro hannounced
      by_cases hpk : p = k
      · subst hpk
        simp [hq, hpq]
      · rw [Function.update_of_ne hpk] at hannounced
        have hheard := hp hannounced
        split_ifs
        · exact List.mem_append_left [k] hheard
        · exact hheard
    rcases h.meets i j hij hji hi hj with hmeets | hmeets
    · exact Or.inl (hkept i j hij hj hmeets)
    · exact Or.inr (hkept j i hji hi hmeets)

theorem run_announces {k : κ} (hk : s.opened k = true) : Machine.run (step reach) s [.announces k] = some { s with
    announced := Function.update s.announced k true
    heard := fun j => if s.opened j && reach k j then s.heard j ++ [k] else s.heard j } := by
  change (if s.opened k = true then some _ else none : Option (Announce κ)).bind some = _
  rw [if_pos hk, Option.bind_some]

theorem Meeting.step (h : Meeting reach s) {e : Event κ} (ht : s.step reach e = some t) : Meeting reach t := by
  cases e with
  | opens k =>
    obtain rfl := Option.some.inj ht
    exact h.opens k
  | announces k =>
    unfold Announce.step at ht
    dsimp only at ht
    split_ifs at ht with hk
    obtain rfl := Option.some.inj ht
    exact h.announces hk

/-- Of two parties that announced themselves, one heard the other. -/
theorem either_hears {es : List (Event κ)} (hrun : Machine.run (step reach) start es = some s) {i j : κ}
    (hij : reach i j = true) (hji : reach j i = true) (hi : s.announced i = true) (hj : s.announced j = true) :
    i ∈ s.heard j ∨ j ∈ s.heard i := by
  have hmeeting : Meeting reach s :=
    Machine.run_reaches (I := fun _ => Meeting reach) meeting_start (fun _ _ _ _ h ht => h.step ht) hrun
  rcases hmeeting.meets i j hij hji (hmeeting.opened i hi) (hmeeting.opened j hj) with hmeets | hmeets
  · exact Or.inl (hmeets hi)
  · exact Or.inr (hmeets hj)

end Announce
end Ivy

import Ivy.Lib.Machine

/-! A machine that is simulated by another one: each step of the first is made of steps of the second,
its labels, possibly none. -/
namespace Ivy.Machine

variable {σ τ ε ι : Type*} {step : σ → ε → Option σ} {act : τ → ι → Option τ} {label : σ → ε → List ι}
  {G : σ → ε → Prop}

def labels (step : σ → ε → Option σ) (label : σ → ε → List ι) : σ → List ε → List ι
  | _, [] => []
  | s, e :: es => label s e ++ (step s e).elim [] fun t => labels step label t es

/-- Both machines, the second making the steps that the first one's labels name. -/
def both (step : σ → ε → Option σ) (act : τ → ι → Option τ) (label : σ → ε → List ι) (p : σ × τ) (e : ε) :
    Option (σ × τ) :=
  (step p.1 e).bind fun t => (run act p.2 (label p.1 e)).map fun u => (t, u)

theorem run_append (u : τ) (is js : List ι) : run act u (is ++ js) = (run act u is).bind fun v => run act v js := by
  induction is generalizing u with
  | nil => rfl
  | cons i is ih =>
    rw [List.cons_append, run, run, Option.bind_assoc]
    exact congrArg (Option.bind _) (funext ih)

theorem both_of_steps {s t : σ} {u v : τ} {e : ε} (hs : step s e = some t) (hu : run act u (label s e) = some v) :
    both step act label (s, u) e = some (t, v) := by
  unfold both
  rw [hs, Option.bind_some, hu]
  rfl

/-- A run of both is a run of the first, and of the second on its labels. -/
theorem run_both {s t : σ} {u v : τ} {es : List ε} (hrun : run (both step act label) (s, u) es = some (t, v)) :
    run step s es = some t ∧ run act u (labels step label s es) = some v := by
  induction es generalizing s u with
  | nil =>
    obtain ⟨rfl, rfl⟩ := Prod.mk.inj (Option.some.inj hrun)
    exact ⟨rfl, rfl⟩
  | cons e es ih =>
    obtain ⟨⟨s', u'⟩, hboth, hrest⟩ := Option.bind_eq_some_iff.mp hrun
    obtain ⟨s'', hs, hmap⟩ := Option.bind_eq_some_iff.mp hboth
    obtain ⟨u'', hu, hpair⟩ := Option.map_eq_some_iff.mp hmap
    obtain ⟨rfl, rfl⟩ := Prod.mk.inj hpair
    obtain ⟨hstep, hlabels⟩ := ih hrest
    refine ⟨?_, ?_⟩
    · rw [run, hs, Option.bind_some, hstep]
    · rw [labels, hs, Option.elim_some, run_append, hu, Option.bind_some, hlabels]

theorem guarded_both {s : σ} {es : List ε} (hG : Guarded step G s es) (u : τ) :
    Guarded (both step act label) (fun p e => G p.1 e) (s, u) es := by
  induction es generalizing s u with
  | nil => trivial
  | cons e es ih =>
    refine ⟨hG.1, fun p hp => ?_⟩
    obtain ⟨t, ht, hmap⟩ := Option.bind_eq_some_iff.mp hp
    obtain ⟨v, -, rfl⟩ := Option.map_eq_some_iff.mp hmap
    exact ih (hG.2 t ht) v

/-- A relation that related steps keep relates what the runs reach. -/
theorem simulation {R : σ → τ → Prop} {H : σ × τ → ε → Prop} {s : σ} {u : τ} {es : List ε} (h₀ : R s u)
    (hstep : ∀ s u e, R s u → H (s, u) e → ∃ t v, step s e = some t ∧ run act u (label s e) = some v ∧ R t v)
    (hH : Guarded (both step act label) H (s, u) es) :
    ∃ t v, run step s es = some t ∧ run act u (labels step label s es) = some v ∧ R t v := by
  have hkeeps : ∀ (p : σ × τ) (e : ε), R p.1 p.2 → H p e → ∃ q, both step act label p e = some q ∧ R q.1 q.2 := by
    intro p e hR hp
    obtain ⟨t, v, ht, hv, htv⟩ := hstep p.1 p.2 e hR hp
    exact ⟨(t, v), both_of_steps ht hv, htv⟩
  obtain ⟨⟨t, v⟩, hrun, htv⟩ := run_invariant (I := fun p => R p.1 p.2) h₀ hkeeps hH
  obtain ⟨ht, hv⟩ := run_both hrun
  exact ⟨t, v, ht, hv, htv⟩

variable (label) in
/-- What each step of the first machine keeps relates what a run of it reaches to what its labels reach. -/
theorem follows {R : σ → τ → Prop} {s t : σ} {u : τ} {es : List ε} (h₀ : R s u)
    (hstep : ∀ s t u e, R s u → step s e = some t → ∃ v, run act u (label s e) = some v ∧ R t v)
    (hrun : run step s es = some t) : ∃ v, run act u (labels step label s es) = some v ∧ R t v := by
  induction es generalizing s u with
  | nil => exact ⟨u, rfl, Option.some.inj hrun ▸ h₀⟩
  | cons e es ih =>
    obtain ⟨s', hs, hrest⟩ := Option.bind_eq_some_iff.mp hrun
    obtain ⟨u', hu, hR⟩ := hstep s s' u e h₀ hs
    obtain ⟨v, hv, htv⟩ := ih hR hrest
    refine ⟨v, ?_, htv⟩
    rw [labels, hs, Option.elim_some, run_append, hu, Option.bind_some, hv]

/-- What relates the labels of each step relates those of the runs. -/
theorem labels_related {κ : Type*} {label' : σ → ε → List κ} {R : List ι → List κ → Prop} (hnil : R [] [])
    (happend : ∀ is is' js js', R is js → R is' js' → R (is ++ is') (js ++ js'))
    (hstep : ∀ s e, R (label s e) (label' s e)) (s : σ) (es : List ε) :
    R (labels step label s es) (labels step label' s es) := by
  induction es generalizing s with
  | nil => exact hnil
  | cons e es ih =>
    apply happend _ _ _ _ (hstep s e)
    cases step s e with
    | none => exact hnil
    | some t => exact ih t

end Ivy.Machine

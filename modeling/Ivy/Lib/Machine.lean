import Mathlib.Data.List.Induction

/-! Runs of partial step functions. `none` is a step that the machine does not
define; a guard restricts the steps a run may take. -/
namespace Ivy.Machine

variable {σ ε : Type*}

def run (step : σ → ε → Option σ) : σ → List ε → Option σ
  | s, [] => some s
  | s, e :: es => (step s e).bind fun t => run step t es

/-- Every step of the run meets the guard in the state it is taken from. -/
def Guarded (step : σ → ε → Option σ) (G : σ → ε → Prop) : σ → List ε → Prop
  | _, [] => True
  | s, e :: es => G s e ∧ ∀ t, step s e = some t → Guarded step G t es

instance decidableGuarded {step : σ → ε → Option σ} {G : σ → ε → Prop} [∀ s e, Decidable (G s e)] :
    ∀ s es, Decidable (Guarded step G s es)
  | _, [] => .isTrue trivial
  | s, e :: es =>
    haveI := fun t => @decidableGuarded step G _ t es
    inferInstanceAs (Decidable (G s e ∧ ∀ t ∈ step s e, Guarded step G t es))

/-- The run is defined, and each of its states satisfies `I` with the events before it. -/
def Along (step : σ → ε → Option σ) (I : List ε → σ → Prop) : List ε → σ → List ε → Prop
  | past, s, [] => I past s
  | past, s, e :: es => I past s ∧ ∃ t, step s e = some t ∧ Along step I (past ++ [e]) t es

/-- Runs of a step function that is defined everywhere. -/
def exec (step : σ → ε → σ) (s : σ) (es : List ε) : σ := es.foldl step s

section
variable {step : σ → ε → σ}

@[simp] theorem exec_nil (s : σ) : exec step s [] = s := rfl

@[simp] theorem exec_concat (s : σ) (es : List ε) (e : ε) :
    exec step s (es ++ [e]) = step (exec step s es) e := by simp [exec]

end

section
variable {step : σ → ε → Option σ} {G : σ → ε → Prop}

theorem run_concat (s : σ) (es : List ε) (e : ε) :
    run step s (es ++ [e]) = (run step s es).bind fun t => step t e := by
  induction es generalizing s with
  | nil =>
    show (step s e).bind some = step s e
    exact Option.bind_fun_some _
  | cons f es ih =>
    rw [List.cons_append, run, run, Option.bind_assoc]
    exact congrArg (Option.bind _) (funext ih)

/-- An invariant that may mention the events so far holds after every guarded run. -/
theorem run_history {I : List ε → σ → Prop} {s : σ} (h₀ : I [] s)
    (hstep : ∀ past s e, I past s → G s e → ∃ t, step s e = some t ∧ I (past ++ [e]) t)
    {es : List ε} (hG : Guarded step G s es) : ∃ t, run step s es = some t ∧ I es t := by
  suffices h : ∀ past es s, I past s → Guarded step G s es →
      ∃ t, run step s es = some t ∧ I (past ++ es) t from h [] es s h₀ hG
  intro past es
  induction es generalizing past with
  | nil => exact fun s hI _ => ⟨s, rfl, by simpa using hI⟩
  | cons e es ih =>
    intro s hI hG
    obtain ⟨t, ht, hIt⟩ := hstep past s e hI hG.1
    obtain ⟨u, hu, hIu⟩ := ih (past ++ [e]) t hIt (hG.2 t ht)
    exact ⟨u, by rw [run, ht, Option.bind_some, hu], by simpa using hIu⟩

/-- An invariant kept by every step that the machine takes holds of every state it reaches. -/
theorem run_reaches {I : List ε → σ → Prop} {s t : σ} (h₀ : I [] s)
    (hstep : ∀ past s e t, I past s → step s e = some t → I (past ++ [e]) t)
    {es : List ε} (hrun : run step s es = some t) : I es t := by
  suffices h : ∀ past es s, I past s → run step s es = some t → I (past ++ es) t from h [] es s h₀ hrun
  intro past es
  induction es generalizing past with
  | nil =>
    rintro s hI ⟨⟩
    simpa using hI
  | cons e es ih =>
    intro s hI hrun
    obtain ⟨u, hu, hrest⟩ := Option.bind_eq_some_iff.mp hrun
    simpa using ih (past ++ [e]) u (hstep past s e u hI hu) hrest

/-- An invariant kept by every guarded step that the machine takes holds of what a guarded run
reaches. -/
theorem run_guarded {I : List ε → σ → Prop} {s t : σ} (h₀ : I [] s)
    (hstep : ∀ past s e t, I past s → G s e → step s e = some t → I (past ++ [e]) t)
    {es : List ε} (hG : Guarded step G s es) (hrun : run step s es = some t) : I es t := by
  suffices h : ∀ past es s, I past s → Guarded step G s es → run step s es = some t → I (past ++ es) t
    from h [] es s h₀ hG hrun
  intro past es
  induction es generalizing past with
  | nil =>
    rintro s hI - ⟨⟩
    simpa using hI
  | cons e es ih =>
    intro s hI hG hrun
    obtain ⟨u, hu, hrest⟩ := Option.bind_eq_some_iff.mp hrun
    have hnext := hstep past s e u hI hG.1 hu
    simpa using ih (past ++ [e]) u hnext (hG.2 u hu) hrest

/-- An invariant kept by every guarded step holds after every guarded run. -/
theorem run_invariant {I : σ → Prop} {s : σ} (h₀ : I s)
    (hstep : ∀ s e, I s → G s e → ∃ t, step s e = some t ∧ I t)
    {es : List ε} (hG : Guarded step G s es) : ∃ t, run step s es = some t ∧ I t :=
  run_history (I := fun _ => I) h₀ (fun _ => hstep) hG

theorem guarded_of_forall {s : σ} {es : List ε} (h : ∀ s, ∀ e ∈ es, G s e) :
    Guarded step G s es := by
  induction es generalizing s with
  | nil => trivial
  | cons e es ih =>
    exact ⟨h s e (by simp), fun t _ => ih fun s f hf => h s f (List.mem_cons_of_mem e hf)⟩

/-- A guard implies another one in the states that its runs reach. -/
theorem Guarded.imp {G' : σ → ε → Prop} {I : σ → Prop} {s : σ} {es : List ε} (hG : Guarded step G s es)
    (h₀ : I s) (hstep : ∀ s e t, I s → G s e → step s e = some t → I t)
    (himp : ∀ s e, I s → G s e → G' s e) : Guarded step G' s es := by
  induction es generalizing s with
  | nil => trivial
  | cons e es ih =>
    have hnext (t : σ) (ht : step s e = some t) := ih (hG.2 t ht) (hstep s e t h₀ hG.1 ht)
    exact ⟨himp s e h₀ hG.1, hnext⟩

/-- Where a guard says which steps are defined in the states of an invariant, it says which runs are. -/
theorem run_ne_none_iff {I : σ → Prop} (hstep : ∀ s e t, I s → step s e = some t → I t)
    (hiff : ∀ s e, I s → (step s e ≠ none ↔ G s e)) {s : σ} (h₀ : I s) (es : List ε) :
    run step s es ≠ none ↔ Guarded step G s es := by
  induction es generalizing s with
  | nil => simp [run, Guarded]
  | cons e es ih =>
    rw [run, Guarded, ← hiff s e h₀]
    cases hs : step s e with
    | none => simp
    | some t => simpa using ih (hstep s e t h₀ hs)

theorem Guarded.and_forall {P : ε → Prop} {s : σ} {es : List ε} (h : Guarded step G s es)
    (hP : ∀ e ∈ es, P e) : Guarded step (fun s e => G s e ∧ P e) s es := by
  induction es generalizing s with
  | nil => trivial
  | cons e es ih =>
    exact ⟨⟨h.1, hP e (by simp)⟩, fun t ht => ih (h.2 t ht) fun f hf => hP f (by simp [hf])⟩

/-- Where `G` says exactly which steps from the states that satisfy `J` keep an invariant, it says
exactly which runs do. -/
theorem along_iff_guarded_of {I J : List ε → σ → Prop} {P : σ → ε → Prop}
    (hJ : ∀ past s e t, J past s → P s e → step s e = some t → J (past ++ [e]) t)
    (hiff : ∀ past s e, J past s → I past s → P s e →
      ((∃ t, step s e = some t ∧ I (past ++ [e]) t) ↔ G s e))
    {past : List ε} {s : σ} {es : List ε} (hJ₀ : J past s) (h₀ : I past s) (hP : Guarded step P s es) :
    Along step I past s es ↔ Guarded step G s es := by
  induction es generalizing past s with
  | nil => exact ⟨fun _ => trivial, fun _ => h₀⟩
  | cons e es ih =>
    obtain ⟨hPe, hPes⟩ := hP
    have hstep := hiff past s e hJ₀ h₀ hPe
    constructor
    · rintro ⟨-, t, ht, halong⟩
      have hIt : I (past ++ [e]) t := by cases es with
        | nil => exact halong
        | cons => exact halong.1
      refine ⟨hstep.mp ⟨t, ht, hIt⟩, fun u hu => ?_⟩
      obtain rfl := Option.some.inj (ht.symm.trans hu)
      exact (ih (hJ past s e t hJ₀ hPe ht) hIt (hPes t ht)).mp halong
    · rintro ⟨hG, hGs⟩
      obtain ⟨t, ht, hIt⟩ := hstep.mpr hG
      exact ⟨h₀, t, ht, (ih (hJ past s e t hJ₀ hPe ht) hIt (hPes t ht)).mpr (hGs t ht)⟩

/-- Where `G` says exactly which steps keep an invariant, it says exactly which runs do. -/
theorem along_iff_guarded {I : List ε → σ → Prop} {P : σ → ε → Prop}
    (hiff : ∀ past s e, I past s → P s e → ((∃ t, step s e = some t ∧ I (past ++ [e]) t) ↔ G s e))
    {past : List ε} {s : σ} {es : List ε} (h₀ : I past s) (hP : Guarded step P s es) :
    Along step I past s es ↔ Guarded step G s es :=
  along_iff_guarded_of (J := fun _ _ => True) (fun _ _ _ _ _ _ _ => trivial)
    (fun past s e _ => hiff past s e) trivial h₀ hP

end
end Ivy.Machine

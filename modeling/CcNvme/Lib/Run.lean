/-
CcNvme/Lib/Run.lean

Runs of a partial step function.  `step s a` is `some s'` when action `a` is
possible in state `s`; a run is a list of actions.  Three rules cover what a
development needs from runs:

* `run_simulation`: if every step is possible and follows an abstract step
  function, so does every run;
* `run_invariant`: if every allowed step is possible and preserves `I`, so does
  every allowed run, where `C` restricts the state a step is taken in;
* `run_preserves`: the same for steps that may be impossible (`run_keeps` when every step
  is allowed), and `run_last` for what holds between the two states of the last step.

`along_of_invariant`, `along_iff` and `along_iff_of_run` compare two conditions on the steps of
a run.

For a decidable condition, `Along` is decidable, and so is a statement about the
state that a run ends in.
-/
import Mathlib.Data.List.Basic

namespace Run

variable {σ τ α : Type*} (step : σ → α → Option σ)

/-- Take the steps of `as` one after another. -/
def run (s : σ) (as : List α) : Option σ := as.foldlM step s

@[simp] theorem run_nil (s : σ) : run step s [] = some s := rfl

theorem run_cons (s : σ) (a : α) (as : List α) :
    run step s (a :: as) = (step s a).bind fun s' => run step s' as := by
  rw [run, List.foldlM_cons]
  rfl

theorem run_append (s : σ) (as bs : List α) :
    run step s (as ++ bs) = (run step s as).bind fun s' => run step s' bs :=
  List.foldlM_append

/-- Every step of the run meets the condition `C` in the state it is taken in. -/
def Along (C : σ → α → Prop) : σ → List α → Prop
  | _, [] => True
  | s, a :: as => C s a ∧ ∀ s', step s a = some s' → Along C s' as

variable {step}

theorem run_cons_eq_some {s s' : σ} {a : α} {as : List α} :
    run step s (a :: as) = some s' ↔
      ∃ s₁, step s a = some s₁ ∧ run step s₁ as = some s' := by
  rw [run_cons, Option.bind_eq_some_iff]

/-- **Simulation.**  Related states stay related, and the run does not get stuck. -/
theorem run_simulation {R : σ → τ → Prop} {f : τ → α → τ}
    (hstep : ∀ s t a, R s t → ∃ s', step s a = some s' ∧ R s' (f t a))
    {s : σ} {t : τ} (h : R s t) (as : List α) :
    ∃ s', run step s as = some s' ∧ R s' (as.foldl f t) := by
  induction as generalizing s t with
  | nil => exact ⟨s, rfl, h⟩
  | cons a as ih =>
      obtain ⟨s₁, h₁, hr₁⟩ := hstep s t a h
      obtain ⟨s₂, h₂, hr₂⟩ := ih hr₁
      exact ⟨s₂, run_cons_eq_some.mpr ⟨s₁, h₁, h₂⟩, hr₂⟩

/-- **Invariance.**  If every allowed step is possible and preserves `I`, then an
allowed run does not get stuck and preserves `I`. -/
theorem run_invariant {I : σ → Prop} {C : σ → α → Prop}
    (hstep : ∀ s a, I s → C s a → ∃ s', step s a = some s' ∧ I s')
    {s : σ} {as : List α} (h : I s) (hC : Along step C s as) :
    ∃ s', run step s as = some s' ∧ I s' := by
  induction as generalizing s with
  | nil => exact ⟨s, rfl, h⟩
  | cons a as ih =>
      obtain ⟨s₁, h₁, hI₁⟩ := hstep s a h hC.1
      obtain ⟨s₂, h₂, hI₂⟩ := ih hI₁ (hC.2 s₁ h₁)
      exact ⟨s₂, run_cons_eq_some.mpr ⟨s₁, h₁, h₂⟩, hI₂⟩

/-- What every allowed step preserves, an allowed run preserves, as far as it gets. -/
theorem run_preserves {I : σ → Prop} {C : σ → α → Prop}
    (hstep : ∀ s a s', I s → C s a → step s a = some s' → I s')
    {s s' : σ} {as : List α} (h : I s) (hC : Along step C s as)
    (hrun : run step s as = some s') : I s' := by
  induction as generalizing s with
  | nil =>
      obtain rfl := Option.some.inj hrun
      exact h
  | cons a as ih =>
      obtain ⟨s₁, h₁, hrest⟩ := run_cons_eq_some.mp hrun
      exact ih (hstep s a s₁ h hC.1 h₁) (hC.2 s₁ h₁) hrest

/-- What every step preserves, every run preserves. -/
theorem run_keeps {I : σ → Prop} (hstep : ∀ s a s', I s → step s a = some s' → I s')
    {s s' : σ} {as : List α} (h : I s) (hrun : run step s as = some s') : I s' := by
  induction as generalizing s with
  | nil =>
      obtain rfl := Option.some.inj hrun
      exact h
  | cons a as ih =>
      obtain ⟨s₁, h₁, hrest⟩ := run_cons_eq_some.mp hrun
      exact ih (hstep s a s₁ h h₁) hrest

/-- A condition that follows from an invariant of the allowed runs holds along them. -/
theorem along_of_invariant {I : σ → Prop} {C D : σ → α → Prop}
    (himp : ∀ s a, I s → C s a → D s a)
    (hstep : ∀ s a s', I s → C s a → step s a = some s' → I s')
    {s : σ} {as : List α} (h : I s) (hC : Along step C s as) : Along step D s as := by
  induction as generalizing s with
  | nil => trivial
  | cons a as ih =>
      refine ⟨himp s a h hC.1, fun s' hs' => ?_⟩
      exact ih (hstep s a s' h hC.1 hs') (hC.2 s' hs')

/-- The same when every step keeps the invariant. -/
theorem along_of_keeps {I : σ → Prop} {D : σ → α → Prop} (himp : ∀ s a, I s → D s a)
    (hstep : ∀ s a s', I s → step s a = some s' → I s') {s : σ} {as : List α} (h : I s) :
    Along step D s as := by
  induction as generalizing s with
  | nil => trivial
  | cons a as ih => exact ⟨himp s a h, fun s' hs' => ih (hstep s a s' h hs')⟩

/-- A weaker condition holds along the same runs. -/
theorem Along.mono {C D : σ → α → Prop} (himp : ∀ s a, C s a → D s a) {s : σ} {as : List α}
    (hC : Along step C s as) : Along step D s as :=
  along_of_invariant (I := fun _ => True) (fun s a _ => himp s a) (fun _ _ _ _ _ _ => trivial)
    trivial hC

/-- A condition on the steps alone. -/
theorem along_of_forall {C : σ → α → Prop} {s : σ} {as : List α} (h : ∀ a ∈ as, ∀ s, C s a) :
    Along step C s as := by
  induction as generalizing s with
  | nil => trivial
  | cons a as ih =>
      exact ⟨h a List.mem_cons_self s, fun s' _ => ih fun b hb => h b (List.mem_cons_of_mem _ hb)⟩

/-- An allowed run can be cut. -/
theorem along_append {C : σ → α → Prop} {s s' : σ} {as bs : List α}
    (hC : Along step C s (as ++ bs)) (hrun : run step s as = some s') :
    Along step C s as ∧ Along step C s' bs := by
  induction as generalizing s with
  | nil =>
      obtain rfl := Option.some.inj hrun
      exact ⟨trivial, hC⟩
  | cons a as ih =>
      obtain ⟨s₁, h₁, hrest⟩ := run_cons_eq_some.mp hrun
      refine ⟨⟨hC.1, fun s₂ h₂ => ?_⟩, (ih (hC.2 s₁ h₁) hrest).2⟩
      obtain rfl := Option.some.inj (h₁.symm.trans h₂)
      exact (ih (hC.2 s₁ h₁) hrest).1

/-- Two conditions that agree where the invariant holds agree along runs, when either of
them keeps the invariant. -/
theorem along_iff {I : σ → Prop} {C D : σ → α → Prop}
    (hiff : ∀ s a, I s → (C s a ↔ D s a))
    (hstep : ∀ s a s', I s → C s a → step s a = some s' → I s')
    {s : σ} (h : I s) (as : List α) : Along step C s as ↔ Along step D s as := by
  induction as generalizing s with
  | nil => exact Iff.rfl
  | cons a as ih =>
      constructor
      · rintro ⟨hC, hrest⟩
        refine ⟨(hiff s a h).mp hC, fun s' hs' => ?_⟩
        exact (ih (hstep s a s' h hC hs')).mp (hrest s' hs')
      · rintro ⟨hD, hrest⟩
        have hC := (hiff s a h).mpr hD
        exact ⟨hC, fun s' hs' => (ih (hstep s a s' h hC hs')).mpr (hrest s' hs')⟩

/-- The same along a run that returns, when the conditions agree on the steps that do. -/
theorem along_iff_of_run {I : σ → Prop} {C D : σ → α → Prop}
    (hiff : ∀ s a s', I s → step s a = some s' → (C s a ↔ D s a))
    (hstep : ∀ s a s', I s → C s a → step s a = some s' → I s')
    {s s' : σ} (h : I s) {as : List α} (hrun : run step s as = some s') :
    Along step C s as ↔ Along step D s as := by
  induction as generalizing s with
  | nil => exact Iff.rfl
  | cons a as ih =>
      obtain ⟨s₁, h₁, hrest⟩ := run_cons_eq_some.mp hrun
      have hiff₁ := hiff s a s₁ h h₁
      constructor
      · rintro ⟨hC, hnext⟩
        refine ⟨hiff₁.mp hC, fun s₂ h₂ => ?_⟩
        obtain rfl := Option.some.inj (h₁.symm.trans h₂)
        exact (ih (hstep s a s₁ h hC h₁) hrest).mp (hnext s₁ h₁)
      · rintro ⟨hD, hnext⟩
        have hC := hiff₁.mpr hD
        refine ⟨hC, fun s₂ h₂ => ?_⟩
        obtain rfl := Option.some.inj (h₁.symm.trans h₂)
        exact (ih (hstep s a s₁ h hC h₁) hrest).mpr (hnext s₁ h₁)

/-- **The last step.**  What an allowed step guarantees from the invariant, the last step
of an allowed run guarantees. -/
theorem run_last {I : σ → Prop} {C : σ → α → Prop} {Q : σ → α → σ → Prop}
    (hstep : ∀ s a s', I s → C s a → step s a = some s' → I s' ∧ Q s a s')
    {s₀ s s' : σ} {as : List α} {a : α} (h : I s₀) (hC : Along step C s₀ (as ++ [a]))
    (hrun : run step s₀ as = some s) (hlast : step s a = some s') : Q s a s' := by
  obtain ⟨has, ha, -⟩ := along_append hC hrun
  have hs : I s := run_preserves (fun s a s' h hC hs => (hstep s a s' h hC hs).1) h has hrun
  exact (hstep s a s' hs ha hlast).2

/-! ### Checking a condition along a concrete run -/

variable (step) in
/-- `Along`, computed. -/
def allows (C : σ → α → Prop) [∀ s a, Decidable (C s a)] : σ → List α → Bool
  | _, [] => true
  | s, a :: as =>
      decide (C s a) &&
        match step s a with
        | none => true
        | some s' => allows C s' as

theorem allows_iff {C : σ → α → Prop} [∀ s a, Decidable (C s a)] {s : σ} {as : List α} :
    allows step C s as = true ↔ Along step C s as := by
  induction as generalizing s with
  | nil => simp [allows, Along]
  | cons a as ih =>
      rw [allows, Along, Bool.and_eq_true, decide_eq_true_eq]
      apply and_congr_right
      intro _
      rcases step s a with - | s'
      · simp
      · simp [ih]

instance decidableAlong {C : σ → α → Prop} [∀ s a, Decidable (C s a)] (s : σ) (as : List α) :
    Decidable (Along step C s as) :=
  decidable_of_iff _ allows_iff

instance decidableForallSome (o : Option σ) (Q : σ → Prop) [DecidablePred Q] :
    Decidable (∀ s, o = some s → Q s) :=
  match o with
  | none => isTrue fun _ h => nomatch h
  | some s => decidable_of_iff (Q s) ⟨fun h _ he => Option.some.inj he ▸ h, fun h => h s rfl⟩

instance decidableExistsSome (o : Option σ) (Q : σ → Prop) [DecidablePred Q] :
    Decidable (∃ s, o = some s ∧ Q s) :=
  match o with
  | none => isFalse fun ⟨_, h, _⟩ => nomatch h
  | some s =>
      decidable_of_iff (Q s) ⟨fun h => ⟨s, rfl, h⟩, fun ⟨_, he, h⟩ => Option.some.inj he ▸ h⟩

end Run

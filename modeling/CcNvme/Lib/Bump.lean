/-
CcNvme/Lib/Bump.lean

Bump allocation.  An allocator that keeps one pointer `hi` hands out the
extent that starts at `hi` and moves the pointer behind it.  `Packed lo hi es`
says that the extents in use are pairwise disjoint and lie between the start
`lo` of the area and the pointer; it survives a new allocation (`push`), the
release of some extents (`sublist`), a change of owner (`perm`) and using only
the front of an extent (`shrink`).  Moving the pointer back to `lo` is only
`Packed` when nothing is in use (`nil`).

An allocator that moves its pointer back regardless is described by its log of
resets and extents: `Apart` says that extents with no reset between them are
disjoint.  `since` collects the extents of one allocator since its last reset,
the only ones a new extent has to be compared with (`Apart.take`).
-/
import Mathlib.Data.List.Induction
import Mathlib.Data.List.Perm.Basic
import Mathlib.Order.Nat

namespace Bump

/-- The blocks `start`, …, `start + length - 1`. -/
structure Extent where
  start : ℕ
  length : ℕ
  deriving DecidableEq, Repr

namespace Extent

/-- Block `b` belongs to the extent. -/
def Covers (e : Extent) (b : ℕ) : Prop := e.start ≤ b ∧ b < e.start + e.length

/-- No block belongs to both. -/
def Disjoint (e x : Extent) : Prop := ∀ b, ¬ (e.Covers b ∧ x.Covers b)

theorem disjoint_iff {e x : Extent} :
    e.Disjoint x ↔ e.length = 0 ∨ x.length = 0 ∨ e.start + e.length ≤ x.start ∨
      x.start + x.length ≤ e.start := by
  unfold Disjoint Covers
  constructor
  · intro h
    have h1 := h e.start
    have h2 := h x.start
    omega
  · intro h b
    omega

/-- One extent lies in another exactly when its ends do. -/
theorem subset_iff {e x : Extent} :
    (∀ b, e.Covers b → x.Covers b) ↔
      e.length = 0 ∨ x.start ≤ e.start ∧ e.start + e.length ≤ x.start + x.length := by
  unfold Covers
  constructor
  · intro h
    have h1 := h e.start
    have h2 := h (e.start + e.length - 1)
    omega
  · intro h b
    omega

instance (e x : Extent) : Decidable (e.Disjoint x) := decidable_of_iff _ disjoint_iff.symm

theorem Disjoint.symm {e x : Extent} (h : e.Disjoint x) : x.Disjoint e :=
  fun b hb => h b hb.symm

end Extent

/-- The extents in use are disjoint and lie below the pointer `hi`. -/
structure Packed (lo hi : ℕ) (es : List Extent) : Prop where
  disjoint : es.Pairwise Extent.Disjoint
  inside : ∀ e ∈ es, lo ≤ e.start ∧ e.start + e.length ≤ hi

namespace Packed

variable {lo hi : ℕ} {es es' : List Extent}

theorem nil (lo hi : ℕ) : Packed lo hi [] := ⟨List.Pairwise.nil, by simp⟩

/-- What lies at or above the pointer is free. -/
theorem free (h : Packed lo hi es) {x : Extent} (hx : hi ≤ x.start) : ∀ e ∈ es, x.Disjoint e := by
  intro e he
  have := (h.inside e he).2
  exact Extent.disjoint_iff.mpr (by omega)

/-- A new allocation. -/
theorem push (h : Packed lo hi es) (hle : lo ≤ hi) (n : ℕ) :
    Packed lo (hi + n) (es ++ [⟨hi, n⟩]) := by
  refine ⟨List.pairwise_append.mpr ⟨h.disjoint, List.pairwise_singleton _ _, ?_⟩, ?_⟩
  · intro e he x hx
    obtain rfl := List.mem_singleton.mp hx
    exact (h.free le_rfl e he).symm
  · intro e he
    rcases List.mem_append.mp he with he | he
    · have := h.inside e he
      exact ⟨this.1, by omega⟩
    · obtain rfl := List.mem_singleton.mp he
      exact ⟨hle, le_rfl⟩

theorem mono (h : Packed lo hi es) {hi' : ℕ} (hle : hi ≤ hi') : Packed lo hi' es :=
  ⟨h.disjoint, fun e he => ⟨(h.inside e he).1, (h.inside e he).2.trans hle⟩⟩

theorem sublist (h : Packed lo hi es) (hs : es'.Sublist es) : Packed lo hi es' :=
  ⟨h.disjoint.sublist hs, fun e he => h.inside e (hs.subset he)⟩

theorem perm (h : Packed lo hi es) (hp : es.Perm es') : Packed lo hi es' :=
  ⟨(hp.pairwise_iff fun hxy => hxy.symm).mp h.disjoint,
    fun e he => h.inside e (hp.mem_iff.mpr he)⟩

/-- The last extent may be used in part only. -/
theorem shrink {x y : Extent} (h : Packed lo hi (es ++ [x])) (hs : y.start = x.start)
    (hl : y.length ≤ x.length) : Packed lo hi (es ++ [y]) := by
  obtain ⟨hd, -, hx⟩ := List.pairwise_append.mp h.disjoint
  refine ⟨List.pairwise_append.mpr ⟨hd, List.pairwise_singleton _ _, ?_⟩, ?_⟩
  · intro e he z hz
    obtain rfl := List.mem_singleton.mp hz
    have := hx e he x (List.mem_singleton_self x)
    rw [Extent.disjoint_iff] at this ⊢
    omega
  · intro e he
    rcases List.mem_append.mp he with he | he
    · exact h.inside e (List.mem_append_left _ he)
    · obtain rfl := List.mem_singleton.mp he
      have := h.inside x (List.mem_append_right _ (List.mem_singleton_self x))
      exact ⟨by omega, by omega⟩

end Packed

/-! ### Logs of several allocators -/

/-- What an allocator does: move the pointer back, or hand out an extent. -/
inductive Event where
  | reset
  | take (e : Extent)
  deriving DecidableEq, Repr

section Log

variable {ι : Type*} [DecidableEq ι]

/-- The extents of allocator `i` since its last reset. -/
def since (i : ι) (log : List (ι × Event)) : List Extent :=
  log.foldl (fun es ev =>
    if ev.1 = i then
      match ev.2 with
      | .reset => []
      | .take e => es ++ [e]
    else es) []

/-- Two extents of one allocator without a reset between them are disjoint. -/
def Apart (log : List (ι × Event)) : Prop :=
  ∀ i e f us vs ws, log = us ++ (i, Event.take e) :: (vs ++ (i, Event.take f) :: ws) →
    (i, Event.reset) ∉ vs → e.Disjoint f

theorem since_reset (i j : ι) (log : List (ι × Event)) :
    since i (log ++ [(j, .reset)]) = if j = i then [] else since i log := by
  simp [since]

theorem since_take (i j : ι) (log : List (ι × Event)) (e : Extent) :
    since i (log ++ [(j, .take e)]) = if j = i then since i log ++ [e] else since i log := by
  simp [since]

theorem mem_since {i : ι} {e : Extent} {us vs : List (ι × Event)} (h : (i, .reset) ∉ vs) :
    e ∈ since i (us ++ (i, .take e) :: vs) := by
  induction vs using List.reverseRecOn with
  | nil =>
      rw [since_take, if_pos rfl]
      exact List.mem_append_right _ (List.mem_singleton_self e)
  | append_singleton vs ev ih =>
      obtain ⟨j, ev⟩ := ev
      have ih := ih fun hc => h (List.mem_append_left _ hc)
      rw [← List.cons_append, ← List.append_assoc]
      cases ev with
      | reset =>
          have hj : j ≠ i := by
            rintro rfl
            exact h (List.mem_append_right _ (List.mem_singleton_self _))
          rw [since_reset, if_neg hj]
          exact ih
      | take f =>
          rw [since_take]
          split_ifs
          · exact List.mem_append_left _ ih
          · exact ih

omit [DecidableEq ι] in
theorem Apart.nil : Apart ([] : List (ι × Event)) :=
  fun _ _ _ us _ _ h => by simp at h

omit [DecidableEq ι] in
/-- A pair of extents in a longer log is a pair of the old log, or ends in the new event. -/
theorem split_concat {log us vs ws : List (ι × Event)} {a b ev : ι × Event}
    (h : log ++ [ev] = us ++ a :: (vs ++ b :: ws)) :
    (ev = b ∧ log = us ++ a :: vs) ∨ ∃ ws', log = us ++ a :: (vs ++ b :: ws') := by
  rcases List.eq_nil_or_concat ws with rfl | ⟨ws', x, rfl⟩
  · have h' : log ++ [ev] = (us ++ a :: vs) ++ [b] := by simpa using h
    obtain ⟨hlog, hev⟩ := List.append_inj' h' rfl
    exact Or.inl ⟨by simpa using hev, hlog⟩
  · have h' : log ++ [ev] = (us ++ a :: (vs ++ b :: ws')) ++ [x] := by simpa using h
    exact Or.inr ⟨ws', (List.append_inj' h' rfl).1⟩

omit [DecidableEq ι] in
theorem Apart.reset {log : List (ι × Event)} (h : Apart log) (j : ι) :
    Apart (log ++ [(j, .reset)]) := by
  intro i e f us vs ws hlog hvs
  rcases split_concat hlog with ⟨he, -⟩ | ⟨ws', hold⟩
  · cases he
  · exact h i e f us vs ws' hold hvs

/-- A new extent has to be disjoint from those since the last reset only. -/
theorem Apart.take {log : List (ι × Event)} (h : Apart log) {j : ι} {x : Extent}
    (hx : ∀ e ∈ since j log, e.Disjoint x) : Apart (log ++ [(j, .take x)]) := by
  intro i e f us vs ws hlog hvs
  rcases split_concat hlog with ⟨he, hold⟩ | ⟨ws', hold⟩
  · simp only [Prod.mk.injEq, Event.take.injEq] at he
    obtain ⟨rfl, rfl⟩ := he
    exact hx e (hold ▸ mem_since hvs)
  · exact h i e f us vs ws' hold hvs

/-- Several allocators move their pointers back. -/
def resets (is : List ι) : List (ι × Event) := is.map fun i => (i, Event.reset)

theorem since_resets (i : ι) (log : List (ι × Event)) (is : List ι) :
    since i (log ++ resets is) = if i ∈ is then [] else since i log := by
  induction is using List.reverseRecOn with
  | nil => simp [resets]
  | append_singleton is j ih =>
      have hlast : log ++ resets (is ++ [j]) = (log ++ resets is) ++ [(j, .reset)] := by
        simp [resets]
      rw [hlast, since_reset, ih]
      by_cases hj : j = i
      · simp [hj]
      · simp [hj, Ne.symm hj]

omit [DecidableEq ι] in
theorem Apart.resets {log : List (ι × Event)} (h : Apart log) (is : List ι) :
    Apart (log ++ Bump.resets is) := by
  induction is using List.reverseRecOn with
  | nil => simpa [Bump.resets] using h
  | append_singleton is j ih =>
      have hlast : log ++ Bump.resets (is ++ [j]) = (log ++ Bump.resets is) ++ [(j, .reset)] := by
        simp [Bump.resets]
      rw [hlast]
      exact ih.reset j

omit [DecidableEq ι] in
theorem take_mem_resets {log : List (ι × Event)} {is : List ι} {i : ι} {e : Extent} :
    (i, Event.take e) ∈ log ++ resets is ↔ (i, Event.take e) ∈ log := by
  simp [resets]

end Log

end Bump

/-
CcNvme/Lib/Overlay.lean

Writing over parts of a store, one write after another.  A write `k` gives the
addresses it covers the values `content k` and leaves the others alone, so that
after a list of writes an address holds what the last write that covers it
has put there (`foldl_write_apply`).  Writes made earlier to addresses that are
written again leave no trace (`foldl_write_absorb`).
-/
import Mathlib.Data.List.Induction

namespace Overlay

variable {κ ι α : Type*} (cover : κ → ι → Bool) (content : κ → ι → α)

/-- The store `f` after the write `k`. -/
def write (f : ι → α) (k : κ) : ι → α := fun i => if cover k i then content k i else f i

/-- The last of the writes `ks` that covers `i`. -/
def lastCover (ks : List κ) (i : ι) : Option κ := (ks.filter fun k => cover k i).getLast?

variable {cover}

theorem lastCover_append (xs ys : List κ) (i : ι) :
    lastCover cover (xs ++ ys) i = (lastCover cover ys i).or (lastCover cover xs i) := by
  rw [lastCover, List.filter_append, List.getLast?_append]
  rfl

theorem lastCover_eq_none_iff {ks : List κ} {i : ι} :
    lastCover cover ks i = none ↔ ∀ k ∈ ks, cover k i = false := by
  simp [lastCover]

theorem lastCover_eq_some {ks : List κ} {i : ι} {k : κ} (h : lastCover cover ks i = some k) :
    k ∈ ks ∧ cover k i = true :=
  List.mem_filter.mp (List.mem_of_getLast? h)

theorem lastCover_map {γ : Type*} (f : γ → κ) (xs : List γ) (i : ι) :
    lastCover cover (xs.map f) i = (lastCover (fun x => cover (f x)) xs i).map f := by
  rw [lastCover, List.filter_map, List.getLast?_map]
  rfl

/-- What comes after the last write that covers `i` does not cover it. -/
theorem lastCover_append_eq_some {xs ys : List κ} {i : ι} {k : κ}
    (h : lastCover cover xs i = some k) (hys : ∀ y ∈ ys, cover y i = false) :
    lastCover cover (xs ++ ys) i = some k := by
  rw [lastCover_append, lastCover_eq_none_iff.mpr hys, h]
  rfl

theorem lastCover_append_right {xs ys : List κ} {i : ι} {k : κ}
    (h : lastCover cover ys i = some k) : lastCover cover (xs ++ ys) i = some k := by
  rw [lastCover_append, h]
  rfl

/-- The last write that covers `i` stays the last when others are left out. -/
theorem lastCover_filter {p : κ → Bool} {ks : List κ} {i : ι} {k : κ}
    (h : lastCover cover ks i = some k) (hp : p k = true) :
    lastCover cover (ks.filter p) i = some k := by
  obtain ⟨ys, hys⟩ := List.getLast?_eq_some_iff.mp h
  have hcomm : ((ks.filter p).filter fun k => cover k i)
      = (ks.filter fun k => cover k i).filter p := by
    rw [List.filter_filter, List.filter_filter]
    exact List.filter_congr fun k _ => Bool.and_comm _ _
  rw [lastCover, hcomm, hys, List.filter_append, List.filter_cons_of_pos hp]
  exact List.getLast?_concat

/-- **The last write decides.** -/
theorem foldl_write_apply (ks : List κ) (f : ι → α) (i : ι) :
    ks.foldl (write cover content) f i
      = ((lastCover cover ks i).map fun k => content k i).getD (f i) := by
  induction ks using List.reverseRecOn generalizing f with
  | nil => rfl
  | append_singleton ks k ih =>
      rw [List.foldl_append, List.foldl_cons, List.foldl_nil, lastCover_append, write, ih]
      rcases e : cover k i
      · simp [lastCover, e]
      · simp [lastCover, e]

/-- An address that only `k` covers holds what `k` has put there. -/
theorem foldl_write_of_only {ks : List κ} (f : ι → α) {k : κ} {i : ι} (hk : k ∈ ks)
    (hcov : cover k i = true) (honly : ∀ x ∈ ks, cover x i = true → x = k) :
    ks.foldl (write cover content) f i = content k i := by
  rw [foldl_write_apply]
  rcases e : lastCover cover ks i with - | x
  · rw [lastCover_eq_none_iff.mp e k hk] at hcov
    cases hcov
  · obtain ⟨hx, hxi⟩ := lastCover_eq_some e
    rw [honly x hx hxi]
    rfl

/-- Writes to addresses that are written again later leave no trace. -/
theorem foldl_write_absorb {xs ks : List κ} (f : ι → α)
    (h : ∀ i, ∀ x ∈ xs, cover x i = true → ∃ k ∈ ks, cover k i = true) :
    ks.foldl (write cover content) (xs.foldl (write cover content) f)
      = ks.foldl (write cover content) f := by
  funext i
  rw [foldl_write_apply, foldl_write_apply content ks f]
  rcases e : lastCover cover ks i with - | k
  · -- what no later write covers, no earlier one did
    have hxs : lastCover cover xs i = none := by
      rw [lastCover_eq_none_iff] at e ⊢
      intro x hx
      by_contra hc
      obtain ⟨k, hk, hki⟩ := h i x hx (by simpa using hc)
      rw [e k hk] at hki
      cases hki
    rw [foldl_write_apply, hxs]
    rfl
  · rfl

end Overlay

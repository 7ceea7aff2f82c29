/-
CcNvme/Lib/Pool.lean

A pool of resources and their owners.  `Apart free own` says that no resource occurs
twice, neither in the pool, nor with one owner, nor with two.  Taking the first
resources of the pool and giving resources back keeps that (`Apart.take`,
`Apart.give`), and it makes the owner of a resource unique.

`pairwise_update` is the step lemma for what holds between any two owners when one of
them changes.

`Conserved all free held` counts: the pool and what is held are the resources `all`, none
lost and none doubled, in whatever order.
-/
import Mathlib.Data.List.Nodup
import Mathlib.Data.List.Perm.Basic

namespace Pool

variable {α κ : Type*}

/-- What holds between two different owners still does after one of them has changed. -/
theorem pairwise_update [DecidableEq κ] {R : α → α → Prop} {f : κ → α} {k : κ} {v : α}
    (h : ∀ k₁ k₂, k₁ ≠ k₂ → R (f k₁) (f k₂)) (hv : ∀ k', k' ≠ k → R v (f k') ∧ R (f k') v)
    (k₁ k₂ : κ) (hne : k₁ ≠ k₂) : R (Function.update f k v k₁) (Function.update f k v k₂) := by
  by_cases h₁ : k₁ = k
  · subst h₁
    rw [Function.update_self, Function.update_of_ne hne.symm]
    exact (hv k₂ hne.symm).1
  · rw [Function.update_of_ne h₁]
    by_cases h₂ : k₂ = k
    · rw [h₂, Function.update_self]
      exact (hv k₁ h₁).2
    · rw [Function.update_of_ne h₂]
      exact h k₁ k₂ hne

/-- No resource occurs twice in the pool and with the owners. -/
structure Apart (free : List α) (own : κ → List α) : Prop where
  free_nodup : free.Nodup
  own_nodup : ∀ k, (own k).Nodup
  own_free : ∀ k, (own k).Disjoint free
  own_own : ∀ k k', k ≠ k' → (own k).Disjoint (own k')

/-- Nothing is taken. -/
theorem apart_of_free {free : List α} (h : free.Nodup) : Apart free fun _ : κ => [] where
  free_nodup := h
  own_nodup := fun _ => List.nodup_nil
  own_free := fun _ => List.disjoint_nil_left _
  own_own := fun _ _ _ => List.disjoint_nil_left _

namespace Apart

variable {free : List α} {own : κ → List α}

theorem owner_unique (h : Apart free own) {x : α} {k k' : κ} (hx : x ∈ own k)
    (hx' : x ∈ own k') : k = k' := by
  by_contra hne
  exact h.own_own k k' hne hx hx'

variable [DecidableEq κ]

/-- The pool and what `k` has are replaced by resources that no one else has. -/
theorem replace (h : Apart free own) (k : κ) {free' xs : List α} (hfree : free'.Nodup)
    (hxs : xs.Nodup) (hself : xs.Disjoint free')
    (hothers : ∀ k', k' ≠ k → (own k').Disjoint free' ∧ (own k').Disjoint xs) :
    Apart free' (Function.update own k xs) where
  free_nodup := hfree
  own_nodup := (Function.forall_update_iff own fun _ ys => ys.Nodup).mpr
    ⟨hxs, fun k' _ => h.own_nodup k'⟩
  own_free := (Function.forall_update_iff own fun _ ys => ys.Disjoint free').mpr
    ⟨hself, fun k' hk' => (hothers k' hk').1⟩
  own_own := pairwise_update h.own_own fun k' hk' =>
    ⟨List.disjoint_symm (hothers k' hk').2, (hothers k' hk').2⟩

/-- The first `n` resources go to an owner, who keeps nothing else. -/
theorem take (h : Apart free own) (k : κ) (n : ℕ) :
    Apart (free.drop n) (Function.update own k (free.take n)) := by
  refine h.replace k (h.free_nodup.sublist (List.drop_sublist n free))
    (h.free_nodup.sublist (List.take_sublist n free))
    (List.disjoint_take_drop h.free_nodup (Nat.le_refl n)) fun k' _ => ⟨?_, ?_⟩
  · exact List.disjoint_of_subset_right (List.drop_subset n free) (h.own_free k')
  · exact List.disjoint_of_subset_right (List.take_subset n free) (h.own_free k')

/-- An owner leaves, and some of what it had goes back to the pool. -/
theorem give (h : Apart free own) {k : κ} {xs : List α} (hxs : xs.Sublist (own k)) :
    Apart (free ++ xs) (Function.update own k []) := by
  have hfree : (free ++ xs).Nodup :=
    List.Nodup.append h.free_nodup ((h.own_nodup k).sublist hxs)
      (List.disjoint_of_subset_right hxs.subset (List.disjoint_symm (h.own_free k)))
  refine h.replace k hfree List.nodup_nil (List.disjoint_nil_left _) fun k' hk' => ⟨?_, ?_⟩
  · rw [List.disjoint_append_right]
    exact ⟨h.own_free k', List.disjoint_of_subset_right hxs.subset (h.own_own k' k hk')⟩
  · exact List.disjoint_nil_right _

end Apart

/-! ### Conservation -/

/-- The pool and what is held are a permutation of all resources. -/
def Conserved (all free : List α) (held : List (List α)) : Prop :=
  (free ++ held.flatten).Perm all

namespace Conserved

variable {all free ids : List α} {held : List (List α)}

/-- The first `n` resources go to a new owner. -/
theorem take (h : Conserved all free held) (n : ℕ) :
    Conserved all (free.drop n) (free.take n :: held) := by
  refine List.Perm.trans ?_ h
  rw [List.flatten_cons, ← List.append_assoc]
  refine List.Perm.append_right _ (List.perm_append_comm.trans ?_)
  rw [List.take_append_drop]

/-- The `k`-th owner gives back what it holds, in any order. -/
theorem give (h : Conserved all free held) {k : ℕ} {xs : List α} (hk : held[k]? = some ids)
    (hxs : xs.Perm ids) : Conserved all (free ++ xs) (held.eraseIdx k) := by
  obtain ⟨hlt, rfl⟩ := List.getElem?_eq_some_iff.mp hk
  have hheld : (xs ++ (held.eraseIdx k).flatten).Perm held.flatten := by
    refine (hxs.append_right _).trans ?_
    rw [← List.flatten_cons]
    exact (List.getElem_cons_eraseIdx_perm hlt).flatten
  show (free ++ xs ++ (held.eraseIdx k).flatten).Perm all
  rw [List.append_assoc]
  exact (hheld.append_left free).trans h

theorem mem_all_of_held (h : Conserved all free held) {x : α} (hids : ids ∈ held) (hx : x ∈ ids) :
    x ∈ all :=
  h.mem_iff.mp (List.mem_append_right _ (List.mem_flatten.mpr ⟨ids, hids, hx⟩))

theorem length_add_le (h : Conserved all free held) (hids : ids ∈ held) :
    free.length + ids.length ≤ all.length := by
  rw [← h.length_eq, List.length_append]
  exact Nat.add_le_add_left (List.sublist_flatten_of_mem hids).length_le _

/-- What is free is not held. -/
theorem not_held (h : Conserved all free held) (hall : all.Nodup) {x : α} (hx : x ∈ free)
    (hids : ids ∈ held) : x ∉ ids := fun hxi =>
  (List.nodup_append'.mp (h.nodup_iff.mpr hall)).2.2 hx (List.mem_flatten.mpr ⟨ids, hids, hxi⟩)

/-- What one owner holds no other does. -/
theorem not_held_by_other (h : Conserved all free held) (hall : all.Nodup) {k : ℕ} {x : α}
    (hk : held[k]? = some ids) (hx : x ∈ ids) {ids' : List α} (hids' : ids' ∈ held.eraseIdx k) :
    x ∉ ids' :=
  (h.give hk (List.Perm.refl ids)).not_held hall (List.mem_append_right _ hx) hids'

end Conserved

end Pool

/-
CcNvme/Lib/Holders.lean

Counting references by their holders.  A holder is a key together with the resource it
holds; keys come and go, and `live` tells those that are there.  `Tracks live held` says that
`held` lists live keys, none of them twice, each with its resource.

When keys go, `Releases live live' held as` says that the resources `as` are those of the
holders that have gone, with multiplicity: a reference count that is lowered once for each of
`as` still counts the holders.  It holds for a key that goes with its resource (`one`), and
composes (`trans`).
-/
import Mathlib.Data.List.Nodup
import Mathlib.Data.List.Count

namespace Holders

variable {κ α : Type*}

/-- Those of the holders that are live. -/
def kept (live : κ → Bool) (held : List (κ × α)) : List (κ × α) := held.filter fun h => live h.1

/-- The keys of `held` are live, and each occurs once. -/
structure Tracks (live : κ → Bool) (held : List (κ × α)) : Prop where
  nodup : (held.map Prod.fst).Nodup
  live : ∀ h ∈ held, live h.1 = true

namespace Tracks

variable {live : κ → Bool} {held : List (κ × α)}

theorem nil (live : κ → Bool) : Tracks live ([] : List (κ × α)) :=
  ⟨List.nodup_nil, by simp⟩

theorem kept_self (h : Tracks live held) : kept live held = held := List.filter_eq_self.mpr h.live

/-- A key comes with its resource. -/
theorem add [DecidableEq κ] (h : Tracks live held) {k : κ} (hk : live k = false) (a : α)
    {live' : κ → Bool} (hlive' : ∀ k', live' k' = if k' = k then true else live k') :
    Tracks live' (held ++ [(k, a)]) where
  nodup := by
    rw [List.map_append, List.map_singleton, ← List.concat_eq_append]
    refine h.nodup.concat fun hmem => ?_
    obtain ⟨x, hx, rfl⟩ := List.mem_map.mp hmem
    rw [h.live x hx] at hk
    cases hk
  live x hx := by
    rw [hlive']
    split_ifs with hxk
    · rfl
    · rcases List.mem_append.mp hx with hx | hx
      · exact h.live x hx
      · exact absurd (congrArg Prod.fst (List.mem_singleton.mp hx)) hxk

/-- The keys of the rest of the list are other keys, and differ. -/
theorem split {l₁ l₂ : List (κ × α)} {k : κ} {a : α} (h : Tracks live (l₁ ++ (k, a) :: l₂)) :
    (∀ x ∈ l₁ ++ l₂, x.1 ≠ k) ∧ ((l₁ ++ l₂).map Prod.fst).Nodup := by
  have hnodup := h.nodup
  rw [List.map_append, List.map_cons, List.nodup_middle, ← List.map_append,
    List.nodup_cons] at hnodup
  exact ⟨fun x hx hk => hnodup.1 (List.mem_map.mpr ⟨x, hx, hk⟩), hnodup.2⟩

end Tracks

/-- Keys have gone, and the resources `as` are those they held. -/
structure Releases [DecidableEq α] (live live' : κ → Bool) (held : List (κ × α)) (as : List α) :
    Prop where
  le : ∀ k, live' k = true → live k = true
  tracks : Tracks live' (kept live' held)
  count : ∀ a, held.countP (fun h => h.2 = a)
    = (kept live' held).countP (fun h => h.2 = a) + as.count a

namespace Releases

variable [DecidableEq α] {live live₁ live₂ live' : κ → Bool} {held : List (κ × α)}
  {as as₁ as₂ : List α}

theorem refl (h : Tracks live held) : Releases live live held [] where
  le _ hk := hk
  tracks := h.kept_self.symm ▸ h
  count a := by rw [h.kept_self, List.count_nil, Nat.add_zero]

theorem trans (h₁ : Releases live live₁ held as₁)
    (h₂ : Releases live₁ live₂ (kept live₁ held) as₂) : Releases live live₂ held (as₁ ++ as₂) := by
  have hkept : kept live₂ (kept live₁ held) = kept live₂ held := by
    unfold kept
    rw [List.filter_filter]
    refine List.filter_congr fun x _ => ?_
    rcases hx : live₂ x.1 with - | -
    · rfl
    · rw [h₂.le x.1 hx, Bool.and_self]
  refine ⟨fun k hk => h₁.le k (h₂.le k hk), hkept ▸ h₂.tracks, fun a => ?_⟩
  rw [h₁.count, h₂.count, hkept, List.count_append]
  omega

/-- A key that was not there goes. -/
theorem none [DecidableEq κ] (h : Tracks live held) {k : κ} (hk : live k = false)
    (hlive' : ∀ k', live' k' = if k' = k then false else live k') :
    Releases live live' held [] := by
  have heq : live' = live := by
    funext k'
    rw [hlive']
    split_ifs with hk'
    · rw [hk', hk]
    · rfl
  rw [heq]
  exact refl h

/-- A key goes with its resource. -/
theorem one [DecidableEq κ] (h : Tracks live held) {k : κ} {a : α} (hmem : (k, a) ∈ held)
    (hlive' : ∀ k', live' k' = if k' = k then false else live k') :
    Releases live live' held [a] := by
  obtain ⟨l₁, l₂, rfl⟩ := List.append_of_mem hmem
  obtain ⟨hother, hnodup⟩ := h.split
  have hlive : ∀ x ∈ l₁ ++ l₂, live' x.1 = true := by
    intro x hx
    rw [hlive', if_neg (hother x hx)]
    refine h.live x ?_
    rcases List.mem_append.mp hx with hx | hx
    · exact List.mem_append_left _ hx
    · exact List.mem_append_right _ (List.mem_cons_of_mem _ hx)
  have hkept : kept live' (l₁ ++ (k, a) :: l₂) = l₁ ++ l₂ := by
    unfold kept
    have hgone : live' k = false := by rw [hlive', if_pos rfl]
    rw [List.filter_append, List.filter_cons_of_neg (by simp [hgone]),
      List.filter_eq_self.mpr fun x hx => hlive x (List.mem_append_left _ hx),
      List.filter_eq_self.mpr fun x hx => hlive x (List.mem_append_right _ hx)]
  refine ⟨fun k' hk' => ?_, ?_, fun b => ?_⟩
  · rw [hlive'] at hk'
    split_ifs at hk'
    exact hk'
  · rw [hkept]
    exact ⟨hnodup, hlive⟩
  · rw [hkept, List.countP_append, List.countP_append, List.countP_cons, List.count_singleton]
    by_cases hab : a = b
    · simp [hab, Nat.add_assoc]
    · simp [hab]

end Releases

end Holders

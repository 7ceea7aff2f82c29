/-
CcNvme/Lib/Table.lean

Tables of records addressed by position: a record is replaced with `List.set`, a new one is
appended.  `total f t` is the sum of `f` over the records, so a table of requests that each
hold a number of something says how many of it there are.  A replacement changes the sum by
the difference of the two records (`total_set`), whatever the rest of the table is.

And lists that several owners have, to which one of them adds in front and from which it takes
the last element.
-/
import Mathlib.Data.List.Basic
import Mathlib.Data.List.Nodup
import Mathlib.Algebra.Order.BigOperators.Group.List
import Mathlib.Algebra.Order.Ring.Nat

namespace Table

variable {α : Type*}

/-- The sum of `f` over the records. -/
def total (f : α → ℕ) (t : List α) : ℕ := (t.map f).sum

@[simp] theorem total_nil (f : α → ℕ) : total f [] = 0 := rfl

@[simp] theorem total_cons (f : α → ℕ) (x : α) (t : List α) :
    total f (x :: t) = f x + total f t := by
  simp [total]

@[simp] theorem total_concat (f : α → ℕ) (t : List α) (x : α) :
    total f (t ++ [x]) = total f t + f x := by
  simp [total]

/-- **Replacement.**  What the old record held goes, what the new one holds comes. -/
theorem total_set (f : α → ℕ) {t : List α} {b : ℕ} {x : α} (hx : t[b]? = some x) (y : α) :
    total f (t.set b y) + f x = total f t + f y := by
  induction t generalizing b with
  | nil => cases hx
  | cons z t ih =>
      cases b with
      | zero =>
          obtain rfl := Option.some.inj hx
          simp only [List.set_cons_zero, total_cons]
          omega
      | succ b =>
          have hrest := ih hx
          simp only [List.set_cons_succ, total_cons]
          omega

/-- A replacement that `f` does not see. -/
theorem total_set_eq {f : α → ℕ} {t : List α} {b : ℕ} {x y : α} (hx : t[b]? = some x)
    (hf : f y = f x) : total f (t.set b y) = total f t := by
  have h := total_set f hx y
  omega

theorem total_modify_eq {f : α → ℕ} {h : α → α} (hf : ∀ x, f (h x) = f x) (t : List α) (b : ℕ) :
    total f (t.modify b h) = total f t := by
  induction t generalizing b with
  | nil => simp
  | cons x t ih => cases b <;> simp [hf, ih]

theorem total_mapIdx_eq {f : α → ℕ} {h : ℕ → α → α} {t : List α}
    (hf : ∀ b x, t[b]? = some x → f (h b x) = f x) : total f (t.mapIdx h) = total f t := by
  have hmap : (t.mapIdx h).map f = t.map f := by
    apply List.ext_getElem?
    intro b
    rw [List.getElem?_map, List.getElem?_map, List.getElem?_mapIdx]
    rcases hx : t[b]? with - | x
    · rfl
    · exact congrArg some (hf b x hx)
  rw [total, hmap, total]

theorem le_total (f : α → ℕ) {t : List α} {x : α} (hx : x ∈ t) : f x ≤ total f t :=
  List.le_sum_of_mem (List.mem_map_of_mem hx)

theorem total_eq_zero {f : α → ℕ} {t : List α} (h : ∀ x ∈ t, f x = 0) : total f t = 0 := by
  induction t with
  | nil => rfl
  | cons x t ih =>
      have hx := h x List.mem_cons_self
      have ht := ih fun y hy => h y (List.mem_cons_of_mem x hy)
      rw [total_cons, hx, ht]

/-- A record of a table after a replacement. -/
theorem get_set_cases {t : List α} {b c : ℕ} {y z : α} (hz : (t.set b y)[c]? = some z) :
    (c = b ∧ z = y) ∨ (c ≠ b ∧ t[c]? = some z) := by
  by_cases hcb : c = b
  · subst hcb
    rw [List.getElem?_set] at hz
    split_ifs at hz with hlt
    · exact Or.inl ⟨rfl, (Option.some.inj hz).symm⟩
    · exact absurd rfl hlt
  · rw [List.getElem?_set_ne (Ne.symm hcb)] at hz
    exact Or.inr ⟨hcb, hz⟩

theorem get_set_self {t : List α} {b : ℕ} {x : α} (hx : t[b]? = some x) (y : α) :
    (t.set b y)[b]? = some y :=
  List.getElem?_set_self (List.getElem?_eq_some_iff.mp hx).1

/-- Another record than the one that is replaced is still there. -/
theorem get_set_of_ne {t : List α} {b c : ℕ} {x z : α} (hx : t[b]? = some x)
    (hz : t[c]? = some z) (hne : z ≠ x) (y : α) : (t.set b y)[c]? = some z := by
  have hbc : b ≠ c := by
    rintro rfl
    exact hne (Option.some.inj (hz.symm.trans hx))
  rw [List.getElem?_set_ne hbc]
  exact hz

theorem get_concat {t : List α} {c : ℕ} {z : α} (hz : t[c]? = some z) (y : α) :
    (t ++ [y])[c]? = some z := by
  rw [List.getElem?_append_left (List.getElem?_eq_some_iff.mp hz).1]
  exact hz

/-- A record of a table to which one was added. -/
theorem get_concat_cases {t : List α} {c : ℕ} {y z : α} (hz : (t ++ [y])[c]? = some z) :
    t[c]? = some z ∨ (c = t.length ∧ z = y) := by
  rw [List.getElem?_append] at hz
  split_ifs at hz with hlt
  · exact Or.inl hz
  · rw [List.getElem?_singleton] at hz
    split_ifs at hz with hc
    exact Or.inr ⟨by omega, (Option.some.inj hz).symm⟩

/-- The records of a table after a replacement. -/
theorem forall_set {P : α → Prop} {t : List α} {b : ℕ} {y : α} (ht : ∀ x ∈ t, P x) (hy : P y) :
    ∀ x ∈ t.set b y, P x := by
  intro x hx
  rcases List.mem_or_eq_of_mem_set hx with hx | rfl
  · exact ht x hx
  · exact hy

section Owners

variable {κ : Type*} [DecidableEq κ] {l : κ → List α} {i j : κ} {a x : α}

/-- One owner adds an element to its list. -/
theorem mem_push_iff :
    x ∈ Function.update l i (a :: l i) j ↔ (j = i ∧ x = a) ∨ x ∈ l j := by
  by_cases hj : j = i
  · subst hj
    rw [Function.update_self, List.mem_cons]
    exact or_congr_left ⟨fun hx => ⟨rfl, hx⟩, And.right⟩
  · rw [Function.update_of_ne hj]
    exact ⟨Or.inr, fun h => h.resolve_left fun he => hj he.1⟩

theorem nodup_push (hl : ∀ j, (l j).Nodup) (ha : a ∉ l i) (j : κ) :
    (Function.update l i (a :: l i) j).Nodup := by
  by_cases hj : j = i
  · subst hj
    rw [Function.update_self]
    exact List.nodup_cons.mpr ⟨ha, hl j⟩
  · rw [Function.update_of_ne hj]
    exact hl j

/-- One owner takes the last element of its list. -/
theorem mem_pop_iff (hl : (l i).Nodup) (ha : (l i).getLast? = some a) :
    x ∈ Function.update l i (l i).dropLast j ↔ x ∈ l j ∧ ¬ (j = i ∧ x = a) := by
  have hlist : (l i).dropLast ++ [a] = l i := List.dropLast_append_getLast? a ha
  have hlast : a ∉ (l i).dropLast := by
    rw [← hlist] at hl
    exact fun hin => List.disjoint_of_nodup_append hl hin List.mem_cons_self
  by_cases hj : j = i
  · subst hj
    rw [Function.update_self]
    constructor
    · intro hin
      refine ⟨(List.dropLast_sublist (l j)).subset hin, fun he => ?_⟩
      rw [he.2] at hin
      exact hlast hin
    · rintro ⟨hin, hne⟩
      rw [← hlist] at hin
      rcases List.mem_append.mp hin with hin | hin
      · exact hin
      · exact absurd ⟨rfl, List.mem_singleton.mp hin⟩ hne
  · rw [Function.update_of_ne hj]
    exact ⟨fun hin => ⟨hin, fun he => hj he.1⟩, And.left⟩

theorem nodup_pop (hl : ∀ j, (l j).Nodup) (j : κ) :
    (Function.update l i (l i).dropLast j).Nodup := by
  by_cases hj : j = i
  · subst hj
    rw [Function.update_self]
    exact (hl j).sublist (List.dropLast_sublist (l j))
  · rw [Function.update_of_ne hj]
    exact hl j

end Owners

end Table

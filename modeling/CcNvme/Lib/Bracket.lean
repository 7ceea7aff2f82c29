/-
CcNvme/Lib/Bracket.lean

The two-phase bracket scanner.  A list is read from left to right; in the
closed phase the scanner waits for an opener, in the open phase it waits for
a closer, and each closer met in the open phase produces the pair
(opener, closer).  Openers met in the open phase and closers met in the
closed phase are ignored, and one symbol may be both.

`pairs q xs` is what the scanner produces from the phase `q`, `rest q xs` the
phase it ends in.  Both are folds, so they split along `++`; the lemmas
about lists without closers or without openers are the ones a proof about a
concrete stream of marks needs.

`groups xs` is the scanner without a phase: cut off everything up to the first
opener, take what stands before the next closer, and go on behind it.
`map_pairs_eq_groups` finds the two the same, and `mem_groups_iff` says which symbols stand
in a group.
-/
import Mathlib.Data.List.Basic
import Mathlib.Data.List.Induction
import Mathlib.Data.List.TakeWhile

namespace Bracket

variable {α : Type*} (isB isE : α → Bool)

/-- One symbol: the new phase, `some y` when the opener `y` waits for a closer. -/
def next (q : Option α) (x : α) : Option α :=
  match q with
  | none => if isB x then some x else none
  | some y => if isE x then none else some y

/-- The pair produced by one symbol, if any. -/
def emit (q : Option α) (x : α) : List (α × α) :=
  match q with
  | none => []
  | some y => if isE x then [(y, x)] else []

/-- All pairs produced from phase `q`. -/
def pairs : Option α → List α → List (α × α)
  | _, [] => []
  | q, x :: xs => emit isE q x ++ pairs (next isB isE q x) xs

/-- The phase reached from phase `q`. -/
def rest (q : Option α) (xs : List α) : Option α := xs.foldl (next isB isE) q

@[simp] theorem pairs_nil (q : Option α) : pairs isB isE q [] = [] := by
  cases q <;> rfl

theorem pairs_cons (q : Option α) (x : α) (xs : List α) :
    pairs isB isE q (x :: xs) = emit isE q x ++ pairs isB isE (next isB isE q x) xs := by
  cases q <;> rfl

@[simp] theorem rest_nil (q : Option α) : rest isB isE q [] = q := rfl

theorem rest_cons (q : Option α) (x : α) (xs : List α) :
    rest isB isE q (x :: xs) = rest isB isE (next isB isE q x) xs := rfl

/-! ### Splitting the input -/

theorem rest_append (q : Option α) (xs ys : List α) :
    rest isB isE q (xs ++ ys) = rest isB isE (rest isB isE q xs) ys :=
  List.foldl_append

theorem pairs_append (q : Option α) (xs ys : List α) :
    pairs isB isE q (xs ++ ys)
      = pairs isB isE q xs ++ pairs isB isE (rest isB isE q xs) ys := by
  induction xs generalizing q with
  | nil => simp
  | cons x xs ih => simp only [List.cons_append, pairs_cons, ih, rest_cons, List.append_assoc]

/-! ### Inputs without closers, inputs without openers -/

variable {isB isE}

theorem pairs_of_no_closer {q : Option α} {xs : List α} (h : ∀ x ∈ xs, isE x = false) :
    pairs isB isE q xs = [] := by
  induction xs generalizing q with
  | nil => simp
  | cons x xs ih =>
      have hx : emit isE q x = [] := by
        rcases q with - | y
        · rfl
        · simp [emit, h x List.mem_cons_self]
      rw [pairs_cons, hx, ih fun y hy => h y (List.mem_cons_of_mem _ hy)]
      rfl

theorem rest_of_no_closer {y : α} {xs : List α} (h : ∀ x ∈ xs, isE x = false) :
    rest isB isE (some y) xs = some y := by
  induction xs with
  | nil => rfl
  | cons x xs ih =>
      rw [rest_cons]
      simpa [next, h x List.mem_cons_self] using
        ih fun z hz => h z (List.mem_cons_of_mem _ hz)

theorem rest_of_no_opener {xs : List α} (h : ∀ x ∈ xs, isB x = false) :
    rest isB isE none xs = none := by
  induction xs with
  | nil => rfl
  | cons x xs ih =>
      rw [rest_cons]
      simpa [next, h x List.mem_cons_self] using
        ih fun z hz => h z (List.mem_cons_of_mem _ hz)

theorem pairs_of_no_opener {xs : List α} (h : ∀ x ∈ xs, isB x = false) :
    pairs isB isE none xs = [] := by
  induction xs with
  | nil => rfl
  | cons x xs ih =>
      rw [pairs_cons]
      simpa [next, emit, h x List.mem_cons_self] using
        ih fun z hz => h z (List.mem_cons_of_mem _ hz)

/-- In the open phase the first closer ends the pair. -/
theorem pairs_first_closer {y c : α} {xs ys : List α} (hxs : ∀ x ∈ xs, isE x = false)
    (hc : isE c = true) :
    pairs isB isE (some y) (xs ++ c :: ys) = (y, c) :: pairs isB isE none ys := by
  rw [pairs_append, pairs_of_no_closer hxs, rest_of_no_closer hxs, pairs_cons]
  simp [emit, next, hc]

theorem rest_first_closer {y c : α} {xs ys : List α} (hxs : ∀ x ∈ xs, isE x = false)
    (hc : isE c = true) :
    rest isB isE (some y) (xs ++ c :: ys) = rest isB isE none ys := by
  rw [rest_append, rest_of_no_closer hxs, rest_cons]
  simp [next, hc]

/-- In the closed phase the first opener starts the pair. -/
theorem pairs_first_opener {b : α} {xs ys : List α} (hxs : ∀ x ∈ xs, isB x = false)
    (hb : isB b = true) :
    pairs isB isE none (xs ++ b :: ys) = pairs isB isE (some b) ys := by
  rw [pairs_append, pairs_of_no_opener hxs, rest_of_no_opener hxs, pairs_cons]
  simp [emit, next, hb]

theorem mem_pairs_first_closer {y c : α} {xs ys : List α} (hxs : ∀ x ∈ xs, isE x = false)
    (hc : isE c = true) : (y, c) ∈ pairs isB isE (some y) (xs ++ c :: ys) := by
  rw [pairs_first_closer hxs hc]
  exact List.mem_cons_self

theorem mem_pairs_bracket {b c : α} {xs ys : List α} (hb : isB b = true)
    (hxs : ∀ x ∈ xs, isE x = false) (hc : isE c = true) :
    (b, c) ∈ pairs isB isE none (b :: (xs ++ c :: ys)) := by
  rw [← List.nil_append (b :: _), pairs_first_opener (by simp) hb]
  exact mem_pairs_first_closer hxs hc

/-- A list cut into bracketed groups gives one pair for each group, and ends closed. -/
theorem pairs_groups {γ : Type*} {first last : γ → α} {inner : γ → List α} {gs : List γ}
    (hfirst : ∀ g ∈ gs, isB (first g) = true)
    (hinner : ∀ g ∈ gs, ∀ x ∈ inner g, isE x = false)
    (hlast : ∀ g ∈ gs, isE (last g) = true) :
    pairs isB isE none (gs.flatMap fun g => first g :: (inner g ++ [last g]))
        = gs.map (fun g => (first g, last g)) ∧
      rest isB isE none (gs.flatMap fun g => first g :: (inner g ++ [last g])) = none := by
  induction gs with
  | nil => exact ⟨rfl, rfl⟩
  | cons g gs ih =>
      obtain ⟨hpairs, hrest⟩ := ih (fun g' h => hfirst g' (List.mem_cons_of_mem _ h))
        (fun g' h => hinner g' (List.mem_cons_of_mem _ h))
        (fun g' h => hlast g' (List.mem_cons_of_mem _ h))
      have hopen : next isB isE none (first g) = some (first g) := by
        simp [next, hfirst g List.mem_cons_self]
      have hg := hinner g List.mem_cons_self
      have hl := hlast g List.mem_cons_self
      rw [List.flatMap_cons, List.cons_append, List.append_assoc, List.singleton_append,
        pairs_cons, rest_cons, hopen, pairs_first_closer hg hl, rest_first_closer hg hl, hpairs]
      exact ⟨rfl, hrest⟩

/-- Only the marks of the list's own elements matter. -/
theorem pairs_congr {isB' isE' : α → Bool} {q : Option α} {xs : List α}
    (h : ∀ x ∈ xs, isB x = isB' x ∧ isE x = isE' x) :
    pairs isB isE q xs = pairs isB' isE' q xs := by
  induction xs generalizing q with
  | nil => simp
  | cons x xs ih =>
      obtain ⟨hB, hE⟩ := h x List.mem_cons_self
      have hemit : emit isE q x = emit isE' q x := by
        rcases q with - | y <;> simp [emit, hE]
      have hnext : next isB isE q x = next isB' isE' q x := by
        rcases q with - | y <;> simp [next, hB, hE]
      rw [pairs_cons, pairs_cons, hemit, hnext, ih fun y hy => h y (List.mem_cons_of_mem _ hy)]

/-! ### The scanner without a phase -/

variable (isB isE) in
/-- What stands between the first opener and the first closer after it, and so on
behind that closer. -/
def groups (xs : List α) : List (List α) :=
  match _hB : xs.dropWhile fun x => !isB x with
  | [] => []
  | _ :: ys =>
      match _hE : ys.dropWhile fun y => !isE y with
      | [] => []
      | _ :: zs => (ys.takeWhile fun y => !isE y) :: groups zs
termination_by xs.length
decreasing_by
  have h₁ := (List.dropWhile_sublist (l := xs) fun x => !isB x).length_le
  have h₂ := (List.dropWhile_sublist (l := ys) fun y => !isE y).length_le
  rw [_hB, List.length_cons] at h₁
  rw [_hE, List.length_cons] at h₂
  omega

theorem groups_of_no_opener {xs : List α} (h : (xs.dropWhile fun x => !isB x) = []) :
    groups isB isE xs = [] := by
  rw [groups]
  split
  · rfl
  · next hB =>
      rw [h] at hB
      cases hB

theorem groups_of_no_closer {xs ys : List α} {b : α}
    (hB : (xs.dropWhile fun x => !isB x) = b :: ys) (hE : (ys.dropWhile fun y => !isE y) = []) :
    groups isB isE xs = [] := by
  rw [groups]
  split
  · rfl
  · next hB' =>
      obtain ⟨-, rfl⟩ := List.cons.inj (hB.symm.trans hB')
      split
      · rfl
      · next hE' =>
          rw [hE] at hE'
          cases hE'

theorem groups_cons {xs ys zs : List α} {b e : α}
    (hB : (xs.dropWhile fun x => !isB x) = b :: ys)
    (hE : (ys.dropWhile fun y => !isE y) = e :: zs) :
    groups isB isE xs = (ys.takeWhile fun y => !isE y) :: groups isB isE zs := by
  rw [groups]
  split
  · next hB' =>
      rw [hB] at hB'
      cases hB'
  · next hB' =>
      obtain ⟨-, rfl⟩ := List.cons.inj (hB.symm.trans hB')
      split
      · next hE' =>
          rw [hE] at hE'
          cases hE'
      · next hE' =>
          obtain ⟨-, rfl⟩ := List.cons.inj (hE.symm.trans hE')
          rfl

/-- A list cut at the first element that satisfies `p`. -/
theorem split_dropWhile {p : α → Bool} {xs ys : List α} {y : α}
    (h : (xs.dropWhile fun x => !p x) = y :: ys) :
    xs = (xs.takeWhile fun x => !p x) ++ y :: ys ∧ p y = true ∧
      ∀ x ∈ xs.takeWhile (fun x => !p x), p x = false := by
  refine ⟨?_, ?_, fun x hx => by simpa using List.mem_takeWhile_imp hx⟩
  · rw [← h, List.takeWhile_append_dropWhile]
  · have := List.head?_dropWhile_not (fun x => !p x) xs
    simpa [h] using this

/-- **The scanner finds the groups**, when `f` tells what stands between two
positions of the list. -/
theorem map_pairs_eq_groups {f : α → α → List α} (pre : List α) {xs : List α}
    (hf : ∀ us x vs y ws, pre ++ xs = us ++ x :: (vs ++ y :: ws) → f x y = vs) :
    (pairs isB isE none xs).map (fun p => f p.1 p.2) = groups isB isE xs := by
  induction xs using groups.induct isB isE generalizing pre with
  | case1 xs hB =>
      have hno : ∀ x ∈ xs, isB x = false := by simpa [List.dropWhile_eq_nil_iff] using hB
      rw [pairs_of_no_opener hno, groups_of_no_opener hB]
      rfl
  | case2 xs b ys hB hE =>
      obtain ⟨hxs, hb, hopen⟩ := split_dropWhile hB
      have hno : ∀ y ∈ ys, isE y = false := by simpa [List.dropWhile_eq_nil_iff] using hE
      rw [groups_of_no_closer hB hE, hxs, pairs_first_opener hopen hb, pairs_of_no_closer hno]
      rfl
  | case3 xs b ys hB e zs hE ih =>
      obtain ⟨hxs, hb, hopen⟩ := split_dropWhile hB
      obtain ⟨hys, he, hclose⟩ := split_dropWhile hE
      rw [groups_cons hB hE]
      generalize (xs.takeWhile fun x => !isB x) = us at hxs hopen
      generalize (ys.takeWhile fun y => !isE y) = vs at hys hclose ⊢
      subst hxs hys
      rw [pairs_first_opener hopen hb, pairs_first_closer hclose he, List.map_cons,
        hf (pre ++ us) b vs e zs (List.append_assoc _ _ _).symm,
        ih (pre ++ us ++ b :: (vs ++ [e])) fun us' x vs' y ws h =>
          hf us' x vs' y ws (by rw [← h]; simp)]

/-- The groups stand in the list, in order and apart. -/
theorem groups_flatten_sublist (xs : List α) : (groups isB isE xs).flatten.Sublist xs := by
  induction xs using groups.induct isB isE with
  | case1 xs hB => simp [groups_of_no_opener hB]
  | case2 xs b ys hB hE => simp [groups_of_no_closer hB hE]
  | case3 xs b ys hB e zs hE ih =>
      obtain ⟨hxs, -, -⟩ := split_dropWhile hB
      obtain ⟨hys, -, -⟩ := split_dropWhile hE
      rw [groups_cons hB hE, List.flatten_cons]
      have hsub : ((ys.takeWhile fun y => !isE y) ++ (groups isB isE zs).flatten).Sublist ys := by
        conv_rhs => rw [hys]
        exact (List.Sublist.refl _).append (ih.cons e)
      rw [hxs]
      exact (hsub.cons b).trans (List.sublist_append_right _ _)

/-- The groups of a list of images are the images of the groups. -/
theorem groups_map {β : Type*} (f : β → α) (xs : List β) :
    groups isB isE (xs.map f)
      = (groups (fun x => isB (f x)) (fun x => isE (f x)) xs).map (List.map f) := by
  have hdrop (p : α → Bool) (ys : List β) :
      ((ys.map f).dropWhile fun x => !p x) = (ys.dropWhile fun x => !p (f x)).map f :=
    List.dropWhile_map ..
  induction xs using groups.induct (fun x => isB (f x)) (fun x => isE (f x)) with
  | case1 xs hB =>
      rw [groups_of_no_opener hB, groups_of_no_opener (by rw [hdrop, hB, List.map_nil])]
      rfl
  | case2 xs b ys hB hE =>
      have hB' : ((xs.map f).dropWhile fun x => !isB x) = f b :: ys.map f := by
        rw [hdrop, hB, List.map_cons]
      rw [groups_of_no_closer hB hE, groups_of_no_closer hB' (by rw [hdrop, hE, List.map_nil])]
      rfl
  | case3 xs b ys hB e zs hE ih =>
      have hB' : ((xs.map f).dropWhile fun x => !isB x) = f b :: ys.map f := by
        rw [hdrop, hB, List.map_cons]
      have hE' : ((ys.map f).dropWhile fun x => !isE x) = f e :: zs.map f := by
        rw [hdrop, hE, List.map_cons]
      rw [groups_cons hB hE, groups_cons hB' hE', ih, List.map_cons]
      congr 1
      exact List.takeWhile_map ..

/-! ### Single symbols -/

variable (isE) in
/-- What has been read since the last closer, the latest symbol first. -/
def sinceCloser (xs : List α) : List α := xs.reverse.takeWhile fun x => !isE x

theorem sinceCloser_concat (xs : List α) (x : α) :
    sinceCloser isE (xs ++ [x]) = if isE x then [] else x :: sinceCloser isE xs := by
  unfold sinceCloser
  rw [List.reverse_append, List.reverse_singleton, List.singleton_append, List.takeWhile_cons]
  by_cases hx : isE x <;> simp [hx]

/-- The positions before `k` from which on no closer has been read. -/
theorem mem_sinceCloser_take_iff {xs : List α} {k : ℕ} {x : α} :
    x ∈ sinceCloser isE (xs.take k) ↔ ∃ i < k, xs[i]? = some x ∧
      ∀ j < k, i ≤ j → ∀ y, xs[j]? = some y → isE y = false := by
  induction k with
  | zero => simp [sinceCloser]
  | succ k ih =>
      rw [List.take_add_one]
      rcases e : xs[k]? with - | y
      · rw [Option.toList_none, List.append_nil, ih]
        constructor
        · rintro ⟨i, hi, hx, hno⟩
          refine ⟨i, by omega, hx, fun j hj hij z hz => ?_⟩
          rcases Nat.lt_succ_iff_lt_or_eq.mp hj with hj | rfl
          · exact hno j hj hij z hz
          · rw [e] at hz
            cases hz
        · rintro ⟨i, hi, hx, hno⟩
          rcases Nat.lt_succ_iff_lt_or_eq.mp hi with hi | rfl
          · exact ⟨i, hi, hx, fun j hj => hno j (by omega)⟩
          · rw [e] at hx
            cases hx
      · rw [Option.toList_some, sinceCloser_concat]
        by_cases hy : isE y
        · rw [if_pos hy]
          refine ⟨fun h => absurd h List.not_mem_nil, ?_⟩
          rintro ⟨i, hi, -, hno⟩
          rw [hno k (by omega) (by omega) y e] at hy
          cases hy
        · rw [if_neg hy, List.mem_cons, ih]
          constructor
          · rintro (rfl | ⟨i, hi, hx, hno⟩)
            · refine ⟨k, by omega, e, fun j hj hij z hz => ?_⟩
              obtain rfl : j = k := by omega
              obtain rfl := Option.some.inj (e.symm.trans hz)
              exact Bool.eq_false_iff.mpr hy
            · refine ⟨i, by omega, hx, fun j hj hij z hz => ?_⟩
              rcases Nat.lt_succ_iff_lt_or_eq.mp hj with hj | rfl
              · exact hno j hj hij z hz
              · obtain rfl := Option.some.inj (e.symm.trans hz)
                exact Bool.eq_false_iff.mpr hy
          · rintro ⟨i, hi, hx, hno⟩
            rcases Nat.lt_succ_iff_lt_or_eq.mp hi with hi | rfl
            · exact Or.inr ⟨i, hi, hx, fun j hj => hno j (by omega)⟩
            · exact Or.inl (Option.some.inj (hx.symm.trans e))

/-- Leaving out symbols that are no closers. -/
theorem sinceCloser_filter {p : α → Bool} {xs : List α} (hp : ∀ x ∈ xs, isE x = true → p x = true) :
    sinceCloser isE (xs.filter p) = (sinceCloser isE xs).filter p := by
  induction xs using List.reverseRecOn with
  | nil => rfl
  | append_singleton xs x ih =>
      have ih := ih fun y hy => hp y (List.mem_append_left _ hy)
      have hx := hp x (List.mem_append_right _ List.mem_cons_self)
      rw [List.filter_append, sinceCloser_concat]
      by_cases hkeep : p x
      · rw [List.filter_cons_of_pos hkeep, List.filter_nil, sinceCloser_concat, ih]
        split_ifs
        · rfl
        · rw [List.filter_cons_of_pos hkeep]
      · have hE : ¬ isE x = true := fun h => hkeep (hx h)
        rw [List.filter_cons_of_neg hkeep, List.filter_nil, List.append_nil, ih, if_neg hE,
          List.filter_cons_of_neg hkeep]

/-- When no symbol is both, the scanner is in the open phase exactly when it has met an opener
since the last closer. -/
theorem isSome_rest_iff {xs : List α} (hx : ∀ x ∈ xs, isB x = true → isE x = false) :
    (rest isB isE none xs).isSome ↔ ∃ b ∈ sinceCloser isE xs, isB b = true := by
  induction xs using List.reverseRecOn with
  | nil => simp [sinceCloser]
  | append_singleton xs x ih =>
      have ih := ih fun y hy => hx y (List.mem_append_left _ hy)
      have hlast := hx x (List.mem_append_right _ List.mem_cons_self)
      rw [rest_append, rest_cons, rest_nil, sinceCloser_concat]
      rcases e : rest isB isE none xs with - | y
      · rw [e] at ih
        by_cases hB : isB x
        · simp [next, hB, hlast hB]
        · by_cases hE : isE x
          · simp [next, hB, hE]
          · simpa [next, hB, hE] using ih
      · rw [e] at ih
        by_cases hE : isE x
        · simp [next, hE]
        · obtain ⟨b, hb, hB⟩ := ih.mp rfl
          simp only [next, hE, Bool.false_eq_true, if_false, Option.isSome_some, true_iff]
          exact ⟨b, List.mem_cons_of_mem _ hb, hB⟩

theorem rest_first_opener {b : α} {xs ys : List α} (hxs : ∀ x ∈ xs, isB x = false)
    (hb : isB b = true) :
    rest isB isE none (xs ++ b :: ys) = rest isB isE (some b) ys := by
  rw [rest_append, rest_of_no_opener hxs, rest_cons]
  simp [next, hb]

/-- A position in the open phase stands behind the first opener. -/
theorem open_split {b x : α} {pre ys us vs : List α} (hpre : ∀ y ∈ pre, isB y = false)
    (hsplit : pre ++ b :: ys = us ++ x :: vs)
    (hopen : (rest isB isE none us).isSome) :
    ∃ us', us = pre ++ b :: us' ∧ ys = us' ++ x :: vs := by
  have hclosed : ∀ {zs : List α}, (∀ y ∈ zs, isB y = false) →
      ¬ (rest isB isE none zs).isSome := by
    intro zs hzs h
    rw [rest_of_no_opener hzs] at h
    cases h
  rcases List.append_eq_append_iff.mp hsplit with ⟨cs, rfl, hcs⟩ | ⟨cs, rfl, hcs⟩
  · rcases cs with - | ⟨c, cs⟩
    · rw [List.append_nil] at hopen
      exact absurd hopen (hclosed hpre)
    · obtain ⟨rfl, rfl⟩ := List.cons.inj hcs
      exact ⟨cs, rfl, rfl⟩
  · exact absurd hopen (hclosed fun y hy => hpre y (List.mem_append_left _ hy))

/-- A symbol stands in a group when the scanner meets it in the open phase, it is no closer
itself, and a closer follows. -/
theorem mem_groups_iff {xs : List α} {x : α} :
    x ∈ (groups isB isE xs).flatten ↔ ∃ us vs, xs = us ++ x :: vs ∧
      (rest isB isE none us).isSome ∧ isE x = false ∧ ∃ e ∈ vs, isE e = true := by
  induction xs using groups.induct isB isE with
  | case1 xs hB =>
      have hno : ∀ x ∈ xs, isB x = false := by simpa [List.dropWhile_eq_nil_iff] using hB
      rw [groups_of_no_opener hB]
      refine ⟨fun h => absurd h List.not_mem_nil, ?_⟩
      rintro ⟨us, vs, rfl, hopen, -⟩
      rw [rest_of_no_opener fun y hy => hno y (List.mem_append_left _ hy)] at hopen
      cases hopen
  | case2 xs b ys hB hE =>
      obtain ⟨hxs, hb, hclosed⟩ := split_dropWhile hB
      have hno : ∀ y ∈ ys, isE y = false := by simpa [List.dropWhile_eq_nil_iff] using hE
      rw [groups_of_no_closer hB hE]
      generalize (xs.takeWhile fun x => !isB x) = pre at hxs hclosed
      refine ⟨fun h => absurd h List.not_mem_nil, ?_⟩
      rintro ⟨us, vs, hsplit, hopen, -, e, he, hEe⟩
      obtain ⟨us, rfl, rfl⟩ := open_split hclosed (hxs ▸ hsplit) hopen
      rw [hno e (by simp [he])] at hEe
      cases hEe
  | case3 xs b ys hB e zs hE ih =>
      obtain ⟨hxs, hb, hclosed⟩ := split_dropWhile hB
      obtain ⟨hys, he, hinner⟩ := split_dropWhile hE
      rw [groups_cons hB hE, List.flatten_cons, List.mem_append, ih]
      generalize (xs.takeWhile fun x => !isB x) = pre at hxs hclosed
      generalize (ys.takeWhile fun y => !isE y) = mid at hys hinner ⊢
      subst hxs hys
      constructor
      · rintro (hmid | ⟨us, vs, rfl, hopen, hx, hclose⟩)
        · obtain ⟨us, vs, rfl⟩ := List.append_of_mem hmid
          refine ⟨pre ++ b :: us, vs ++ e :: zs, by simp, ?_, hinner x hmid, e, by simp, he⟩
          rw [rest_first_opener hclosed hb,
            rest_of_no_closer fun y hy => hinner y (List.mem_append_left _ hy)]
          rfl
        · refine ⟨pre ++ b :: (mid ++ e :: us), vs, by simp, ?_, hx, hclose⟩
          rw [rest_first_opener hclosed hb, rest_first_closer hinner he]
          exact hopen
      · rintro ⟨us, vs, hsplit, hopen, hx, hclose⟩
        obtain ⟨us, rfl, hys⟩ := open_split hclosed hsplit hopen
        rw [rest_first_opener hclosed hb] at hopen
        rcases List.append_eq_append_iff.mp hys with ⟨cs, rfl, hcs⟩ | ⟨cs, rfl, hcs⟩
        · rcases cs with - | ⟨c, cs⟩
          · obtain ⟨rfl, rfl⟩ := List.cons.inj hcs
            rw [hx] at he
            cases he
          · obtain ⟨rfl, rfl⟩ := List.cons.inj hcs
            rw [rest_first_closer hinner he] at hopen
            exact Or.inr ⟨cs, vs, rfl, hopen, hx, hclose⟩
        · rcases cs with - | ⟨c, cs⟩
          · obtain ⟨rfl, rfl⟩ := List.cons.inj hcs
            rw [hx] at he
            cases he
          · obtain ⟨rfl, rfl⟩ := List.cons.inj hcs
            exact Or.inl (by simp)

/-! ### Where the pairs come from -/

/-- A pair consists of an opener and the first closer after it, or of the opener the
scanner started with and the first closer. -/
theorem mem_pairs_cases {q : Option α} {xs : List α} {p : α × α}
    (h : p ∈ pairs isB isE q xs) :
    isE p.2 = true ∧
      ((isB p.1 = true ∧ ∃ us vs ws, xs = us ++ p.1 :: (vs ++ p.2 :: ws) ∧
          ∀ v ∈ vs, isE v = false) ∨
        q = some p.1 ∧ ∃ vs ws, xs = vs ++ p.2 :: ws ∧ ∀ v ∈ vs, isE v = false) := by
  induction xs generalizing q with
  | nil => simp at h
  | cons x xs ih =>
      rw [pairs_cons, List.mem_append] at h
      rcases h with h | h
      · rcases q with - | y
        · simp [emit] at h
        · by_cases hx : isE x
          · obtain rfl : p = (y, x) := by simpa [emit, hx] using h
            exact ⟨hx, Or.inr ⟨rfl, [], xs, rfl, by simp⟩⟩
          · simp [emit, hx] at h
      · obtain ⟨hE, ⟨hB, us, vs, ws, rfl, hvs⟩ | ⟨hq, vs, ws, rfl, hvs⟩⟩ := ih h
        · exact ⟨hE, Or.inl ⟨hB, x :: us, vs, ws, rfl, hvs⟩⟩
        · rcases q with - | y
          · -- the opener is `x` itself
            by_cases hx : isB x
            · simp only [next, hx, if_true, Option.some.injEq] at hq
              subst hq
              exact ⟨hE, Or.inl ⟨hx, [], vs, ws, rfl, hvs⟩⟩
            · simp [next, hx] at hq
          · by_cases hx : isE x
            · simp [next, hx] at hq
            · simp only [next, hx, Bool.false_eq_true, if_false] at hq
              refine ⟨hE, Or.inr ⟨hq, x :: vs, ws, rfl, ?_⟩⟩
              simpa [hx] using hvs

theorem exists_of_mem_pairs {q : Option α} {xs : List α} {p : α × α}
    (h : p ∈ pairs isB isE q xs) :
    (∃ us vs ws, xs = us ++ p.1 :: (vs ++ p.2 :: ws)) ∨
      q = some p.1 ∧ ∃ vs ws, xs = vs ++ p.2 :: ws := by
  obtain ⟨-, ⟨-, us, vs, ws, hxs, -⟩ | ⟨hq, vs, ws, hxs, -⟩⟩ := mem_pairs_cases h
  · exact Or.inl ⟨us, vs, ws, hxs⟩
  · exact Or.inr ⟨hq, vs, ws, hxs⟩

/-- The opener that waits at the end is one of the list, or waited at the start. -/
theorem rest_eq_some {q : Option α} {xs : List α} {y : α} (h : rest isB isE q xs = some y) :
    q = some y ∨ y ∈ xs ∧ isB y = true := by
  induction xs generalizing q with
  | nil => exact Or.inl h
  | cons x xs ih =>
      rcases ih h with hq | ⟨hy, hB⟩
      · rcases q with - | z
        · by_cases hx : isB x
          · obtain rfl : x = y := by simpa [next, hx] using hq
            exact Or.inr ⟨List.mem_cons_self, hx⟩
          · simp [next, hx] at hq
        · by_cases hx : isE x
          · simp [next, hx] at hq
          · exact Or.inl (by simpa [next, hx] using hq)
      · exact Or.inr ⟨List.mem_cons_of_mem _ hy, hB⟩

/-- Every pair uses up an opener of its own. -/
theorem length_pairs_le (xs : List α) :
    (pairs isB isE none xs).length ≤ xs.countP isB ∧
      ∀ y, (pairs isB isE (some y) xs).length ≤ xs.countP isB + 1 := by
  induction xs with
  | nil => simp
  | cons x xs ih =>
      obtain ⟨hnone, hsome⟩ := ih
      refine ⟨?_, fun y => ?_⟩
      · rw [pairs_cons, List.countP_cons]
        by_cases hx : isB x
        · simpa [next, emit, hx] using hsome x
        · simpa [next, emit, hx] using hnone
      · rw [pairs_cons, List.countP_cons]
        have := hsome y
        by_cases hx : isE x
        · simp only [next, emit, hx, if_true, List.length_append, List.length_singleton]
          omega
        · simp only [next, emit, hx, Bool.false_eq_true, if_false, List.nil_append]
          omega

end Bracket

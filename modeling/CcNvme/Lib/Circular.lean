/-
CcNvme/Lib/Circular.lean

Circular indices.  A ring of `n` slots is walked by the C idiom

    for (m = a; m != stop; m = (m + 1) % n) body(m);

which is `loop` below: it carries fuel, because the idiom runs forever when
`stop` is not a slot of the ring.  `loop_eq_foldlM` says that between two
slots of the ring fuel `n` is enough and that the loop is the fold of its
body over `arc n a (dist n a stop)`, the slots from `a` up to `stop`.

The second half relates slots to *absolute* counters, which only ever grow:
the slot of the counter `i` is `i % n`, and inside a window shorter than `n`
counters and slots determine each other.
-/
import Mathlib.Data.List.Nodup
import Mathlib.Data.Nat.ModEq

namespace Circular

/-! ### Distances and arcs -/

/-- Number of steps from slot `a` to slot `b` going forward. -/
def dist (n a b : ℕ) : ℕ := (n + b - a) % n

/-- The `k` slots met when walking forward from `a`. -/
def arc (n : ℕ) : ℕ → ℕ → List ℕ
  | _, 0 => []
  | a, k + 1 => a :: arc n ((a + 1) % n) k

@[simp] theorem arc_zero (n a : ℕ) : arc n a 0 = [] := rfl

theorem arc_succ (n a k : ℕ) : arc n a (k + 1) = a :: arc n ((a + 1) % n) k := rfl

theorem dist_lt {n a b : ℕ} (hn : 0 < n) : dist n a b < n := Nat.mod_lt _ hn

@[simp] theorem dist_self (n a : ℕ) : dist n a a = 0 := by
  simp [dist]

/-- Inside the ring the distance is a plain difference, or wraps once. -/
theorem dist_eq {n a b : ℕ} (ha : a < n) (hb : b < n) :
    dist n a b = if a ≤ b then b - a else n + b - a := by
  unfold dist
  split_ifs with h
  · rw [show n + b - a = n + (b - a) by omega, Nat.add_mod_left, Nat.mod_eq_of_lt (by omega)]
  · exact Nat.mod_eq_of_lt (by omega)

theorem dist_eq_zero_iff {n a b : ℕ} (ha : a < n) (hb : b < n) :
    dist n a b = 0 ↔ a = b := by
  rw [dist_eq ha hb]
  split_ifs <;> omega

/-- The successor slot, without the remainder. -/
theorem succ_mod {n a : ℕ} (ha : a < n) :
    (a + 1) % n = if a + 1 = n then 0 else a + 1 := by
  split_ifs with h
  · rw [h, Nat.mod_self]
  · exact Nat.mod_eq_of_lt (by omega)

theorem succ_mod_lt {n a : ℕ} (ha : a < n) : (a + 1) % n < n :=
  Nat.mod_lt _ (by omega)

/-- One step forward shortens the distance by one. -/
theorem dist_succ {n a b : ℕ} (ha : a < n) (hb : b < n) (hab : a ≠ b) :
    dist n a b = dist n ((a + 1) % n) b + 1 := by
  rw [dist_eq ha hb, dist_eq (succ_mod_lt ha) hb, succ_mod ha]
  split_ifs <;> omega

/-! ### Loops over a ring -/

/-- `for (m = a; m != stop; m = (m + 1) % n) body`, with fuel. -/
def loop {σ : Type*} (n stop : ℕ) (body : ℕ → σ → Option σ) : ℕ → ℕ → σ → Option σ
  | 0, m, s => if m = stop then some s else none
  | fuel + 1, m, s =>
      if m = stop then some s
      else (body m s).bind (loop n stop body fuel ((m + 1) % n))

theorem loop_eq_foldlM_of_fuel {σ : Type*} {n stop : ℕ} (body : ℕ → σ → Option σ)
    (hstop : stop < n) :
    ∀ (fuel m : ℕ) (s : σ), m < n → dist n m stop ≤ fuel →
      loop n stop body fuel m s
        = (arc n m (dist n m stop)).foldlM (fun s m => body m s) s := by
  intro fuel
  induction fuel with
  | zero =>
      intro m s hm hd
      have hms : m = stop := (dist_eq_zero_iff hm hstop).mp (by omega)
      subst hms
      simp [loop]
  | succ fuel ih =>
      intro m s hm hd
      by_cases hms : m = stop
      · subst hms
        simp [loop]
      · -- one turn uses one unit of fuel and shortens the distance by one
        have hsucc := dist_succ hm hstop hms
        rw [hsucc, arc_succ, List.foldlM_cons]
        simp only [loop, if_neg hms]
        rcases e : body m s with - | s'
        · rfl
        · exact ih _ s' (succ_mod_lt hm) (by omega)

/-- Between two slots of the ring, fuel `n` suffices. -/
theorem loop_eq_foldlM {σ : Type*} {n stop a : ℕ} (body : ℕ → σ → Option σ) (s : σ)
    (ha : a < n) (hstop : stop < n) :
    loop n stop body n a s
      = (arc n a (dist n a stop)).foldlM (fun s m => body m s) s :=
  loop_eq_foldlM_of_fuel body hstop n a s ha (dist_lt (by omega)).le

/-- A loop whose body never fails is a fold. -/
theorem loop_eq_foldl {σ : Type*} {n stop a : ℕ} (f : ℕ → σ → σ) (s : σ)
    (ha : a < n) (hstop : stop < n) :
    loop n stop (fun m s => some (f m s)) n a s
      = some ((arc n a (dist n a stop)).foldl (fun s m => f m s) s) := by
  rw [loop_eq_foldlM _ _ ha hstop]
  exact List.foldlM_pure

/-! ### Absolute counters -/

theorem slot_succ (n i : ℕ) : (i % n + 1) % n = (i + 1) % n := Nat.mod_add_mod i n 1

/-- Walking from the slot of `i` visits the slots of `i`, `i + 1`, … -/
theorem arc_mod (n i k : ℕ) :
    arc n (i % n) k = (List.range k).map fun j => (i + j) % n := by
  induction k generalizing i with
  | zero => rfl
  | succ k ih =>
      rw [arc_succ, slot_succ, ih, List.range_succ_eq_map, List.map_cons, List.map_map]
      refine congrArg₂ _ rfl (List.map_congr_left fun j _ => ?_)
      exact congrArg (· % n) (by simp only [Nat.succ_eq_add_one]; omega)

/-- Arcs concatenate. -/
theorem arc_mod_add (n i j k : ℕ) :
    arc n (i % n) (j + k) = arc n (i % n) j ++ arc n ((i + j) % n) k := by
  simp only [arc_mod, List.range_add, List.map_append, List.map_map]
  refine congrArg _ (List.map_congr_left fun m _ => ?_)
  simp only [Function.comp_apply]
  exact congrArg (· % n) (by omega)

theorem mem_arc_mod {n i k x : ℕ} :
    x ∈ arc n (i % n) k ↔ ∃ j, i ≤ j ∧ j < i + k ∧ x = j % n := by
  rw [arc_mod, List.mem_map]
  constructor
  · rintro ⟨j, hj, rfl⟩
    exact ⟨i + j, by omega, by have := List.mem_range.mp hj; omega, rfl⟩
  · rintro ⟨j, h1, h2, rfl⟩
    exact ⟨j - i, List.mem_range.mpr (by omega), by rw [Nat.add_sub_cancel' h1]⟩

theorem mem_arc_lt {n a k x : ℕ} (ha : a < n) (hx : x ∈ arc n a k) : x < n := by
  rw [← Nat.mod_eq_of_lt ha] at hx
  obtain ⟨j, -, -, rfl⟩ := mem_arc_mod.mp hx
  exact Nat.mod_lt _ (by omega)

/-- Two counters of one window shorter than the ring share no slot. -/
theorem mod_inj_of_window {n h i j : ℕ} (hi : h ≤ i) (hin : i < h + n)
    (hj : h ≤ j) (hjn : j < h + n) (hij : i % n = j % n) : i = j := by
  rcases Nat.le_total i j with hle | hle
  · have hdvd : n ∣ j - i := (Nat.modEq_iff_dvd' hle).mp hij
    have := Nat.eq_zero_of_dvd_of_lt hdvd (by omega)
    omega
  · have hdvd : n ∣ i - j := (Nat.modEq_iff_dvd' hle).mp hij.symm
    have := Nat.eq_zero_of_dvd_of_lt hdvd (by omega)
    omega

/-- A window shorter than the ring is measured by the circular distance. -/
theorem dist_mod {n h t : ℕ} (hht : h ≤ t) (hlt : t < h + n) :
    dist n (h % n) (t % n) = t - h := by
  have hn : 0 < n := by omega
  have hh := Nat.mod_lt h hn
  obtain ⟨d, rfl⟩ := Nat.exists_eq_add_of_le hht
  have hsum : (h + d) % n = if h % n + d < n then h % n + d else h % n + d - n := by
    rw [← Nat.mod_add_mod]
    split_ifs with hc
    · exact Nat.mod_eq_of_lt hc
    · rw [Nat.mod_eq_sub_mod (by omega), Nat.mod_eq_of_lt (by omega)]
  rw [dist_eq hh (Nat.mod_lt _ hn), hsum]
  split_ifs <;> omega

/-- The distance between the slots of two counters, however far apart. -/
theorem dist_mod_of_le {n h t : ℕ} (hn : 0 < n) (hht : h ≤ t) :
    dist n (h % n) (t % n) = (t - h) % n := by
  have hr := Nat.mod_lt (t - h) hn
  have ht : t % n = (h + (t - h) % n) % n := by
    rw [Nat.add_mod_mod, Nat.add_sub_cancel' hht]
  rw [ht, dist_mod (Nat.le_add_right _ _) (by omega), Nat.add_sub_cancel_left]

theorem length_arc (n a k : ℕ) : (arc n a k).length = k := by
  induction k generalizing a with
  | zero => rfl
  | succ k ih => rw [arc_succ, List.length_cons, ih]

/-- The two parts of an arc are arcs. -/
theorem arc_eq_append {n i k : ℕ} {xs ys : List ℕ} (h : arc n (i % n) k = xs ++ ys) :
    xs = arc n (i % n) xs.length ∧ ys = arc n ((i + xs.length) % n) ys.length := by
  have hk : k = xs.length + ys.length := by
    rw [← length_arc n (i % n) k, h, List.length_append]
  rw [hk, arc_mod_add] at h
  obtain ⟨hxs, hys⟩ := List.append_inj h (length_arc _ _ _)
  exact ⟨hxs.symm, hys.symm⟩

/-- Of two slots of an arc, the second is reached from the first by passing what
stands between them. -/
theorem arc_pair {n a k x y : ℕ} {us vs ws : List ℕ} (ha : a < n)
    (h : arc n a k = us ++ x :: (vs ++ y :: ws)) :
    vs = arc n ((x + 1) % n) vs.length ∧ y = (x + (vs.length + 1)) % n := by
  rw [← Nat.mod_eq_of_lt ha] at h
  have hx := (arc_eq_append h).2
  rw [List.length_cons, arc_succ, List.cons_eq_cons, slot_succ] at hx
  obtain ⟨hvs, hy⟩ := arc_eq_append hx.2.symm
  rw [List.length_cons, arc_succ, List.cons_eq_cons] at hy
  rw [hx.1, slot_succ, hy.1, Nat.mod_add_mod]
  exact ⟨hvs, congrArg (· % n) (by omega)⟩

/-- Of an arc, the part strictly between two of its slots is an arc again. -/
theorem arc_between {n a k x y : ℕ} {us vs ws : List ℕ} (ha : a < n) (hk : k ≤ n)
    (h : arc n a k = us ++ x :: (vs ++ y :: ws)) :
    arc n ((x + 1) % n) (dist n ((x + 1) % n) y) = vs := by
  have hlen : vs.length + 2 ≤ k := by
    rw [← length_arc n a k, h]
    simp only [List.length_append, List.length_cons]
    omega
  obtain ⟨hvs, hy⟩ := arc_pair ha h
  rw [hy, dist_mod (by omega) (by omega), show x + (vs.length + 1) - (x + 1) = vs.length by omega,
    ← hvs]

theorem nodup_arc {n a k : ℕ} (ha : a < n) (hk : k ≤ n) : (arc n a k).Nodup := by
  rw [← Nat.mod_eq_of_lt ha, arc_mod]
  refine List.Nodup.map_on ?_ List.nodup_range
  intro x hx y hy hxy
  have hx' := List.mem_range.mp hx
  have hy' := List.mem_range.mp hy
  have := mod_inj_of_window (h := a) (Nat.le_add_right a x) (by omega)
    (Nat.le_add_right a y) (by omega) hxy
  omega

end Circular

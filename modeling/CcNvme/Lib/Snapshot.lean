/-
CcNvme/Lib/Snapshot.lean

Snapshots that are taken slot by slot while the slots go on changing.  A device that reads a
buffer, or a `memcpy` out of it, sees one slot now and another later.  `x j = some v` says that
slot `j` has been taken when it had the version `v`, `x j = none` that it has not been taken yet.

`floor d x j` is what the snapshot is sure to have of slot `j` if the slots are at `d` now and
only go up: the version taken, or else the present one.  Taking a slot does not change it, and
it never goes down.
-/
import Mathlib.Order.Basic
import Mathlib.Logic.Function.Basic

namespace Snapshot

variable {ι V : Type*}

/-- What the snapshot `x` is sure to have of a slot while the slots are at `d`. -/
def floor (d : ι → V) (x : ι → Option V) (j : ι) : V := (x j).getD (d j)

theorem floor_of_none {d : ι → V} {x : ι → Option V} {j : ι} (h : x j = none) :
    floor d x j = d j := by
  rw [floor, h, Option.getD_none]

theorem floor_of_some {d : ι → V} {x : ι → Option V} {j : ι} {v : V} (h : x j = some v) :
    floor d x j = v := by
  rw [floor, h, Option.getD_some]

/-- A slot is taken as it is now. -/
def take [DecidableEq ι] (d : ι → V) (x : ι → Option V) (j : ι) : ι → Option V :=
  Function.update x j (some (d j))

section Take

variable [DecidableEq ι] {d : ι → V} {x : ι → Option V} {j i : ι}

theorem take_self : take d x j j = some (d j) := Function.update_self j _ x

theorem take_of_ne (h : i ≠ j) : take d x j i = x i := Function.update_of_ne h _ x

/-- **Taking a slot changes nothing** for what the snapshot is sure to have. -/
theorem floor_take (h : x j = none) : floor d (take d x j) = floor d x := by
  funext i
  by_cases hi : i = j
  · subst hi
    rw [floor_of_some take_self, floor_of_none h]
  · show (take d x j i).getD (d i) = (x i).getD (d i)
    rw [take_of_ne hi]

theorem isSome_take (h : (x i).isSome) : (take d x j i).isSome := by
  by_cases hi : i = j
  · subst hi
    rw [take_self, Option.isSome_some]
  · rwa [take_of_ne hi]

end Take

section Order

variable [Preorder V] {d d' : ι → V} {x : ι → Option V}

/-- Nothing has been taken that is newer than the slots are. -/
def Bounded (d : ι → V) (x : ι → Option V) : Prop := ∀ j v, x j = some v → v ≤ d j

theorem bounded_none (d : ι → V) : Bounded d fun _ => none := by
  intro j v h
  cases h

theorem Bounded.mono (h : Bounded d x) (hd : ∀ j, d j ≤ d' j) : Bounded d' x :=
  fun j v hv => (h j v hv).trans (hd j)

theorem Bounded.take [DecidableEq ι] (h : Bounded d x) (j : ι) : Bounded d (take d x j) := by
  intro i v hv
  by_cases hi : i = j
  · subst hi
    rw [take_self] at hv
    exact (Option.some.inj hv).ge
  · rw [take_of_ne hi] at hv
    exact h i v hv

theorem Bounded.floor_le (h : Bounded d x) (j : ι) : floor d x j ≤ d j := by
  rcases hx : x j with - | v
  · rw [floor_of_none hx]
  · rw [floor_of_some hx]
    exact h j v hx

/-- **The floor never goes down.** -/
theorem floor_mono (x : ι → Option V) {j : ι} (hd : d j ≤ d' j) : floor d x j ≤ floor d' x j := by
  rcases hx : x j with - | v
  · rw [floor_of_none hx, floor_of_none hx]
    exact hd
  · rw [floor_of_some hx, floor_of_some hx]

end Order

end Snapshot

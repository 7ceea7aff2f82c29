/-
CcNvme/Lib/Custody.lean

What a piece of code takes, it gives back.  A trace lists what is taken and released, in
order; `after held us` is what is held behind the trace `us`, with multiplicity, and there is
no such thing when something is released that is not held.  A trace is `Settled` when it can
start with nothing held and ends with nothing held: everything taken has been released
exactly once, and nothing else.

`after_frame` lets a part of a trace be looked at with only what it uses, so that a settled
trace leaves whatever was held before it (`Settled.after_eq`); `after_takes` and
`after_releases` are the two sides of a list of resources that one part takes and another
gives back.
-/
import CcNvme.Lib.Run
import Mathlib.Data.Multiset.AddSub

namespace Custody

variable {ρ : Type*}

inductive Use (ρ : Type*) where
  | take (r : ρ)
  | release (r : ρ)
  deriving DecidableEq

variable [DecidableEq ρ]

def Use.step (held : Multiset ρ) : Use ρ → Option (Multiset ρ)
  | .take r => some (r ::ₘ held)
  | .release r => if r ∈ held then some (held.erase r) else none

/-- What is held behind the trace. -/
def after (held : Multiset ρ) (us : List (Use ρ)) : Option (Multiset ρ) := Run.run Use.step held us

/-- Everything that is taken is released once, and nothing is released that is not held. -/
def Settled (us : List (Use ρ)) : Prop := after 0 us = some 0

instance decidableSettled (us : List (Use ρ)) : Decidable (Settled us) :=
  inferInstanceAs (Decidable (after 0 us = some 0))

@[simp] theorem after_nil (held : Multiset ρ) : after held [] = some held := rfl

@[simp] theorem after_take (held : Multiset ρ) (r : ρ) (us : List (Use ρ)) :
    after held (.take r :: us) = after (r ::ₘ held) us := by
  unfold after
  rw [Run.run_cons]
  rfl

/-- A release of something held. -/
@[simp] theorem after_release (held : Multiset ρ) (r : ρ) (us : List (Use ρ)) :
    after (r ::ₘ held) (.release r :: us) = after held us := by
  unfold after
  rw [Run.run_cons, Use.step, if_pos (Multiset.mem_cons_self r held), Multiset.erase_cons_head]
  rfl

theorem after_append (held : Multiset ρ) (us vs : List (Use ρ)) :
    after held (us ++ vs) = (after held us).bind fun held' => after held' vs :=
  Run.run_append Use.step held us vs

theorem after_append_of {held held' : Multiset ρ} {us : List (Use ρ)}
    (h : after held us = some held') (vs : List (Use ρ)) :
    after held (us ++ vs) = after held' vs := by
  rw [after_append, h, Option.bind_some]

/-- **Frame rule.**  What a trace does not use does not matter to it. -/
theorem after_frame {held held' : Multiset ρ} {us : List (Use ρ)}
    (h : after held us = some held') (other : Multiset ρ) :
    after (held + other) us = some (held' + other) := by
  induction us generalizing held with
  | nil =>
      obtain rfl := Option.some.inj h
      rfl
  | cons u us ih =>
      cases u with
      | take r =>
          rw [after_take] at h ⊢
          rw [← Multiset.cons_add]
          exact ih h
      | release r =>
          obtain ⟨held₁, hstep, hrest⟩ := Run.run_cons_eq_some.mp h
          rw [Use.step] at hstep
          split_ifs at hstep with hmem
          obtain rfl := Option.some.inj hstep
          -- what is held is `r` and the rest
          rw [← Multiset.cons_erase hmem, Multiset.cons_add, after_release]
          exact ih hrest

/-- A settled trace leaves what was held before it. -/
theorem Settled.after_eq {us : List (Use ρ)} (h : Settled us) (held : Multiset ρ) :
    after held us = some held := by
  have hframe := after_frame h held
  rwa [Multiset.zero_add] at hframe

theorem after_takes (held : Multiset ρ) (rs : List ρ) :
    after held (rs.map Use.take) = some ((rs : Multiset ρ) + held) := by
  induction rs generalizing held with
  | nil => simp
  | cons r rs ih =>
      rw [List.map_cons, after_take, ih, ← Multiset.cons_coe, Multiset.cons_add,
        Multiset.add_cons]

theorem after_releases (held : Multiset ρ) (rs : List ρ) :
    after ((rs : Multiset ρ) + held) (rs.map Use.release) = some held := by
  induction rs with
  | nil => simp
  | cons r rs ih =>
      rw [List.map_cons, ← Multiset.cons_coe, Multiset.cons_add, after_release]
      exact ih

end Custody

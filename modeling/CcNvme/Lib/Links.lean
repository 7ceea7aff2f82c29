/-
CcNvme/Lib/Links.lean

Singly linked lists in a table of nodes.  `Links link h l` says that the nodes reached from the
pointer `h` by following `link` are those of `l`.

A node is put in front by an exchange with the head pointer; the pointer that the exchange
returns is stored in the node afterwards.  From the exchange on, the successor of the node is
known, whether it has been stored or not; `link` is that successor, so the list is the same
before and after the store (`Links.congr`).  `walk` follows what is stored; when every node has
its successor stored, it visits the nodes of the list (`Links.walk_eq`).
-/
import Mathlib.Data.List.Nodup

variable {ν : Type*}

/-- The nodes reached from `h` are those of `l`. -/
def Links (link : ν → Option ν) : Option ν → List ν → Prop
  | h, [] => h = none
  | h, b :: l => h = some b ∧ Links link (link b) l

namespace Links

variable {link link' : ν → Option ν} {h : Option ν} {l : List ν} {b : ν}

/-- A list depends on the successors of its nodes only. -/
theorem congr (hl : Links link h l) (heq : ∀ c ∈ l, link' c = link c) : Links link' h l := by
  induction l generalizing h with
  | nil => exact hl
  | cons c l ih =>
      refine ⟨hl.1, ?_⟩
      rw [heq c List.mem_cons_self]
      exact ih hl.2 fun d hd => heq d (List.mem_cons_of_mem c hd)

/-- The exchange puts a node in front. -/
theorem push (hl : Links link h l) (hb : link' b = h) (heq : ∀ c ∈ l, link' c = link c) :
    Links link' (some b) (b :: l) := by
  refine ⟨rfl, ?_⟩
  rw [hb]
  exact hl.congr heq

/-- Follow the stored successors; `none` if a node has none stored or `fuel` runs out. -/
def walk (next : ν → Option (Option ν)) : ℕ → Option ν → Option (List ν)
  | _, none => some []
  | 0, some _ => none
  | fuel + 1, some b => (next b).bind fun h => (walk next fuel h).map (b :: ·)

/-- When the successors are stored, the walk visits the list. -/
theorem walk_eq {next : ν → Option (Option ν)} (hl : Links link h l)
    (hnext : ∀ c ∈ l, next c = some (link c)) {fuel : ℕ} (hfuel : l.length ≤ fuel) :
    walk next fuel h = some l := by
  induction l generalizing h fuel with
  | nil =>
      obtain rfl : h = none := hl
      cases fuel <;> rfl
  | cons c l ih =>
      obtain ⟨rfl, hl⟩ := hl
      cases fuel with
      | zero => simp at hfuel
      | succ fuel =>
          have hrest := ih hl (fun d hd => hnext d (List.mem_cons_of_mem c hd))
            (Nat.le_of_succ_le_succ hfuel)
          rw [walk, hnext c List.mem_cons_self, Option.bind_some, hrest]
          rfl

end Links

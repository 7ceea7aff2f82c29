/-
CcNvme/MappingBuffers.lean

The metadata buffers of an inode.  A buffer has one link, `b_assoc_buffers`, by which it is
on `private_list`, on `fsmeta_pending_list` or on no list; `b_assoc_map` is set while it is
on one.  `mark_buffer_dirty_inode` relies on this: it queues a buffer only when
`b_assoc_map` is NULL.

The operations on the lists and on the bits of a buffer are here, and what they keep.  The
passes that use them are in `BufferPasses`, with other threads in between, and the calls of
`ext4_atomic_file` in `AtomicFile`.
-/
import Mathlib.Data.List.Nodup
import Mathlib.Logic.Function.Basic
import Mathlib.Tactic.Common

namespace CcNvme

/-! ### The buffers -/

/-- Who holds the lock of a buffer. -/
inductive BufferLock where
  | free
  /-- the submit pass, between `lock_buffer` and `test_clear_buffer_dirty` -/
  | owned
  /-- the write in flight -/
  | inFlight
  deriving DecidableEq

structure MappingBuffers where
  dirty : ℕ → Bool
  lock : ℕ → BufferLock
  uptodate : ℕ → Bool
  /-- `b_assoc_map` is set -/
  assoc : ℕ → Bool
  /-- how often the contents have changed -/
  version : ℕ → ℕ
  privateList : List ℕ
  /-- `fsmeta_pending_list` -/
  pendingList : List ℕ

namespace MappingBuffers

def locked (m : MappingBuffers) (b : ℕ) : Bool := m.lock b ≠ .free

/-- `__remove_assoc_queue`: the buffer is taken off the list it is on. -/
def removeAssocQueue (m : MappingBuffers) (b : ℕ) : MappingBuffers :=
  { m with
    assoc := Function.update m.assoc b false
    privateList := m.privateList.erase b
    pendingList := m.pendingList.erase b }

def addPending (m : MappingBuffers) (b : ℕ) : MappingBuffers :=
  { m with
    assoc := Function.update m.assoc b true
    pendingList := b :: m.pendingList }

def addPrivate (m : MappingBuffers) (b : ℕ) : MappingBuffers :=
  { m with
    assoc := Function.update m.assoc b true
    privateList := b :: m.privateList }

/-- `list_move_tail` to `private_list`, from whatever list the buffer is on -/
def moveTail (m : MappingBuffers) (b : ℕ) : MappingBuffers :=
  { m with
    assoc := Function.update m.assoc b true
    privateList := m.privateList.erase b ++ [b]
    pendingList := m.pendingList.erase b }

/-- The contents change, and `mark_buffer_dirty`. -/
def markDirty (m : MappingBuffers) (b : ℕ) : MappingBuffers :=
  { m with
    dirty := Function.update m.dirty b true
    version := Function.update m.version b (m.version b + 1) }

def setLock (m : MappingBuffers) (b : ℕ) (l : BufferLock) : MappingBuffers :=
  { m with lock := Function.update m.lock b l }

/-- `test_clear_buffer_dirty` succeeds, and the buffer is written. -/
def startWrite (m : MappingBuffers) (b : ℕ) : MappingBuffers :=
  { m with
    dirty := Function.update m.dirty b false
    lock := Function.update m.lock b .inFlight }

/-- `end_buffer_write_sync` -/
def endWrite (m : MappingBuffers) (b : ℕ) (uptodate : Bool) : MappingBuffers :=
  { m with
    lock := Function.update m.lock b .free
    uptodate := Function.update m.uptodate b uptodate }

end MappingBuffers

/-! ### The lists -/

/-- Every buffer is on one list at most, and `b_assoc_map` says whether it is on one. -/
structure MappingBuffers.Listed (m : MappingBuffers) : Prop where
  nodup : (m.privateList ++ m.pendingList).Nodup
  assoc : ∀ b, m.assoc b = true ↔ b ∈ m.privateList ∨ b ∈ m.pendingList

/-- And every dirty buffer is on one. -/
structure MappingBuffers.Settled (m : MappingBuffers) : Prop extends m.Listed where
  queued : ∀ b, m.dirty b = true → m.assoc b = true

namespace MappingBuffers.Listed

variable {m : MappingBuffers} {b : ℕ}

theorem not_mem (h : m.Listed) (hb : m.assoc b = false) :
    b ∉ m.privateList ++ m.pendingList := by
  rw [List.mem_append, ← h.assoc b, hb]
  exact Bool.false_ne_true

theorem nodup_erase (h : m.Listed) (b : ℕ) :
    (m.privateList.erase b ++ m.pendingList.erase b).Nodup :=
  h.nodup.sublist (List.Sublist.append List.erase_sublist List.erase_sublist)

theorem mem_erase_iff (h : m.Listed) {x : ℕ} :
    x ∈ m.privateList.erase b ++ m.pendingList.erase b ↔
      x ≠ b ∧ x ∈ m.privateList ++ m.pendingList := by
  obtain ⟨h₁, h₂, -⟩ := List.nodup_append.mp h.nodup
  rw [List.mem_append, List.mem_append, h₁.mem_erase_iff, h₂.mem_erase_iff, ← and_or_left]

theorem removeAssocQueue (h : m.Listed) (b : ℕ) : (m.removeAssocQueue b).Listed := by
  refine ⟨h.nodup_erase b, fun x => ?_⟩
  show Function.update m.assoc b false x = true ↔
    x ∈ m.privateList.erase b ∨ x ∈ m.pendingList.erase b
  rw [← List.mem_append, h.mem_erase_iff, List.mem_append, ← h.assoc x]
  by_cases hx : x = b
  · simp [hx]
  · simp [hx]

theorem addPending (h : m.Listed) (hb : m.assoc b = false) : (m.addPending b).Listed := by
  refine ⟨List.nodup_middle.mpr (List.nodup_cons.mpr ⟨h.not_mem hb, h.nodup⟩), fun x => ?_⟩
  show Function.update m.assoc b true x = true ↔ x ∈ m.privateList ∨ x ∈ b :: m.pendingList
  by_cases hx : x = b
  · simp [hx]
  · simp [hx, h.assoc x]

theorem addPrivate (h : m.Listed) (hb : m.assoc b = false) : (m.addPrivate b).Listed := by
  refine ⟨List.nodup_cons.mpr ⟨h.not_mem hb, h.nodup⟩, fun x => ?_⟩
  show Function.update m.assoc b true x = true ↔ x ∈ b :: m.privateList ∨ x ∈ m.pendingList
  by_cases hx : x = b
  · simp [hx]
  · simp [hx, h.assoc x]

theorem moveTail (h : m.Listed) (b : ℕ) : (m.moveTail b).Listed := by
  refine ⟨?_, fun x => ?_⟩
  · show (m.privateList.erase b ++ [b] ++ m.pendingList.erase b).Nodup
    rw [List.append_assoc]
    refine List.nodup_middle.mpr (List.nodup_cons.mpr ⟨fun hb => ?_, h.nodup_erase b⟩)
    exact (h.mem_erase_iff.mp hb).1 rfl
  · show Function.update m.assoc b true x = true ↔
      x ∈ m.privateList.erase b ++ [b] ∨ x ∈ m.pendingList.erase b
    by_cases hx : x = b
    · simp [hx]
    · simp [hx, h.assoc x]

end MappingBuffers.Listed

end CcNvme

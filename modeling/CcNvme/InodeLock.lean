/-
CcNvme/InodeLock.lean

The lock of the inode in `ext4_sync_file` and `ext4_atomic_file`.  It is taken in
`__generic_file_atomic_write_submit`, behind the submission of the data and its error return,
and released in `__generic_file_atomic_write_wait` or `__generic_file_atomic_write_wait_nodata`,
which the callers run whatever the submission has returned.

The functions are those of `SyncErrors` with the uses of the lock (`ext4SyncFile_erase`).  An
error of the data makes the call release a lock that it has not taken:
`inode_lock_balanced_iff`.
-/
import CcNvme.Lib.Custody
import CcNvme.SyncErrors

namespace CcNvme

namespace InodeLock

open Custody

/-! ### The functions -/

/-- The steps of a call, and its uses of the inode's lock. -/
abbrev LockM := StateT (List (Use Unit)) SyncM

def inodeLock : LockM Unit := modify (· ++ [Use.take ()])

def inodeUnlock : LockM Unit := modify (· ++ [Use.release ()])

def genericFileAtomicWriteSubmit (f : SyncResults) (datasync : Bool) : LockM ℤ := do
  let mut err ← fileTagStreamwriteRange f
  if err ≠ 0 then return err
  inodeLock
  let mut ret ← report .buffers f.buffers
  if f.writesInode datasync then
    err ← report .inode f.inode
    if ret = 0 then ret := err
  mappingSetError f.wbMeta
  err ← fileCheckAndAdvanceWbErr
  if ret = 0 then ret := err
  if err ≠ 0 then ret := err
  return ret

def genericFileAtomicWriteWaitNodata : LockM ℤ := do
  inodeUnlock
  return 0

def genericFileAtomicWriteWait (f : SyncResults) : LockM ℤ := do
  let mut ret ← report .waitInode f.waitInode
  let mut err ← report .waitBuffers f.waitBuffers
  if ret = 0 then ret := err
  inodeUnlock
  mappingSetError f.wbWait
  err ← fileCheckAndAdvanceWbErr
  if ret = 0 then ret := err
  mappingSetError f.wbLate
  err ← fileCheckAndAdvanceWbErr
  if err ≠ 0 then return err
  return ret

def ext4SyncFile (f : SyncResults) (datasync : Bool) : LockM ℤ := do
  let mut waiting := []
  let mut syncParent := false
  let mut ret ← genericFileAtomicWriteSubmit f datasync
  if ret = 0 then
    (ret, waiting) ← mqfsAtomicWriteParentSubmit 0 f.parents
    syncParent := true
  let _ret1 ← report .commit f.commit
  ret ← genericFileAtomicWriteWait f
  if syncParent then
    ret ← mqfsAtomicWriteParentWait 0 waiting
  let _ ← report .descriptor f.descriptor
  if f.barrier then
    let _err ← report .flush f.flush
  return ret

/-- Nothing but the flush is waited for. -/
def ext4AtomicFile (f : SyncResults) (datasync : Bool) : LockM ℤ := do
  let mut ret ← genericFileAtomicWriteSubmit f datasync
  if ret = 0 then
    (ret, _) ← mqfsAtomicWriteParentSubmit 0 f.parents
  let _ret1 ← report .commit f.commit
  ret ← genericFileAtomicWriteWaitNodata
  if f.barrier then
    let _err ← report .flush f.flush
  return ret

/-! ### Runs -/

variable (f : SyncResults) (datasync : Bool) (wb : ℤ) (l : List (SyncStep × ℤ))
  (us : List (Use Unit))

/-- A function of `SyncErrors` does not use the lock. -/
theorem lift_bind_run {α β : Type} {x : SyncM α} {a : α} {st st' : SyncState}
    (hx : x.run st = pure (a, st')) (k : α → LockM β) :
    ((liftM x >>= k).run us).run st = ((k a).run us).run st' := by
  simp [hx]

theorem report_bind_run {α : Type} (s : SyncStep) (r : ℤ) (k : ℤ → LockM α) :
    ((liftM (report s r) >>= k).run us).run ⟨wb, l⟩
      = ((k r).run us).run ⟨wb, l ++ [(s, r)]⟩ :=
  lift_bind_run us (report_run wb l s r) k

theorem mappingSetError_bind_run {α : Type} (e : ℤ) (k : Unit → LockM α) :
    ((liftM (mappingSetError e) >>= k).run us).run ⟨wb, l⟩
      = ((k ()).run us).run ⟨latest wb e, l⟩ :=
  lift_bind_run us (mappingSetError_run wb l e) k

theorem fileCheckAndAdvanceWbErr_bind_run {α : Type} (k : ℤ → LockM α) :
    ((liftM fileCheckAndAdvanceWbErr >>= k).run us).run ⟨wb, l⟩
      = ((k wb).run us).run ⟨0, l ++ [(.wbErr, wb)]⟩ :=
  lift_bind_run us (fileCheckAndAdvanceWbErr_run wb l) k

theorem inodeLock_bind_run {α : Type} (k : Unit → LockM α) :
    ((inodeLock >>= k).run us).run ⟨wb, l⟩ = ((k ()).run (us ++ [Use.take ()])).run ⟨wb, l⟩ := rfl

theorem inodeUnlock_bind_run {α : Type} (k : Unit → LockM α) :
    ((inodeUnlock >>= k).run us).run ⟨wb, l⟩
      = ((k ()).run (us ++ [Use.release ()])).run ⟨wb, l⟩ := rfl

/-- The lock is taken when the data has been submitted. -/
def submitLocks : List (Use Unit) := if f.dataErr wb ≠ 0 then [] else [Use.take ()]

theorem genericFileAtomicWriteSubmit_run :
    ((genericFileAtomicWriteSubmit f datasync).run us).run ⟨wb, l⟩
      = pure ((f.submitErr datasync wb, us ++ submitLocks f wb),
          ⟨0, l ++ f.submitSteps datasync wb⟩) := by
  unfold genericFileAtomicWriteSubmit SyncResults.submitErr SyncResults.submitSteps
    SyncResults.metaErr SyncResults.metaSteps submitLocks
  rw [lift_bind_run us (fileTagStreamwriteRange_run f wb l)]
  by_cases hdata : f.dataErr wb = 0
  · by_cases hbuffers : f.buffers = 0 <;> by_cases hwb : f.wbMeta = 0 <;>
      by_cases hinode : f.inode = 0 <;> cases f.writesInode datasync <;>
      simp [-StateT.run_bind, inodeLock_bind_run, report_bind_run, mappingSetError_bind_run,
        fileCheckAndAdvanceWbErr_bind_run, hdata, hbuffers, hwb, hinode]
  · simp [hdata]

theorem genericFileAtomicWriteWait_run :
    ((genericFileAtomicWriteWait f).run us).run ⟨0, l⟩
      = pure ((f.waitErr, us ++ [Use.release ()]), ⟨0, l ++ f.waitSteps⟩) := by
  unfold genericFileAtomicWriteWait SyncResults.waitErr SyncResults.waitSteps
  by_cases hinode : f.waitInode = 0 <;> by_cases hbuffers : f.waitBuffers = 0 <;>
    by_cases hlate : f.wbLate = 0 <;>
    simp [-StateT.run_bind, inodeUnlock_bind_run, report_bind_run, mappingSetError_bind_run,
      fileCheckAndAdvanceWbErr_bind_run, hinode, hbuffers, hlate]

theorem genericFileAtomicWriteWaitNodata_run (st : SyncState) :
    (genericFileAtomicWriteWaitNodata.run us).run st = pure ((0, us ++ [Use.release ()]), st) := rfl

/-- The uses of the lock in either call. -/
def callLocks : List (Use Unit) := submitLocks f wb ++ [Use.release ()]

theorem ext4SyncFile_run :
    ((ext4SyncFile f datasync).run us).run ⟨wb, l⟩
      = pure ((f.syncErr datasync wb, us ++ callLocks f wb),
          ⟨0, l ++ f.syncSteps datasync wb⟩) := by
  unfold ext4SyncFile SyncResults.syncErr SyncResults.syncSteps callLocks
  rw [StateT.run_bind, StateT.run_bind, genericFileAtomicWriteSubmit_run, pure_bind]
  by_cases hsubmit : f.submitErr datasync wb = 0
  · obtain ⟨ret, hparents⟩ := mqfsAtomicWriteParentSubmit_run 0
      (l ++ f.submitSteps datasync wb) f.parents 0
    cases f.barrier <;> simp [hsubmit, hparents, genericFileAtomicWriteWait_run,
      mqfsAtomicWriteParentWait_run]
  · cases f.barrier <;> simp [hsubmit, genericFileAtomicWriteWait_run]

/-- Without the lock the call is that of `SyncErrors`. -/
theorem ext4SyncFile_erase :
    (ext4SyncFile f datasync).run' us = CcNvme.ext4SyncFile f datasync := by
  refine StateT.ext fun ⟨wb, l⟩ => ?_
  rw [CcNvme.ext4SyncFile_run, StateT.run'_eq, StateT.run_map, ext4SyncFile_run, map_pure]

/-- The steps of `ext4_atomic_file`. -/
def atomicSteps : List (SyncStep × ℤ) :=
  f.submitSteps datasync wb ++
    (if f.submitErr datasync wb = 0 then parentSteps 0 f.parents else []) ++
    (SyncStep.commit, f.commit) :: if f.barrier then [(SyncStep.flush, f.flush)] else []

theorem ext4AtomicFile_run :
    ((ext4AtomicFile f datasync).run us).run ⟨wb, l⟩
      = pure ((0, us ++ callLocks f wb), ⟨0, l ++ atomicSteps f datasync wb⟩) := by
  unfold ext4AtomicFile atomicSteps callLocks
  rw [StateT.run_bind, StateT.run_bind, genericFileAtomicWriteSubmit_run, pure_bind]
  by_cases hsubmit : f.submitErr datasync wb = 0
  · obtain ⟨ret, hparents⟩ := mqfsAtomicWriteParentSubmit_run 0
      (l ++ f.submitSteps datasync wb) f.parents 0
    cases f.barrier <;> simp [hsubmit, hparents, genericFileAtomicWriteWaitNodata_run]
  · cases f.barrier <;> simp [hsubmit, genericFileAtomicWriteWaitNodata_run]

/-! ### The property -/

/-- The uses of the lock in a call, when `wb` is recorded in the mapping. -/
def locks (call : LockM ℤ) (wb : ℤ) : List (Use Unit) := ((call.run []).run ⟨wb, []⟩).1.2

theorem callLocks_settled_iff : Settled (callLocks f wb) ↔ f.dataErr wb = 0 := by
  unfold callLocks submitLocks
  split_ifs with hdata
  · exact iff_of_false (by decide) hdata
  · exact iff_of_true (by decide) (not_not.mp hdata)

/-- For every pattern of results: either call releases the lock as often as it has taken it,
and only while it holds it, exactly when the data is submitted without an error and none is
pending from writeback. -/
theorem inode_lock_balanced_iff (f : SyncResults) (datasync : Bool) (wb : ℤ) :
    (Settled (locks (ext4SyncFile f datasync) wb) ↔
      (f.needsWriteback → f.data = 0) ∧ wb = 0 ∧ f.wbData = 0) ∧
    (Settled (locks (ext4AtomicFile f datasync) wb) ↔
      (f.needsWriteback → f.data = 0) ∧ wb = 0 ∧ f.wbData = 0) := by
  have hsync : locks (ext4SyncFile f datasync) wb = callLocks f wb := by
    unfold locks
    rw [ext4SyncFile_run]
    rfl
  have hatomic : locks (ext4AtomicFile f datasync) wb = callLocks f wb := by
    unfold locks
    rw [ext4AtomicFile_run]
    rfl
  rw [hsync, hatomic, callLocks_settled_iff, dataErr_eq_zero_iff]
  exact ⟨Iff.rfl, Iff.rfl⟩

/-- The submission of the inode fails with `-EIO` behind the lock, and the lock is released. -/
theorem inode_lock_failed_inode :
    locks (ext4SyncFile { syncOk with inode := -5 } false) 0 = [Use.take (), Use.release ()] ∧
      Settled (locks (ext4SyncFile { syncOk with inode := -5 } false) 0) :=
  ⟨by decide +kernel,
    (inode_lock_balanced_iff { syncOk with inode := -5 } false 0).1.mpr
      ⟨fun _ => rfl, rfl, rfl⟩⟩

/-- When the data cannot be written with `-EIO`, either call releases a lock that it does not
hold; and so they do when an error of an earlier writeback is pending. -/
theorem failed_data_unlocks :
    locks (ext4SyncFile { syncOk with data := -5 } false) 0 = [Use.release ()] ∧
      ¬ Settled (locks (ext4SyncFile { syncOk with data := -5 } false) 0) ∧
      ¬ Settled (locks (ext4AtomicFile { syncOk with data := -5 } false) 0) ∧
      ¬ Settled (locks (ext4AtomicFile syncOk false) (-5)) := by
  refine ⟨?_, ?_, ?_, ?_⟩ <;> decide +kernel

end InodeLock

end CcNvme

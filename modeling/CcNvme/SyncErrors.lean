/-
CcNvme/SyncErrors.lean

What becomes of errors in `ext4_sync_file` of `mqfs/fsync.c`, on the path without a journal.
The results of the steps are given by `SyncResults`, one for each call that returns an error
code; the functions are translated with their handling of these, and log every step that is
taken with its result.  An error that writeback records in the mapping is pending until
`file_check_and_advance_wb_err` sees it.

`stream_commit_tx` is called whatever has failed, and the value returned is that of the last
wait: `fsync_fails_safely_iff` says exactly when this does no harm.
-/
import Mathlib.Data.Int.Notation
import Mathlib.Data.List.TakeWhile
import Mathlib.Tactic.Common

namespace CcNvme

/-! ### The functions -/

/-- The steps that return an error code; `level` counts the ancestors. -/
inductive SyncStep where
  /-- `filemap_fstreamwrite_tag_range` -/
  | data
  /-- `file_check_and_advance_wb_err` -/
  | wbErr
  /-- `mqfs_submit_mapping_buffers` -/
  | buffers
  /-- `tx_write_inode_metadata` -/
  | inode
  | parentBuffers (level : ℕ)
  | parentInode (level : ℕ)
  /-- `stream_commit_tx` -/
  | commit
  /-- `tx_write_wait_inode_buffer` -/
  | waitInode
  /-- `mqfs_wait_mapping_buffers` -/
  | waitBuffers
  | waitParentBuffers
  | waitParentInode
  /-- the completion of the descriptor block -/
  | descriptor
  /-- `stream_blkdev_issue_flush` -/
  | flush
  deriving DecidableEq

/-- The results for an ancestor whose child has `EXT4_STATE_NEWENTRY`. -/
structure ParentResults where
  buffers : ℤ
  inode : ℤ
  waitBuffers : ℤ
  waitInode : ℤ

/-- The results of the steps, and what decides whether some of them are taken. -/
structure SyncResults where
  needsWriteback : Bool
  data : ℤ
  /-- 0 in the source, where nothing sets it -/
  buffers : ℤ
  /-- `i_state & I_DIRTY_ALL` -/
  dirtyAll : Bool
  /-- `i_state & I_DIRTY_DATASYNC` -/
  dirtyDatasync : Bool
  inode : ℤ
  parents : List ParentResults
  commit : ℤ
  waitInode : ℤ
  waitBuffers : ℤ
  descriptor : ℤ
  barrier : Bool
  flush : ℤ
  /-- errors recorded in the mapping before each check, 0 if none is -/
  wbData : ℤ
  wbMeta : ℤ
  wbWait : ℤ
  wbLate : ℤ

structure SyncState where
  /-- the error recorded in the mapping and not seen by the file -/
  wbErr : ℤ
  steps : List (SyncStep × ℤ)

abbrev SyncM := StateM SyncState

/-- A step is taken, with its result. -/
def report (s : SyncStep) (result : ℤ) : SyncM ℤ :=
  modifyGet fun st => (result, { st with steps := st.steps ++ [(s, result)] })

/-- Writeback records an error in the mapping; a later one replaces it. -/
def mappingSetError (error : ℤ) : SyncM Unit :=
  modify fun st => if error = 0 then st else { st with wbErr := error }

/-- The error recorded since the last check, once. -/
def fileCheckAndAdvanceWbErr : SyncM ℤ := do
  let err ← report .wbErr (← get).wbErr
  modify fun st => { st with wbErr := 0 }
  return err

def fileTagStreamwriteRange (f : SyncResults) : SyncM ℤ := do
  let mut err := 0
  if f.needsWriteback then
    err ← report .data f.data
  mappingSetError f.wbData
  let err2 ← fileCheckAndAdvanceWbErr
  if err = 0 then err := err2
  return err

/-- The inode is written unless it is clean, or clean as far as `datasync` goes. -/
def SyncResults.writesInode (f : SyncResults) (datasync : Bool) : Bool :=
  f.dirtyAll && !(datasync && !f.dirtyDatasync)

def genericFileAtomicWriteSubmit (f : SyncResults) (datasync : Bool) : SyncM ℤ := do
  let mut err ← fileTagStreamwriteRange f
  if err ≠ 0 then return err
  let mut ret ← report .buffers f.buffers
  if f.writesInode datasync then
    err ← report .inode f.inode
    if ret = 0 then ret := err
  mappingSetError f.wbMeta
  err ← fileCheckAndAdvanceWbErr
  if ret = 0 then ret := err
  if err ≠ 0 then ret := err
  return ret

/-- The loop over the ancestors, with the waiting list it makes. -/
def mqfsAtomicWriteParentSubmit (level : ℕ) :
    List ParentResults → SyncM (ℤ × List ParentResults)
  | [] => return (0, [])
  | p :: ps => do
      let ret ← report (.parentBuffers level) p.buffers
      if ret ≠ 0 then return (ret, [])
      let ret ← report (.parentInode level) p.inode
      if ret ≠ 0 then return (ret, [])
      let (ret, waiting) ← mqfsAtomicWriteParentSubmit (level + 1) ps
      return (ret, p :: waiting)

def genericFileAtomicWriteWait (f : SyncResults) : SyncM ℤ := do
  let mut ret ← report .waitInode f.waitInode
  let mut err ← report .waitBuffers f.waitBuffers
  if ret = 0 then ret := err
  mappingSetError f.wbWait
  -- `file_fdatawait_range` ends with this check
  err ← fileCheckAndAdvanceWbErr
  if ret = 0 then ret := err
  mappingSetError f.wbLate
  err ← fileCheckAndAdvanceWbErr
  if err ≠ 0 then return err
  return ret

/-- The loop over the waiting list; `ret` is what the iteration before left. -/
def mqfsAtomicWriteParentWait (ret : ℤ) : List ParentResults → SyncM ℤ
  | [] => return ret
  | p :: ps => do
      let _ ← report .waitParentBuffers p.waitBuffers
      let ret ← report .waitParentInode p.waitInode
      mqfsAtomicWriteParentWait ret ps

def ext4SyncFile (f : SyncResults) (datasync : Bool) : SyncM ℤ := do
  let mut waiting := []
  let mut syncParent := false
  let mut ret ← genericFileAtomicWriteSubmit f datasync
  if ret = 0 then
    (ret, waiting) ← mqfsAtomicWriteParentSubmit 0 f.parents
    syncParent := true
  let _ret1 ← report .commit f.commit
  ret ← genericFileAtomicWriteWait f
  if syncParent then
    ret ← mqfsAtomicWriteParentWait 0 waiting
  let _ ← report .descriptor f.descriptor
  if f.barrier then
    let _err ← report .flush f.flush
  return ret

/-! ### Runs -/

variable (f : SyncResults) (datasync : Bool) (wb : ℤ) (l : List (SyncStep × ℤ))

/-- The error recorded last. -/
def latest (old new : ℤ) : ℤ := if new = 0 then old else new

theorem latest_eq_zero_iff {old new : ℤ} : latest old new = 0 ↔ old = 0 ∧ new = 0 := by
  unfold latest
  split_ifs with h
  · simp [h]
  · simp [h]

@[simp] theorem report_run (s : SyncStep) (r : ℤ) :
    (report s r).run ⟨wb, l⟩ = pure (r, ⟨wb, l ++ [(s, r)]⟩) := rfl

@[simp] theorem mappingSetError_run (e : ℤ) :
    (mappingSetError e).run ⟨wb, l⟩ = pure ((), ⟨latest wb e, l⟩) := by
  simp only [mappingSetError, latest, StateT.run_modify]
  split_ifs <;> rfl

@[simp] theorem fileCheckAndAdvanceWbErr_run :
    fileCheckAndAdvanceWbErr.run ⟨wb, l⟩ = pure (wb, ⟨0, l ++ [(.wbErr, wb)]⟩) := rfl

/-- A function whose run is known, with what follows it. -/
theorem bind_run {α β : Type} {x : SyncM α} {a : α} {st st' : SyncState}
    (hx : x.run st = pure (a, st')) (k : α → SyncM β) : (x >>= k).run st = (k a).run st' := by
  rw [StateT.run_bind, hx, pure_bind]

theorem report_bind_run {α : Type} (s : SyncStep) (r : ℤ) (k : ℤ → SyncM α) :
    (report s r >>= k).run ⟨wb, l⟩ = (k r).run ⟨wb, l ++ [(s, r)]⟩ :=
  bind_run (report_run wb l s r) k

theorem mappingSetError_bind_run {α : Type} (e : ℤ) (k : Unit → SyncM α) :
    (mappingSetError e >>= k).run ⟨wb, l⟩ = (k ()).run ⟨latest wb e, l⟩ :=
  bind_run (mappingSetError_run wb l e) k

theorem fileCheckAndAdvanceWbErr_bind_run {α : Type} (k : ℤ → SyncM α) :
    (fileCheckAndAdvanceWbErr >>= k).run ⟨wb, l⟩ = (k wb).run ⟨0, l ++ [(.wbErr, wb)]⟩ :=
  bind_run (fileCheckAndAdvanceWbErr_run wb l) k

/-- What `file_tag_streamwrite_range` returns. -/
def SyncResults.dataErr : ℤ :=
  if f.needsWriteback && f.data ≠ 0 then f.data else latest wb f.wbData

def SyncResults.dataSteps : List (SyncStep × ℤ) :=
  (if f.needsWriteback then [(SyncStep.data, f.data)] else []) ++
    [(SyncStep.wbErr, latest wb f.wbData)]

theorem fileTagStreamwriteRange_run :
    (fileTagStreamwriteRange f).run ⟨wb, l⟩ = pure (f.dataErr wb, ⟨0, l ++ f.dataSteps wb⟩) := by
  unfold fileTagStreamwriteRange SyncResults.dataErr SyncResults.dataSteps
  cases f.needsWriteback <;> by_cases h : f.data = 0 <;> simp [h]

/-- What the part of `__generic_file_atomic_write_submit` behind the data returns. -/
def SyncResults.metaErr : ℤ :=
  if f.wbMeta ≠ 0 then f.wbMeta
  else if f.buffers ≠ 0 then f.buffers
  else if f.writesInode datasync then f.inode else 0

def SyncResults.metaSteps : List (SyncStep × ℤ) :=
  (SyncStep.buffers, f.buffers) ::
    (if f.writesInode datasync then [(SyncStep.inode, f.inode)] else []) ++
    [(SyncStep.wbErr, f.wbMeta)]

@[simp] theorem latest_zero (e : ℤ) : latest 0 e = e := by
  unfold latest
  split_ifs with h
  · exact h.symm
  · rfl

def SyncResults.submitErr : ℤ :=
  if f.dataErr wb ≠ 0 then f.dataErr wb else f.metaErr datasync

def SyncResults.submitSteps : List (SyncStep × ℤ) :=
  f.dataSteps wb ++ if f.dataErr wb ≠ 0 then [] else f.metaSteps datasync

theorem genericFileAtomicWriteSubmit_run :
    (genericFileAtomicWriteSubmit f datasync).run ⟨wb, l⟩
      = pure (f.submitErr datasync wb, ⟨0, l ++ f.submitSteps datasync wb⟩) := by
  unfold genericFileAtomicWriteSubmit SyncResults.submitErr SyncResults.submitSteps
    SyncResults.metaErr SyncResults.metaSteps
  rw [bind_run (fileTagStreamwriteRange_run f wb l)]
  by_cases hdata : f.dataErr wb = 0
  · by_cases hbuffers : f.buffers = 0 <;> by_cases hwb : f.wbMeta = 0 <;>
      by_cases hinode : f.inode = 0 <;> cases f.writesInode datasync <;>
      simp [-StateT.run_bind, report_bind_run, mappingSetError_bind_run,
        fileCheckAndAdvanceWbErr_bind_run, hdata, hbuffers, hwb, hinode]
  · simp [hdata]

/-- The steps of the loop over the ancestors. -/
def parentSteps (level : ℕ) : List ParentResults → List (SyncStep × ℤ)
  | [] => []
  | p :: ps =>
      (.parentBuffers level, p.buffers) :: if p.buffers ≠ 0 then [] else
        (.parentInode level, p.inode) :: if p.inode ≠ 0 then [] else parentSteps (level + 1) ps

/-- The waiting list: the ancestors up to the first that fails. -/
def waitingList (ps : List ParentResults) : List ParentResults :=
  ps.takeWhile fun p => p.buffers = 0 ∧ p.inode = 0

theorem mqfsAtomicWriteParentSubmit_run (ps : List ParentResults) (level : ℕ) :
    ∃ ret, (mqfsAtomicWriteParentSubmit level ps).run ⟨wb, l⟩
      = pure ((ret, waitingList ps), ⟨wb, l ++ parentSteps level ps⟩) := by
  induction ps generalizing level l with
  | nil => exact ⟨0, by simp [mqfsAtomicWriteParentSubmit, waitingList, parentSteps]⟩
  | cons p ps ih =>
      by_cases hbuffers : p.buffers = 0
      · by_cases hinode : p.inode = 0
        · obtain ⟨ret, hrest⟩ := ih
            (l ++ [(SyncStep.parentBuffers level, 0), (SyncStep.parentInode level, 0)])
            (level + 1)
          refine ⟨ret, ?_⟩
          simp [mqfsAtomicWriteParentSubmit, waitingList, parentSteps, hbuffers, hinode, hrest]
        · refine ⟨p.inode, ?_⟩
          simp [mqfsAtomicWriteParentSubmit, waitingList, parentSteps, hbuffers, hinode]
      · refine ⟨p.buffers, ?_⟩
        simp [mqfsAtomicWriteParentSubmit, waitingList, parentSteps, hbuffers]

/-- What `__generic_file_atomic_write_wait` returns when no error is pending. -/
def SyncResults.waitErr : ℤ :=
  if f.wbLate ≠ 0 then f.wbLate
  else if f.waitInode ≠ 0 then f.waitInode
  else if f.waitBuffers ≠ 0 then f.waitBuffers
  else f.wbWait

def SyncResults.waitSteps : List (SyncStep × ℤ) :=
  [(.waitInode, f.waitInode), (.waitBuffers, f.waitBuffers), (.wbErr, f.wbWait),
    (.wbErr, f.wbLate)]

theorem genericFileAtomicWriteWait_run :
    (genericFileAtomicWriteWait f).run ⟨0, l⟩ = pure (f.waitErr, ⟨0, l ++ f.waitSteps⟩) := by
  unfold genericFileAtomicWriteWait SyncResults.waitErr SyncResults.waitSteps
  by_cases hinode : f.waitInode = 0 <;> by_cases hbuffers : f.waitBuffers = 0 <;>
    by_cases hlate : f.wbLate = 0 <;>
    simp [-StateT.run_bind, report_bind_run, mappingSetError_bind_run,
      fileCheckAndAdvanceWbErr_bind_run, hinode, hbuffers, hlate]

def parentWaitSteps (ps : List ParentResults) : List (SyncStep × ℤ) :=
  ps.flatMap fun p => [(.waitParentBuffers, p.waitBuffers), (.waitParentInode, p.waitInode)]

/-- Only the last ancestor's inode counts. -/
def parentWaitErr (ret : ℤ) (ps : List ParentResults) : ℤ :=
  (ps.getLast?.map ParentResults.waitInode).getD ret

theorem parentWaitErr_cons (ret : ℤ) (p : ParentResults) (ps : List ParentResults) :
    parentWaitErr ret (p :: ps) = parentWaitErr p.waitInode ps := by
  unfold parentWaitErr
  rw [List.getLast?_cons]
  cases ps.getLast? <;> rfl

theorem mqfsAtomicWriteParentWait_run (ps : List ParentResults) (ret : ℤ) :
    (mqfsAtomicWriteParentWait ret ps).run ⟨wb, l⟩
      = pure (parentWaitErr ret ps, ⟨wb, l ++ parentWaitSteps ps⟩) := by
  induction ps generalizing ret l with
  | nil => simp [mqfsAtomicWriteParentWait, parentWaitErr, parentWaitSteps]
  | cons p ps ih => simp [mqfsAtomicWriteParentWait, parentWaitErr_cons, ih, parentWaitSteps]

/-- What `ext4_sync_file` returns. -/
def SyncResults.syncErr : ℤ :=
  if f.submitErr datasync wb = 0 then parentWaitErr 0 (waitingList f.parents) else f.waitErr

def SyncResults.syncSteps : List (SyncStep × ℤ) :=
  f.submitSteps datasync wb ++
    (if f.submitErr datasync wb = 0 then parentSteps 0 f.parents else []) ++
    (SyncStep.commit, f.commit) :: f.waitSteps ++
    (if f.submitErr datasync wb = 0 then parentWaitSteps (waitingList f.parents) else []) ++
    (SyncStep.descriptor, f.descriptor) :: if f.barrier then [(SyncStep.flush, f.flush)] else []

theorem ext4SyncFile_run :
    (ext4SyncFile f datasync).run ⟨wb, l⟩
      = pure (f.syncErr datasync wb, ⟨0, l ++ f.syncSteps datasync wb⟩) := by
  unfold ext4SyncFile SyncResults.syncErr SyncResults.syncSteps
  rw [StateT.run_bind, genericFileAtomicWriteSubmit_run, pure_bind]
  by_cases hsubmit : f.submitErr datasync wb = 0
  · obtain ⟨ret, hparents⟩ := mqfsAtomicWriteParentSubmit_run 0
      (l ++ f.submitSteps datasync wb) f.parents 0
    cases f.barrier <;> simp [hsubmit, hparents, genericFileAtomicWriteWait_run,
      mqfsAtomicWriteParentWait_run]
  · cases f.barrier <;> simp [hsubmit, genericFileAtomicWriteWait_run]

/-! ### The property -/

/-- The writes that belong to the transaction. -/
def SyncResults.writes : List SyncStep :=
  (if f.needsWriteback then [SyncStep.data] else []) ++
    SyncStep.buffers :: (if f.writesInode datasync then [SyncStep.inode] else []) ++
    (List.range f.parents.length).flatMap fun i =>
      [SyncStep.parentBuffers i, SyncStep.parentInode i]

/-- If a write of the transaction has not been submitted it is not committed, and if a step
has reported an error, so does the call. -/
structure NeitherCommitsNorLies (writes : List SyncStep) (ret : ℤ)
    (steps : List (SyncStep × ℤ)) : Prop where
  commits : (∃ w ∈ writes, (w, 0) ∉ steps) → ∀ r, (SyncStep.commit, r) ∉ steps
  lies : (∃ s ∈ steps, s.2 ≠ 0) → ret ≠ 0

/-! ### When every write is submitted -/

/-- What it takes for every write to be submitted: no submission fails, and no error of
writeback makes a function return before the rest. -/
structure AllSubmitted : Prop where
  data : f.needsWriteback → f.data = 0
  wbErr : wb = 0
  wbData : f.wbData = 0
  buffers : f.buffers = 0
  inode : f.writesInode datasync → f.inode = 0
  parents : ∀ p ∈ f.parents, p.buffers = 0 ∧ p.inode = 0
  wbMeta : f.parents ≠ [] → f.wbMeta = 0

variable {f datasync wb}

theorem dataErr_eq_zero_iff :
    f.dataErr wb = 0 ↔ (f.needsWriteback → f.data = 0) ∧ wb = 0 ∧ f.wbData = 0 := by
  unfold SyncResults.dataErr
  rw [← latest_eq_zero_iff]
  by_cases hdata : f.data = 0 <;> cases f.needsWriteback <;> simp [hdata]

theorem metaErr_eq_zero_iff :
    f.metaErr datasync = 0 ↔
      f.wbMeta = 0 ∧ f.buffers = 0 ∧ (f.writesInode datasync → f.inode = 0) := by
  unfold SyncResults.metaErr
  by_cases hwb : f.wbMeta = 0 <;> by_cases hbuffers : f.buffers = 0 <;>
    cases f.writesInode datasync <;> simp [hwb, hbuffers]

theorem submitErr_eq_zero_iff :
    f.submitErr datasync wb = 0 ↔ f.dataErr wb = 0 ∧ f.metaErr datasync = 0 := by
  unfold SyncResults.submitErr
  split_ifs with h <;> simp_all

/-- The loop over the ancestors takes steps of its own. -/
theorem level_of_mem_parentSteps {ps : List ParentResults} {level : ℕ} {s : SyncStep × ℤ}
    (h : s ∈ parentSteps level ps) :
    ∃ i, level ≤ i ∧ (s.1 = .parentBuffers i ∨ s.1 = .parentInode i) := by
  induction ps generalizing level with
  | nil => cases h
  | cons p ps ih =>
      simp only [parentSteps, List.mem_cons, List.mem_ite_nil_left, not_not] at h
      rcases h with rfl | ⟨-, rfl | ⟨-, h⟩⟩
      · exact ⟨level, Nat.le_refl _, Or.inl rfl⟩
      · exact ⟨level, Nat.le_refl _, Or.inr rfl⟩
      · obtain ⟨i, hi, hs⟩ := ih h
        exact ⟨i, by omega, hs⟩

theorem forall_mem_parentSteps_iff (ps : List ParentResults) (level : ℕ) :
    (∀ i < ps.length, (SyncStep.parentBuffers (level + i), 0) ∈ parentSteps level ps ∧
      (SyncStep.parentInode (level + i), 0) ∈ parentSteps level ps) ↔
      ∀ p ∈ ps, p.buffers = 0 ∧ p.inode = 0 := by
  induction ps generalizing level with
  | nil => simp
  | cons p ps ih =>
      -- the steps behind those for `p` are of higher levels
      have hbuffers (r : ℤ) : (SyncStep.parentBuffers level, r) ∉ parentSteps (level + 1) ps := by
        intro h
        obtain ⟨i, hi, he | he⟩ := level_of_mem_parentSteps h
        · cases he
          omega
        · cases he
      have hinode (r : ℤ) : (SyncStep.parentInode level, r) ∉ parentSteps (level + 1) ps := by
        intro h
        obtain ⟨i, hi, he | he⟩ := level_of_mem_parentSteps h
        · cases he
        · cases he
          omega
      have hnext (i : ℕ) : level + (i + 1) = level + 1 + i := by omega
      have hlater (i : ℕ) : level + 1 + i ≠ level := by omega
      rw [List.forall_mem_cons, ← ih (level + 1)]
      simp only [parentSteps, List.length_cons, List.mem_cons, Prod.mk.injEq,
        List.mem_ite_nil_left, not_not, SyncStep.parentBuffers.injEq, SyncStep.parentInode.injEq,
        reduceCtorEq, false_and, false_or]
      constructor
      · intro h
        have hp : p.buffers = 0 ∧ p.inode = 0 := by
          have h₀ := h 0 (by omega)
          simp only [Nat.add_zero, true_and, hbuffers, hinode, and_false, or_false] at h₀
          exact ⟨h₀.2.1, h₀.2.2.symm⟩
        refine ⟨hp, fun i hi => ?_⟩
        have hi' := h (i + 1) (by omega)
        rw [hnext] at hi'
        simpa [hlater, hp.1, hp.2] using hi'
      · rintro ⟨hp, h⟩ i hi
        cases i with
        | zero => simp [hp.1, hp.2]
        | succ i =>
            rw [hnext]
            simpa [hlater, hp.1, hp.2] using h i (by omega)

/-- The submissions for the file itself are in the first part of the log. -/
theorem mem_syncSteps_file_iff {w : SyncStep} (hw : w = .data ∨ w = .buffers ∨ w = .inode)
    (r : ℤ) : (w, r) ∈ f.syncSteps datasync wb ↔ (w, r) ∈ f.submitSteps datasync wb := by
  have hparents : (w, r) ∉ parentSteps 0 f.parents := by
    intro h
    obtain ⟨i, -, he | he⟩ := level_of_mem_parentSteps h <;> rcases hw with rfl | rfl | rfl <;>
      cases he
  rcases hw with rfl | rfl | rfl <;>
    simp [SyncResults.syncSteps, SyncResults.waitSteps, parentWaitSteps, hparents]

/-- Those for the ancestors are made if the submissions before return no error. -/
theorem mem_syncSteps_parent_iff {w : SyncStep} {i : ℕ}
    (hw : w = .parentBuffers i ∨ w = .parentInode i) (r : ℤ) :
    (w, r) ∈ f.syncSteps datasync wb ↔
      f.submitErr datasync wb = 0 ∧ (w, r) ∈ parentSteps 0 f.parents := by
  rcases hw with rfl | rfl <;>
    simp [SyncResults.syncSteps, SyncResults.waitSteps, parentWaitSteps, SyncResults.submitSteps,
      SyncResults.dataSteps, SyncResults.metaSteps]

/-- The writes, in the parts of the log they are in. -/
theorem forall_writes_iff {p : SyncStep → Prop} :
    (∀ w ∈ f.writes datasync, p w) ↔
      (f.needsWriteback → p .data) ∧ p .buffers ∧ (f.writesInode datasync → p .inode) ∧
        ∀ i < f.parents.length, p (.parentBuffers i) ∧ p (.parentInode i) := by
  unfold SyncResults.writes
  rw [List.forall_mem_append, List.forall_mem_append, List.forall_mem_cons,
    List.forall_mem_flatMap]
  cases f.needsWriteback <;> cases f.writesInode datasync <;> simp [and_assoc]

theorem allSubmitted_iff :
    (∀ w ∈ f.writes datasync, (w, 0) ∈ f.syncSteps datasync wb) ↔ AllSubmitted f datasync wb := by
  have hdata (hneeds : f.needsWriteback) :
      (SyncStep.data, 0) ∈ f.submitSteps datasync wb ↔ f.data = 0 := by
    simp [SyncResults.submitSteps, SyncResults.dataSteps, SyncResults.metaSteps, hneeds,
      @eq_comm ℤ 0]
  have hbuffers : (SyncStep.buffers, 0) ∈ f.submitSteps datasync wb ↔
      f.dataErr wb = 0 ∧ f.buffers = 0 := by
    simp [SyncResults.submitSteps, SyncResults.dataSteps, SyncResults.metaSteps, @eq_comm ℤ 0]
  have hinode (hwrites : f.writesInode datasync) :
      (SyncStep.inode, 0) ∈ f.submitSteps datasync wb ↔ f.dataErr wb = 0 ∧ f.inode = 0 := by
    simp [SyncResults.submitSteps, SyncResults.dataSteps, SyncResults.metaSteps, hwrites,
      @eq_comm ℤ 0]
  rw [forall_writes_iff, mem_syncSteps_file_iff (Or.inl rfl),
    mem_syncSteps_file_iff (Or.inr (Or.inl rfl)), mem_syncSteps_file_iff (Or.inr (Or.inr rfl)),
    hbuffers]
  simp only [mem_syncSteps_parent_iff (Or.inl rfl), mem_syncSteps_parent_iff (Or.inr rfl)]
  constructor
  · rintro ⟨h₁, ⟨hzero, h₂⟩, h₃, h₄⟩
    obtain ⟨-, hwb, hwbData⟩ := dataErr_eq_zero_iff.mp hzero
    refine ⟨fun h => (hdata h).mp (h₁ h), hwb, hwbData, h₂, fun h => ((hinode h).mp (h₃ h)).2,
      ?_, fun hne => ?_⟩
    · refine (forall_mem_parentSteps_iff f.parents 0).mp fun i hi => ?_
      rw [Nat.zero_add]
      exact ⟨(h₄ i hi).1.2, (h₄ i hi).2.2⟩
    · have hsubmit := (h₄ 0 (List.length_pos_iff.mpr hne)).1.1
      exact (metaErr_eq_zero_iff.mp (submitErr_eq_zero_iff.mp hsubmit).2).1
  · intro h
    have hzero : f.dataErr wb = 0 := dataErr_eq_zero_iff.mpr ⟨h.data, h.wbErr, h.wbData⟩
    refine ⟨fun hneeds => (hdata hneeds).mpr (h.data hneeds), ⟨hzero, h.buffers⟩,
      fun hwrites => (hinode hwrites).mpr ⟨hzero, h.inode hwrites⟩, fun i hi => ?_⟩
    have hwbMeta := h.wbMeta (List.length_pos_iff.mp (Nat.zero_lt_of_lt hi))
    have hsubmit : f.submitErr datasync wb = 0 :=
      submitErr_eq_zero_iff.mpr ⟨hzero, metaErr_eq_zero_iff.mpr ⟨hwbMeta, h.buffers, h.inode⟩⟩
    have hmem := (forall_mem_parentSteps_iff f.parents 0).mpr h.parents i hi
    rw [Nat.zero_add] at hmem
    exact ⟨⟨hsubmit, hmem.1⟩, ⟨hsubmit, hmem.2⟩⟩

/-! ### When the result tells of the errors -/

/-- No step behind the submissions reports an error. -/
structure SyncResults.Quiet (f : SyncResults) : Prop where
  wbMeta : f.wbMeta = 0
  commit : f.commit = 0
  waitInode : f.waitInode = 0
  waitBuffers : f.waitBuffers = 0
  wbWait : f.wbWait = 0
  wbLate : f.wbLate = 0
  parents : ∀ p ∈ f.parents, p.waitBuffers = 0 ∧ p.waitInode = 0
  descriptor : f.descriptor = 0
  flush : f.barrier → f.flush = 0

/-- The wait that comes last fails: that for the topmost ancestor's inode, or, when the
ancestors are passed over, a wait for the file. -/
def SyncResults.LastFails (f : SyncResults) : Prop :=
  if f.wbMeta = 0 then ∃ p, f.parents.getLast? = some p ∧ p.waitInode ≠ 0
  else f.waitInode ≠ 0 ∨ f.waitBuffers ≠ 0 ∨ f.wbWait ≠ 0 ∨ f.wbLate ≠ 0

theorem waitErr_eq_zero_iff : f.waitErr = 0 ↔
    f.waitInode = 0 ∧ f.waitBuffers = 0 ∧ f.wbWait = 0 ∧ f.wbLate = 0 := by
  unfold SyncResults.waitErr
  by_cases hlate : f.wbLate = 0 <;> by_cases hinode : f.waitInode = 0 <;>
    by_cases hbuffers : f.waitBuffers = 0 <;> simp [hlate, hinode, hbuffers]

theorem parentSteps_zero {ps : List ParentResults} (level : ℕ)
    (h : ∀ p ∈ ps, p.buffers = 0 ∧ p.inode = 0) : ∀ s ∈ parentSteps level ps, s.2 = 0 := by
  induction ps generalizing level with
  | nil => simp [parentSteps]
  | cons p ps ih =>
      obtain ⟨hp, hps⟩ := List.forall_mem_cons.mp h
      simpa [parentSteps, hp.1, hp.2] using ih (level + 1) hps

namespace AllSubmitted

theorem submitErr_eq_zero_iff (h : AllSubmitted f datasync wb) :
    f.submitErr datasync wb = 0 ↔ f.wbMeta = 0 := by
  rw [CcNvme.submitErr_eq_zero_iff, dataErr_eq_zero_iff, metaErr_eq_zero_iff]
  exact ⟨fun he => he.2.1, fun he => ⟨⟨h.data, h.wbErr, h.wbData⟩, he, h.buffers, h.inode⟩⟩

theorem waitingList_eq (h : AllSubmitted f datasync wb) : waitingList f.parents = f.parents := by
  unfold waitingList
  rw [List.takeWhile_eq_self_iff]
  simpa using h.parents

theorem submitSteps_zero_iff (h : AllSubmitted f datasync wb) :
    (∀ s ∈ f.submitSteps datasync wb, s.2 = 0) ↔ f.wbMeta = 0 := by
  have hzero : f.dataErr wb = 0 := dataErr_eq_zero_iff.mpr ⟨h.data, h.wbErr, h.wbData⟩
  have hdata := h.data
  have hinode := h.inode
  unfold SyncResults.submitSteps SyncResults.dataSteps SyncResults.metaSteps
  cases hneeds : f.needsWriteback <;> cases hwrites : f.writesInode datasync <;>
    simp_all [h.wbErr, h.wbData, h.buffers]

theorem forall_steps_iff (h : AllSubmitted f datasync wb) :
    (∀ s ∈ f.syncSteps datasync wb, s.2 = 0) ↔ f.Quiet := by
  have hwait : (∀ s ∈ f.waitSteps, s.2 = 0) ↔ f.waitErr = 0 := by
    rw [waitErr_eq_zero_iff]
    simp [SyncResults.waitSteps]
  have hparents : (∀ s ∈ parentWaitSteps f.parents, s.2 = 0) ↔
      ∀ p ∈ f.parents, p.waitBuffers = 0 ∧ p.waitInode = 0 := by
    unfold parentWaitSteps
    rw [List.forall_mem_flatMap]
    simp
  have hflush : (∀ s ∈ if f.barrier then [(SyncStep.flush, f.flush)] else [], s.2 = 0) ↔
      (f.barrier → f.flush = 0) := by
    cases f.barrier <;> simp
  unfold SyncResults.syncSteps
  simp only [List.forall_mem_append, List.forall_mem_cons, h.waitingList_eq,
    h.submitErr_eq_zero_iff, h.submitSteps_zero_iff, hwait, hflush]
  constructor
  · rintro ⟨⟨⟨⟨hmeta, -⟩, hcommit, hw⟩, hp⟩, hdescriptor, hf⟩
    obtain ⟨h₁, h₂, h₃, h₄⟩ := waitErr_eq_zero_iff.mp hw
    rw [if_pos hmeta] at hp
    exact ⟨hmeta, hcommit, h₁, h₂, h₃, h₄, hparents.mp hp, hdescriptor, hf⟩
  · rintro ⟨hmeta, hcommit, h₁, h₂, h₃, h₄, hp, hdescriptor, hf⟩
    rw [if_pos hmeta, if_pos hmeta]
    exact ⟨⟨⟨⟨hmeta, parentSteps_zero 0 h.parents⟩, hcommit,
      waitErr_eq_zero_iff.mpr ⟨h₁, h₂, h₃, h₄⟩⟩, hparents.mpr hp⟩, hdescriptor, hf⟩

theorem syncErr_ne_zero_iff (h : AllSubmitted f datasync wb) :
    f.syncErr datasync wb ≠ 0 ↔ f.LastFails := by
  unfold SyncResults.syncErr SyncResults.LastFails
  rw [h.waitingList_eq]
  simp only [h.submitErr_eq_zero_iff]
  split_ifs with hmeta
  · unfold parentWaitErr
    cases f.parents.getLast? <;> simp
  · rw [Ne, waitErr_eq_zero_iff]
    tauto

end AllSubmitted

/-- For every pattern of results: the call neither commits a transaction of which a write is
missing nor returns success when a step has failed, exactly when every write is submitted and
either nothing fails behind that or the wait that comes last does. -/
theorem fsync_fails_safely_iff (f : SyncResults) (datasync : Bool) (wb : ℤ) :
    NeitherCommitsNorLies (f.writes datasync) ((ext4SyncFile f datasync).run ⟨wb, []⟩).1
        ((ext4SyncFile f datasync).run ⟨wb, []⟩).2.steps ↔
      AllSubmitted f datasync wb ∧ (f.Quiet ∨ f.LastFails) := by
  rw [ext4SyncFile_run]
  show NeitherCommitsNorLies _ (f.syncErr datasync wb) (f.syncSteps datasync wb) ↔ _
  have hcommit : (SyncStep.commit, f.commit) ∈ f.syncSteps datasync wb := by
    simp [SyncResults.syncSteps]
  constructor
  · intro h
    have hall : AllSubmitted f datasync wb := by
      rw [← allSubmitted_iff]
      by_contra hmissing
      push Not at hmissing
      exact h.commits hmissing f.commit hcommit
    refine ⟨hall, or_iff_not_imp_left.mpr fun hnot => ?_⟩
    rw [← hall.forall_steps_iff] at hnot
    push Not at hnot
    exact hall.syncErr_ne_zero_iff.mp (h.lies hnot)
  · rintro ⟨hall, hret⟩
    refine ⟨?_, ?_⟩
    · rintro ⟨w, hw, hmissing⟩
      exact absurd (allSubmitted_iff.mpr hall w hw) hmissing
    · rintro ⟨s, hs, hne⟩
      rcases hret with hquiet | hlast
      · exact absurd (hall.forall_steps_iff.mpr hquiet s hs) hne
      · exact hall.syncErr_ne_zero_iff.mpr hlast

/-- Every step succeeds; the file has data and a dirty inode, and a new entry in its parent. -/
def syncOk : SyncResults where
  needsWriteback := true
  data := 0
  buffers := 0
  dirtyAll := true
  dirtyDatasync := true
  inode := 0
  parents := [⟨0, 0, 0, 0⟩]
  commit := 0
  waitInode := 0
  waitBuffers := 0
  descriptor := 0
  barrier := true
  flush := 0
  wbData := 0
  wbMeta := 0
  wbWait := 0
  wbLate := 0

/-- The wait for the parent's inode fails with `-EIO`, and the call says so. -/
theorem fsync_fails_safely_iff_topWait :
    ((ext4SyncFile { syncOk with parents := [⟨0, 0, 0, -5⟩] } false).run ⟨0, []⟩).1 = -5 ∧
      NeitherCommitsNorLies (syncOk.writes false)
        ((ext4SyncFile { syncOk with parents := [⟨0, 0, 0, -5⟩] } false).run ⟨0, []⟩).1
        ((ext4SyncFile { syncOk with parents := [⟨0, 0, 0, -5⟩] } false).run ⟨0, []⟩).2.steps :=
  ⟨by decide +kernel,
    (fsync_fails_safely_iff { syncOk with parents := [⟨0, 0, 0, -5⟩] } false 0).mpr
    ⟨⟨fun _ => rfl, rfl, rfl, rfl, fun _ => rfl, by decide, fun _ => rfl⟩,
      Or.inr ⟨_, rfl, by decide⟩⟩⟩

/-- When the data cannot be written with `-EIO` the transaction is committed and the call
returns 0, and so it does when the data is lost on the way to the disk. -/
theorem failed_data_committed :
    (∃ ret steps wb, (ext4SyncFile { syncOk with data := -5 } false).run ⟨0, []⟩
        = (ret, ⟨wb, steps⟩) ∧ (.data, -5) ∈ steps ∧ (.commit, 0) ∈ steps ∧ ret = 0 ∧
        ¬ NeitherCommitsNorLies (syncOk.writes false) ret steps) ∧
      ∃ ret steps wb, (ext4SyncFile { syncOk with wbWait := -5 } false).run ⟨0, []⟩
        = (ret, ⟨wb, steps⟩) ∧ (.wbErr, -5) ∈ steps ∧ ret = 0 ∧
        ¬ NeitherCommitsNorLies (syncOk.writes false) ret steps := by
  refine ⟨⟨_, _, _, rfl, by decide, by decide, by decide, fun h => ?_⟩,
    ⟨_, _, _, rfl, by decide, by decide, fun h => ?_⟩⟩
  · exact h.commits ⟨.data, by decide, by decide⟩ 0 (by decide)
  · exact h.lies ⟨(.wbErr, -5), by decide, by decide⟩ (by decide)

end CcNvme

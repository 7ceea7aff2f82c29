/-
CcNvme/AtomicFile.lean

Repeated calls of `ext4_atomic_file` on a file.  A call submits the metadata buffers on
`private_list`, which puts them on the pending list with `b_assoc_map` set, and does not run
the wait pass that would clear it (`__generic_file_atomic_write_wait_nodata`).  So
`mark_buffer_dirty_inode` does not queue such a buffer again, and no later call submits it.
The call returns 0 whatever the data writeback returned.

`atomic_file_submits_iff` says for which sequences of calls and dirtyings this does no harm;
`submitPass_alone` that the pass of the call is that of `BufferPasses` without other threads.
-/
import CcNvme.BufferPasses

namespace CcNvme

/-! ### The calls -/

/-- The buffers of a file, and the contents of each that were last submitted; 0 if none
were. -/
structure AtomicFile where
  bufs : MappingBuffers
  sent : ℕ → ℕ

/-- `mark_buffer_dirty_inode` -/
def MappingBuffers.markDirtyInode (m : MappingBuffers) (b : ℕ) : MappingBuffers :=
  let m := m.markDirty b
  if m.assoc b then m else m.moveTail b

namespace AtomicFile

/-- The body of the loop of `mqfs_submit_buffers_list` -/
def submitBuffer (st : AtomicFile) (b : ℕ) : AtomicFile :=
  let m := st.bufs.removeAssocQueue b
  if m.dirty b || m.locked b then
    let m := m.addPending b
    if m.dirty b then ⟨m.startWrite b, Function.update st.sent b (m.version b)⟩
    else { st with bufs := m }
  else { st with bufs := m }

/-- The loop; every iteration takes one buffer off the list. -/
def submitBuffersList : ℕ → AtomicFile → AtomicFile
  | 0, st => st
  | fuel + 1, st =>
      match st.bufs.privateList with
      | [] => st
      | b :: _ => submitBuffersList fuel (st.submitBuffer b)

def submitMappingBuffers (st : AtomicFile) : AtomicFile :=
  submitBuffersList st.bufs.privateList.length st

/-- `ext4_atomic_file`, as far as the buffers go; `err` is what `file_tag_streamwrite_range`
returns. -/
def ext4AtomicFile (st : AtomicFile) (err : ℤ) : AtomicFile × ℤ :=
  -- `__generic_file_atomic_write_submit` returns before the buffers
  let st := if err ≠ 0 then st else st.submitMappingBuffers
  -- `__generic_file_atomic_write_wait_nodata` returns 0
  (st, 0)

end AtomicFile

inductive AtomicOp where
  | markDirty (b : ℕ)
  | atomicFile (err : ℤ)
  /-- a write completes -/
  | complete (b : ℕ) (uptodate : Bool)

def AtomicFile.step (st : AtomicFile) : AtomicOp → Option AtomicFile
  | .markDirty b => some { st with bufs := st.bufs.markDirtyInode b }
  | .atomicFile err => some (st.ext4AtomicFile err).1
  | .complete b uptodate =>
      if st.bufs.lock b = .inFlight then some { st with bufs := st.bufs.endWrite b uptodate }
      else none

/-- Nothing has been dirtied. -/
def AtomicFile.init (uptodate : ℕ → Bool) : AtomicFile where
  bufs := ⟨fun _ => false, fun _ => .free, uptodate, fun _ => false, fun _ => 0, [], []⟩
  sent := fun _ => 0

/-! ### The property -/

/-- The buffer has been dirtied since it was last submitted. -/
def AtomicFile.Unsent (st : AtomicFile) (b : ℕ) : Prop := st.sent b ≠ st.bufs.version b

instance (st : AtomicFile) (b : ℕ) : Decidable (st.Unsent b) := inferInstanceAs (Decidable (_ ≠ _))

/-- A call that returns success leaves nothing unsent. -/
def SubmitsAll (st : AtomicFile) : AtomicOp → Prop
  | .atomicFile err =>
      (st.ext4AtomicFile err).2 = 0 → ∀ b, ¬ (st.ext4AtomicFile err).1.Unsent b
  | _ => True

/-- When the call is made no buffer that has been submitted before is unsent; and if a buffer
is, the data is written. -/
def FirstTime (st : AtomicFile) : AtomicOp → Prop
  | .atomicFile err => ∀ b, st.Unsent b → st.sent b = 0 ∧ err = 0
  | _ => True

/-! ### A call -/

variable {st : AtomicFile}

/-- The loop body for a dirty buffer. -/
theorem AtomicFile.submitBuffer_of_dirty {b : ℕ} (hb : st.bufs.dirty b = true) :
    st.submitBuffer b = ⟨((st.bufs.removeAssocQueue b).addPending b).startWrite b,
      Function.update st.sent b (st.bufs.version b)⟩ := by
  have hremoved : (st.bufs.removeAssocQueue b).dirty b = true := hb
  have hadded : ((st.bufs.removeAssocQueue b).addPending b).dirty b = true := hb
  simp only [submitBuffer, hremoved, hadded, Bool.true_or, if_true]
  rfl

/-- What the loop does when the buffers `l` on the list are dirty. -/
structure SubmitsList (st st' : AtomicFile) (l : List ℕ) : Prop where
  listed : st'.bufs.Listed
  privateList : st'.bufs.privateList = []
  mem_pending : ∀ b, b ∈ st'.bufs.pendingList ↔ b ∈ l ∨ b ∈ st.bufs.pendingList
  dirty : ∀ b, st'.bufs.dirty b = true ↔ st.bufs.dirty b = true ∧ b ∉ l
  version : st'.bufs.version = st.bufs.version
  sent_mem : ∀ b ∈ l, st'.sent b = st.bufs.version b
  sent_not_mem : ∀ b, b ∉ l → st'.sent b = st.sent b

theorem submitBuffersList_spec (l : List ℕ) (st : AtomicFile) (hl : st.bufs.privateList = l)
    (hlisted : st.bufs.Listed) (hdirty : ∀ b ∈ l, st.bufs.dirty b = true) :
    SubmitsList st (AtomicFile.submitBuffersList l.length st) l := by
  induction l generalizing st with
  | nil =>
      exact ⟨hlisted, hl, by simp [AtomicFile.submitBuffersList],
        by simp [AtomicFile.submitBuffersList], rfl, nofun, fun _ _ => rfl⟩
  | cons b l ih =>
      have hb := hdirty b List.mem_cons_self
      have hnodup := hlisted.nodup
      rw [hl, List.cons_append, List.nodup_cons, List.mem_append, not_or] at hnodup
      obtain ⟨⟨hbl, hbpending⟩, -⟩ := hnodup
      have hloop : AtomicFile.submitBuffersList (b :: l).length st
          = AtomicFile.submitBuffersList l.length (st.submitBuffer b) := by
        simp only [List.length_cons, AtomicFile.submitBuffersList, hl]
      rw [hloop, AtomicFile.submitBuffer_of_dirty hb]
      -- the buffer goes from one list to the other and gets clean
      have hlisted' := (hlisted.removeAssocQueue b).addPending (Function.update_self ..)
      have hrest := ih
        ⟨((st.bufs.removeAssocQueue b).addPending b).startWrite b,
          Function.update st.sent b (st.bufs.version b)⟩ ?_ ⟨hlisted'.nodup, hlisted'.assoc⟩ ?_
      · refine ⟨hrest.listed, hrest.privateList, fun x => ?_, fun x => ?_, hrest.version,
          fun x hx => ?_, fun x hx => ?_⟩
        · rw [hrest.mem_pending x]
          show x ∈ l ∨ x ∈ b :: st.bufs.pendingList.erase b ↔ _
          rw [List.erase_of_not_mem hbpending, List.mem_cons, List.mem_cons, or_left_comm, or_assoc]
        · rw [hrest.dirty x]
          show Function.update st.bufs.dirty b false x = true ∧ x ∉ l ↔ _
          by_cases hxb : x = b
          · simp [hxb]
          · simp [hxb]
        · rcases List.mem_cons.mp hx with rfl | hx
          · rw [hrest.sent_not_mem x hbl]
            exact Function.update_self ..
          · exact hrest.sent_mem x hx
        · rw [List.mem_cons, not_or] at hx
          rw [hrest.sent_not_mem x hx.2]
          exact Function.update_of_ne hx.1 _ _
      · show st.bufs.privateList.erase b = l
        rw [hl, List.erase_cons_head]
      · intro x hx
        have hne : x ≠ b := by
          rintro rfl
          exact hbl hx
        show Function.update st.bufs.dirty b false x = true
        rw [Function.update_of_ne hne]
        exact hdirty x (List.mem_cons_of_mem _ hx)

/-! ### Sequences of calls -/

/-- What is queued has been dirtied and never submitted; what is pending has been submitted. -/
structure AtomicInv (st : AtomicFile) : Prop where
  listed : st.bufs.Listed
  dirty_iff : ∀ b, st.bufs.dirty b = true ↔ st.Unsent b
  sent_le : ∀ b, st.sent b ≤ st.bufs.version b
  mem_private : ∀ b, b ∈ st.bufs.privateList ↔ st.bufs.dirty b = true ∧ st.sent b = 0
  mem_pending : ∀ b, b ∈ st.bufs.pendingList ↔ st.sent b ≠ 0

namespace AtomicInv

theorem init (uptodate : ℕ → Bool) : AtomicInv (AtomicFile.init uptodate) where
  listed := ⟨by simp [AtomicFile.init], by simp [AtomicFile.init]⟩
  dirty_iff := by simp [AtomicFile.init, AtomicFile.Unsent]
  sent_le := by simp [AtomicFile.init]
  mem_private := by simp [AtomicFile.init]
  mem_pending := by simp [AtomicFile.init]

/-- A dirtied buffer is unsent, the others are as before. -/
theorem dirty_iff_markDirty (h : AtomicInv st) (b x : ℕ) :
    (st.bufs.markDirty b).dirty x = true ↔ st.sent x ≠ (st.bufs.markDirty b).version x := by
  unfold MappingBuffers.markDirty
  by_cases hx : x = b
  · subst hx
    have hsent := h.sent_le x
    simp only [Function.update_self, true_iff]
    omega
  · simp only [Function.update_of_ne hx]
    exact h.dirty_iff x

theorem sent_le_markDirty (h : AtomicInv st) (b x : ℕ) :
    st.sent x ≤ (st.bufs.markDirty b).version x := by
  have hsent := h.sent_le x
  unfold MappingBuffers.markDirty
  by_cases hx : x = b
  · subst hx
    simp only [Function.update_self]
    omega
  · simp only [Function.update_of_ne hx]
    exact hsent

theorem markDirty (h : AtomicInv st) (b : ℕ) :
    AtomicInv { st with bufs := st.bufs.markDirtyInode b } := by
  have hself : (st.bufs.markDirty b).dirty b = true := Function.update_self ..
  have hother {x : ℕ} (hx : x ≠ b) : (st.bufs.markDirty b).dirty x = st.bufs.dirty x :=
    Function.update_of_ne hx _ _
  unfold MappingBuffers.markDirtyInode
  dsimp only
  split_ifs with hb
  · -- it is on a list already: queued for the first time, or submitted before
    refine ⟨⟨h.listed.nodup, h.listed.assoc⟩, h.dirty_iff_markDirty b, h.sent_le_markDirty b,
      fun x => ?_, h.mem_pending⟩
    show x ∈ st.bufs.privateList ↔ (st.bufs.markDirty b).dirty x = true ∧ st.sent x = 0
    by_cases hx : x = b
    · subst hx
      rw [hself, eq_self, true_and]
      refine ⟨fun hmem => ((h.mem_private x).mp hmem).2, fun hzero => ?_⟩
      refine ((h.listed.assoc x).mp hb).resolve_right fun hpending => ?_
      exact (h.mem_pending x).mp hpending hzero
    · rw [hother hx]
      exact h.mem_private x
  · -- it is on no list, so no call has submitted it
    have hnot := h.listed.not_mem (Bool.eq_false_iff.mpr hb)
    rw [List.mem_append, not_or] at hnot
    have hzero : st.sent b = 0 := by
      by_contra hne
      exact hnot.2 ((h.mem_pending b).mpr hne)
    have hmoved := h.listed.moveTail b
    refine ⟨⟨hmoved.nodup, hmoved.assoc⟩, h.dirty_iff_markDirty b, h.sent_le_markDirty b,
      fun x => ?_, fun x => ?_⟩
    · show x ∈ st.bufs.privateList.erase b ++ [b] ↔
        (st.bufs.markDirty b).dirty x = true ∧ st.sent x = 0
      rw [List.erase_of_not_mem hnot.1]
      by_cases hx : x = b
      · subst hx
        simp [hself, hzero]
      · simp [hother hx, hx, h.mem_private x]
    · show x ∈ st.bufs.pendingList.erase b ↔ st.sent x ≠ 0
      rw [List.erase_of_not_mem hnot.2]
      exact h.mem_pending x

theorem submits (h : AtomicInv st) :
    SubmitsList st st.submitMappingBuffers st.bufs.privateList :=
  submitBuffersList_spec _ st rfl h.listed fun b hb => ((h.mem_private b).mp hb).1

theorem atomicFile (h : AtomicInv st) (err : ℤ) : AtomicInv (st.ext4AtomicFile err).1 := by
  unfold AtomicFile.ext4AtomicFile
  dsimp only
  split_ifs with herr
  · exact h
  · have hs := h.submits
    -- a buffer on the list is sent now, and its contents are not the initial ones
    have hpos {b : ℕ} (hb : b ∈ st.bufs.privateList) : 0 < st.bufs.version b := by
      obtain ⟨hdirty, hzero⟩ := (h.mem_private b).mp hb
      have hunsent := (h.dirty_iff b).mp hdirty
      unfold AtomicFile.Unsent at hunsent
      omega
    refine ⟨hs.listed, fun b => ?_, fun b => ?_, fun b => ?_, fun b => ?_⟩
    · rw [hs.dirty b, AtomicFile.Unsent, hs.version]
      by_cases hb : b ∈ st.bufs.privateList
      · simp [hb, hs.sent_mem b hb]
      · simp only [hb, not_false_eq_true, and_true, hs.sent_not_mem b hb]
        exact h.dirty_iff b
    · rw [hs.version]
      by_cases hb : b ∈ st.bufs.privateList
      · exact Nat.le_of_eq (hs.sent_mem b hb)
      · rw [hs.sent_not_mem b hb]
        exact h.sent_le b
    · rw [hs.privateList, hs.dirty b]
      refine ⟨nofun, ?_⟩
      rintro ⟨⟨hdirty, hb⟩, hzero⟩
      rw [hs.sent_not_mem b hb] at hzero
      exact absurd ((h.mem_private b).mpr ⟨hdirty, hzero⟩) hb
    · rw [hs.mem_pending b]
      by_cases hb : b ∈ st.bufs.privateList
      · simp only [hb, true_or, true_iff, hs.sent_mem b hb]
        exact Nat.ne_of_gt (hpos hb)
      · simp only [hb, false_or, hs.sent_not_mem b hb]
        exact h.mem_pending b

theorem complete (h : AtomicInv st) (b : ℕ) (u : Bool) :
    AtomicInv { st with bufs := st.bufs.endWrite b u } :=
  ⟨⟨h.listed.nodup, h.listed.assoc⟩, h.dirty_iff, h.sent_le, h.mem_private, h.mem_pending⟩

theorem step (h : AtomicInv st) {st' : AtomicFile} {op : AtomicOp} (hs : st.step op = some st') :
    AtomicInv st' := by
  cases op with
  | markDirty b =>
      obtain rfl := Option.some.inj hs
      exact h.markDirty b
  | atomicFile err =>
      obtain rfl := Option.some.inj hs
      exact h.atomicFile err
  | complete b u =>
      simp only [AtomicFile.step] at hs
      split_ifs at hs
      obtain rfl := Option.some.inj hs
      exact h.complete b u

/-- A call submits all that is unsent exactly when none of it has been submitted before and
the data is written. -/
theorem submitsAll_iff (h : AtomicInv st) (op : AtomicOp) :
    SubmitsAll st op ↔ FirstTime st op := by
  cases op with
  | atomicFile err =>
      have hafter := (h.atomicFile err).dirty_iff
      show (0 = 0 → ∀ b, ¬ (st.ext4AtomicFile err).1.Unsent b) ↔
        ∀ b, st.Unsent b → st.sent b = 0 ∧ err = 0
      simp only [forall_const]
      refine forall_congr' fun b => ?_
      rw [← hafter b, ← h.dirty_iff b]
      by_cases herr : err = 0
      · -- what is not on the list stays dirty
        have hdirty : (st.ext4AtomicFile err).1.bufs.dirty b = true ↔
            st.bufs.dirty b = true ∧ b ∉ st.bufs.privateList := by
          simp only [AtomicFile.ext4AtomicFile, herr, ne_eq, not_true_eq_false, if_false]
          exact h.submits.dirty b
        rw [hdirty, h.mem_private b]
        tauto
      · have hsame : (st.ext4AtomicFile err).1 = st := if_pos herr
        rw [hsame]
        tauto
  | _ => exact Iff.rfl

end AtomicInv

/-- **Every call submits every buffer dirtied since it was last submitted** exactly when each
call finds no such buffer that an earlier call submitted, and, if there is one at all, its
data is written. -/
theorem atomic_file_submits_iff (uptodate : ℕ → Bool) (ops : List AtomicOp) :
    Run.Along AtomicFile.step SubmitsAll (AtomicFile.init uptodate) ops ↔
      Run.Along AtomicFile.step FirstTime (AtomicFile.init uptodate) ops :=
  Run.along_iff (fun _ op h => h.submitsAll_iff op) (fun _ _ _ h _ hs => h.step hs)
    (AtomicInv.init uptodate) ops

/-- Buffer 1 is dirtied, submitted and dirtied again: the next call returns 0 and does not
submit it.  A call whose data cannot be written with `-EIO` submits nothing and returns 0. -/
theorem redirtied_buffer_lost :
    (∃ st, Run.run AtomicFile.step (AtomicFile.init fun _ => true)
        [.markDirty 1, .atomicFile 0, .markDirty 1] = some st ∧
      (st.ext4AtomicFile 0).2 = 0 ∧ (st.ext4AtomicFile 0).1.Unsent 1) ∧
    ∃ st, Run.run AtomicFile.step (AtomicFile.init fun _ => true) [.markDirty 1] = some st ∧
      (st.ext4AtomicFile (-5)).2 = 0 ∧ (st.ext4AtomicFile (-5)).1.Unsent 1 := by
  decide +kernel

/-! ### The submit pass without other threads -/

namespace BufferPasses

variable {st : BufferPasses}

/-- What the submit pass tells of a dirty buffer that nobody touches. -/
def sentAs (m : MappingBuffers) (b : ℕ) : Visited :=
  ⟨⟨b, true, m.version b⟩, some true, some (m.version b)⟩

/-- Three steps take a dirty buffer from one list to the other. -/
theorem submit_list {b : ℕ} {l : List ℕ} (hpc : st.pc = .submitLoop)
    (hl : st.bufs.privateList = b :: l) (hb : st.bufs.dirty b = true) :
    Run.run step st (List.replicate 3 .pass) = some { st with
      bufs := (st.bufs.removeAssocQueue b).addPending b
      pc := .submitRetest ⟨b, true, st.bufs.version b⟩
      taken := st.taken ++ [⟨b, true, st.bufs.version b⟩] } := by
  simp [List.replicate, Run.run_cons, step, submitPass, hpc, hl, hb, goto,
    MappingBuffers.removeAssocQueue]

/-- Four more lock it, send it and go back to the list. -/
theorem submit_send {v : Visit} (hpc : st.pc = .submitRetest v)
    (hv : st.bufs.dirty v.buffer = true) (hfree : st.bufs.lock v.buffer = .free) :
    Run.run step st (List.replicate 4 .pass) = some
      ({ st with bufs := st.bufs.startWrite v.buffer }.visited v (some true)
        (some (st.bufs.version v.buffer)) .submitLoop) := by
  simp [List.replicate, Run.run_cons, step, submitPass, hpc, hv, hfree, goto, visited,
    MappingBuffers.setLock, MappingBuffers.startWrite, MappingBuffers.locked]

theorem submit_one {b : ℕ} {l : List ℕ} (hpc : st.pc = .submitLoop)
    (hl : st.bufs.privateList = b :: l) (hb : st.bufs.dirty b = true)
    (hfree : st.bufs.lock b = .free) :
    ∃ st', Run.run step st (List.replicate 7 .pass) = some st' ∧ st'.pc = .submitLoop ∧
      st'.bufs = ((st.bufs.removeAssocQueue b).addPending b).startWrite b ∧
      st'.visits = st.visits ++ [sentAs st.bufs b] := by
  rw [List.replicate_add 3 4, Run.run_append, submit_list hpc hl hb, Option.bind_some]
  exact ⟨_, submit_send rfl hb hfree, rfl, rfl, rfl⟩

/-- **The pass of the call** is the submit pass when no other thread takes a step, on a list
of dirty buffers that nobody has locked; and it submits each of them. -/
theorem submitPass_alone (l : List ℕ) (st : BufferPasses) (sent : ℕ → ℕ)
    (hpc : st.pc = .submitLoop) (hl : st.bufs.privateList = l) (hnodup : l.Nodup)
    (hdirty : ∀ b ∈ l, st.bufs.dirty b = true) (hfree : ∀ b ∈ l, st.bufs.lock b = .free) :
    ∃ st', Run.run step st (List.replicate (7 * l.length + 1) .pass) = some st' ∧
      st'.pc = .waitEnter ∧
      st'.bufs = (AtomicFile.submitBuffersList l.length ⟨st.bufs, sent⟩).bufs ∧
      st'.visits = st.visits ++ l.map (sentAs st.bufs) := by
  induction l generalizing st sent with
  | nil =>
      refine ⟨st.goto .waitEnter, ?_, rfl, rfl, (List.append_nil _).symm⟩
      simp [Run.run_cons, step, submitPass, hpc, hl]
  | cons b l ih =>
      obtain ⟨hbl, hnodup⟩ := List.nodup_cons.mp hnodup
      have hb := hdirty b List.mem_cons_self
      have hne {x : ℕ} (hx : x ∈ l) : x ≠ b := by
        rintro rfl
        exact hbl hx
      obtain ⟨st₁, hrun₁, hpc₁, hbufs₁, hvisits₁⟩ :=
        submit_one hpc hl hb (hfree b List.mem_cons_self)
      have hl₁ : st₁.bufs.privateList = l := by
        rw [hbufs₁]
        show st.bufs.privateList.erase b = l
        rw [hl, List.erase_cons_head]
      have hdirty₁ (x : ℕ) (hx : x ∈ l) : st₁.bufs.dirty x = true := by
        rw [hbufs₁, ← hdirty x (List.mem_cons_of_mem _ hx)]
        exact Function.update_of_ne (hne hx) _ _
      have hfree₁ (x : ℕ) (hx : x ∈ l) : st₁.bufs.lock x = .free := by
        rw [hbufs₁, ← hfree x (List.mem_cons_of_mem _ hx)]
        exact Function.update_of_ne (hne hx) _ _
      obtain ⟨st', hrun, hpc', hbufs, hvisits⟩ :=
        ih st₁ (Function.update sent b (st.bufs.version b)) hpc₁ hl₁ hnodup hdirty₁ hfree₁
      have hversion : sentAs st₁.bufs = sentAs st.bufs := by
        rw [hbufs₁]
        rfl
      refine ⟨st', ?_, hpc', ?_, ?_⟩
      · have hlength : 7 * (b :: l).length + 1 = 7 + (7 * l.length + 1) := by
          rw [List.length_cons]
          omega
        rw [hlength, List.replicate_add, Run.run_append, hrun₁]
        exact hrun
      · rw [hbufs, hbufs₁]
        simp only [List.length_cons, AtomicFile.submitBuffersList, hl]
        rw [AtomicFile.submitBuffer_of_dirty hb]
      · rw [hvisits, hvisits₁, hversion, List.append_assoc, List.map_cons, List.singleton_append]

end BufferPasses

end CcNvme

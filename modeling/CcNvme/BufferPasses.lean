/-
CcNvme/BufferPasses.lean

`mqfs_submit_mapping_buffers` and `mqfs_wait_mapping_buffers`.  The submit pass takes the
buffers from `private_list`, submits the dirty ones and puts them on `fsmeta_pending_list`;
the wait pass takes them from there, puts those that are dirty again back on
`private_list`, and waits.

The two passes are one thread here, of which every test and every list operation is a step;
other threads dirty buffers, write them back and complete writes in between, and change the
lists when `private_lock` is free.  `buffers_kept` says that no dirty buffer is lost.
-/
import CcNvme.Lib.Run
import CcNvme.MappingBuffers
import Mathlib.Data.Int.Notation

namespace CcNvme

/-! ### The passes -/

/-- A buffer taken by the submit pass: whether it was dirty, and its contents then. -/
structure Visit where
  buffer : ℕ
  dirty : Bool
  version : ℕ
  deriving DecidableEq

/-- What became of it: whether it was dirty when it was locked, if it was locked, and what
was submitted. -/
structure Visited extends Visit where
  lockedDirty : Option Bool
  sent : Option ℕ

/-- Where the thread is; it holds `private_lock` from a loop head to the step that leaves. -/
inductive PassPc where
  /-- before the lockless test of `list_empty` -/
  | submitEnter
  /-- before `spin_lock` -/
  | submitRelock
  | submitLoop
  /-- taken off the list, before the test of the dirty bit -/
  | submitTest (v : Visit)
  /-- before the test of the lock -/
  | submitTestLocked (v : Visit)
  /-- before it is put on the pending list -/
  | submitAdd (v : Visit)
  /-- before the second test of the dirty bit -/
  | submitRetest (v : Visit)
  /-- before `lock_buffer` -/
  | submitLock (v : Visit)
  /-- before `test_clear_buffer_dirty` -/
  | submitSend (v : Visit) (lockedDirty : Bool)
  /-- before `spin_lock` in the wait pass -/
  | waitEnter
  | waitLoop
  /-- taken off the pending list, before the test of the dirty bit -/
  | waitTest (b : ℕ)
  /-- before it is put back on `private_list` -/
  | waitAdd (b : ℕ)
  /-- before `wait_on_buffer` -/
  | waitBuffer (b : ℕ)
  /-- before the test of `buffer_uptodate` -/
  | waitCheck (b : ℕ)
  /-- before `spin_lock` in `osync_buffers_list` -/
  | osyncEnter
  | osyncScan (rest : List ℕ)
  | osyncWait (b : ℕ)
  | osyncCheck (b : ℕ)
  | done (ret : ℤ)
  deriving DecidableEq

/-- Where in `mark_buffer_dirty_inode` a thread is. -/
inductive MarkPc where
  | idle
  /-- before the read of `b_assoc_map` -/
  | marked (b : ℕ)
  /-- `b_assoc_map` was NULL, before `list_move_tail` -/
  | queueing (b : ℕ)

structure BufferPasses where
  bufs : MappingBuffers
  pc : PassPc
  marker : ℕ → MarkPc
  err : ℤ
  err2 : ℤ
  /-- the buffers taken by the submit pass -/
  taken : List Visit
  visits : List Visited
  /-- buffers and contents written by others -/
  cleaned : List (ℕ × ℕ)
  /-- buffers waited for, and whether they were up to date -/
  waited : List (ℕ × Bool)

def PassPc.holdsLock : PassPc → Bool
  | .submitLoop | .submitTest _ | .submitTestLocked _ | .submitAdd _ | .submitRetest _
  | .waitLoop | .waitTest _ | .waitAdd _ | .osyncScan _ => true
  | _ => false

inductive BufferOp where
  /-- the next step of the passes -/
  | pass
  /-- thread `j` changes buffer `b` and calls `mark_buffer_dirty_inode` -/
  | markDirty (j b : ℕ)
  /-- thread `j` reads `b_assoc_map` -/
  | readAssoc (j : ℕ)
  /-- thread `j` queues its buffer under `private_lock` -/
  | queue (j : ℕ)
  /-- another thread writes `b` back -/
  | writeback (b : ℕ)
  /-- the write of `b` completes -/
  | complete (b : ℕ) (uptodate : Bool)

namespace BufferPasses

def goto (st : BufferPasses) (q : PassPc) : BufferPasses := { st with pc := q }

/-- The pass is through with a buffer. -/
def visited (st : BufferPasses) (v : Visit) (lockedDirty : Option Bool) (sent : Option ℕ)
    (q : PassPc) : BufferPasses :=
  { st with visits := st.visits ++ [⟨v, lockedDirty, sent⟩], pc := q }

/-- `if (!buffer_uptodate(bh)) err = -EIO` -/
def eioUnless (uptodate : Bool) (err : ℤ) : ℤ := if uptodate then err else -5

/-- `mqfs_submit_mapping_buffers` -/
def submitPass (st : BufferPasses) : Option BufferPasses :=
  match st.pc with
  | .submitEnter =>
      some (st.goto (if st.bufs.privateList = [] then .waitEnter else .submitRelock))
  | .submitRelock => some (st.goto .submitLoop)
  | .submitLoop =>
      match st.bufs.privateList with
      | [] => some (st.goto .waitEnter)
      | b :: _ =>
          let v : Visit := ⟨b, st.bufs.dirty b, st.bufs.version b⟩
          some { st with
            bufs := st.bufs.removeAssocQueue b
            pc := .submitTest v
            taken := st.taken ++ [v] }
  | .submitTest v =>
      some (st.goto (if st.bufs.dirty v.buffer then .submitAdd v else .submitTestLocked v))
  | .submitTestLocked v =>
      if st.bufs.locked v.buffer then some (st.goto (.submitAdd v))
      else some (st.visited v none none .submitLoop)
  | .submitAdd v =>
      some { st with bufs := st.bufs.addPending v.buffer, pc := .submitRetest v }
  | .submitRetest v =>
      if st.bufs.dirty v.buffer then some (st.goto (.submitLock v))
      else some (st.visited v none none .submitLoop)
  | .submitLock v =>
      if st.bufs.locked v.buffer then none
      else some { st with
        bufs := st.bufs.setLock v.buffer .owned
        pc := .submitSend v (st.bufs.dirty v.buffer) }
  | .submitSend v d =>
      if st.bufs.dirty v.buffer then
        some ({ st with bufs := st.bufs.startWrite v.buffer }.visited v (some d)
          (some (st.bufs.version v.buffer)) .submitRelock)
      else
        some ({ st with bufs := st.bufs.setLock v.buffer .free }.visited v (some d) none
          .submitRelock)
  | _ => none

/-- `mqfs_wait_mapping_buffers` -/
def waitPass (st : BufferPasses) : Option BufferPasses :=
  match st.pc with
  | .waitEnter => some (st.goto .waitLoop)
  | .waitLoop =>
      match st.bufs.pendingList.getLast? with
      | none => some (st.goto .osyncEnter)
      | some b => some { st with bufs := st.bufs.removeAssocQueue b, pc := .waitTest b }
  | .waitTest b => some (st.goto (if st.bufs.dirty b then .waitAdd b else .waitBuffer b))
  | .waitAdd b => some { st with bufs := st.bufs.addPrivate b, pc := .waitBuffer b }
  | .waitBuffer b => if st.bufs.locked b then none else some (st.goto (.waitCheck b))
  | .waitCheck b =>
      some { st with
        err := eioUnless (st.bufs.uptodate b) st.err
        waited := st.waited ++ [(b, st.bufs.uptodate b)]
        pc := .waitEnter }
  | .osyncEnter => some (st.goto (.osyncScan st.bufs.privateList.reverse))
  | .osyncScan [] => some (st.goto (.done (if st.err ≠ 0 then st.err else st.err2)))
  | .osyncScan (b :: rest) =>
      some (st.goto (if st.bufs.locked b then .osyncWait b else .osyncScan rest))
  | .osyncWait b => if st.bufs.locked b then none else some (st.goto (.osyncCheck b))
  | .osyncCheck b =>
      some { st with
        err2 := eioUnless (st.bufs.uptodate b) st.err2
        waited := st.waited ++ [(b, st.bufs.uptodate b)]
        pc := .osyncEnter }
  | _ => none

def step (st : BufferPasses) : BufferOp → Option BufferPasses
  | .pass => (st.submitPass).or st.waitPass
  | .markDirty j b =>
      match st.marker j with
      | .idle => some { st with
          bufs := st.bufs.markDirty b
          marker := Function.update st.marker j (.marked b) }
      | _ => none
  | .readAssoc j =>
      match st.marker j with
      | .marked b => some { st with
          marker := Function.update st.marker j
            (if st.bufs.assoc b then .idle else .queueing b) }
      | _ => none
  | .queue j =>
      match st.marker j, st.pc.holdsLock with
      | .queueing b, false => some { st with
          bufs := st.bufs.moveTail b
          marker := Function.update st.marker j .idle }
      | _, _ => none
  | .writeback b =>
      if st.bufs.dirty b && !st.bufs.locked b then
        some { st with
          bufs := st.bufs.startWrite b
          cleaned := st.cleaned ++ [(b, st.bufs.version b)] }
      else none
  | .complete b uptodate =>
      if st.bufs.lock b = .inFlight then some { st with bufs := st.bufs.endWrite b uptodate }
      else none

/-- Before the submit pass, with no thread in `mark_buffer_dirty_inode`. -/
def init (m : MappingBuffers) : BufferPasses :=
  ⟨m, .submitEnter, fun _ => .idle, 0, 0, [], [], [], []⟩

end BufferPasses

/-! ### The property -/

/-- The loop of the wait pass is over. -/
def PassPc.waitOver : PassPc → Bool
  | .osyncEnter | .osyncScan _ | .osyncWait _ | .osyncCheck _ | .done _ => true
  | _ => false

/-- The buffer the submit pass is at. -/
def PassPc.visit : PassPc → Option Visit
  | .submitTest v | .submitTestLocked v | .submitAdd v | .submitRetest v | .submitLock v
  | .submitSend v _ => some v
  | _ => none

structure BuffersKept (st : BufferPasses) : Prop where
  /-- the pass tells of every buffer it has taken -/
  taken : st.taken = st.visits.map Visited.toVisit ++ st.pc.visit.toList
  /-- what was dirty when it was taken and when it was locked is submitted, no older -/
  submitted : ∀ l ∈ st.visits, l.dirty = true → l.lockedDirty = some true →
    ∃ n, l.sent = some n ∧ l.version ≤ n
  /-- what was dirty when it was taken and not when it was locked has been written by others -/
  passedOver : ∀ l ∈ st.visits, l.dirty = true → l.lockedDirty ≠ some true →
    ∃ n, (l.buffer, n) ∈ st.cleaned ∧ l.version ≤ n
  pendingEmpty : st.pc.waitOver → st.bufs.pendingList = []
  queued : ∀ ret, st.pc = .done ret → (∀ j, st.marker j = .idle) → ∀ b, st.bufs.dirty b = true →
    b ∈ st.bufs.privateList ∧ st.bufs.assoc b = true
  oneList : (st.bufs.privateList ++ st.bufs.pendingList).Nodup
  error : ∀ ret, st.pc = .done ret → (ret = 0 ∨ ret = -5) ∧
    (ret = -5 ↔ ∃ b, (b, false) ∈ st.waited)

/-! ### The invariant -/

/-- The buffer a thread has dirtied and has yet to queue or to find queued. -/
def MarkPc.buffer : MarkPc → Option ℕ
  | .marked b | .queueing b => some b
  | .idle => none

/-- The buffer that is taken off a list and not put on one. -/
def PassPc.inHand : PassPc → Option ℕ
  | .submitTest v | .submitTestLocked v | .submitAdd v => some v.buffer
  | .waitTest b | .waitAdd b => some b
  | _ => none

/-- The buffer that is put on a list again if it is dirty. -/
def PassPc.owed : PassPc → Option ℕ
  | .submitTest v | .submitAdd v => some v.buffer
  | .waitTest b | .waitAdd b => some b
  | _ => none

/-- Others have written the buffer since it was taken. -/
def Visit.WrittenBack (cleaned : List (ℕ × ℕ)) (v : Visit) : Prop :=
  ∃ n, (v.buffer, n) ∈ cleaned ∧ v.version ≤ n

/-- A buffer that was dirty when it was taken is dirty still or has been written by others. -/
structure Visit.Ok (m : MappingBuffers) (cleaned : List (ℕ × ℕ)) (v : Visit) : Prop where
  version_le : v.version ≤ m.version v.buffer
  kept : v.dirty = true → m.dirty v.buffer = true ∨ v.WrittenBack cleaned

/-- What holds where the thread is. -/
def PassPc.Ok (m : MappingBuffers) (cleaned : List (ℕ × ℕ)) : PassPc → Prop
  | .submitTest v | .submitAdd v | .submitRetest v | .submitLock v => v.Ok m cleaned
  | .submitTestLocked v => v.Ok m cleaned ∧ (v.dirty = true → v.WrittenBack cleaned)
  | .submitSend v d => v.Ok m cleaned ∧ m.lock v.buffer = .owned ∧
      (d = true → m.dirty v.buffer = true) ∧
      (d = false → v.dirty = true → v.WrittenBack cleaned)
  | .osyncEnter | .osyncScan _ | .osyncWait _ | .osyncCheck _ | .done _ => m.pendingList = []
  | _ => True

/-- What holds of a buffer that the submit pass is through with. -/
def Visited.Ok (cleaned : List (ℕ × ℕ)) (l : Visited) : Prop :=
  l.dirty = true →
    if l.lockedDirty = some true then ∃ n, l.sent = some n ∧ l.version ≤ n
    else l.toVisit.WrittenBack cleaned

/-- The error codes tell of the buffers waited for. -/
structure ErrorsOk (st : BufferPasses) : Prop where
  err : st.err = 0 ∨ st.err = -5
  err2 : st.err2 = 0 ∨ st.err2 = -5
  waited : (st.err = -5 ∨ st.err2 = -5) ↔ ∃ b, (b, false) ∈ st.waited
  ret : ∀ ret, st.pc = .done ret → ret = if st.err ≠ 0 then st.err else st.err2

structure PassesInv (st : BufferPasses) : Prop where
  listed : st.bufs.Listed
  inHand : ∀ b, st.pc.inHand = some b → st.bufs.assoc b = false
  owed : ∀ b, st.bufs.dirty b = true →
    st.bufs.assoc b = true ∨ (∃ j, (st.marker j).buffer = some b) ∨ st.pc.owed = some b
  pc : st.pc.Ok st.bufs st.cleaned
  visits : ∀ l ∈ st.visits, l.Ok st.cleaned
  errors : ErrorsOk st

variable {st st' : BufferPasses}

theorem Visit.Ok.writtenBack {m : MappingBuffers} {cleaned : List (ℕ × ℕ)} {v : Visit}
    (h : v.Ok m cleaned) (hclean : m.dirty v.buffer = false) (hv : v.dirty = true) :
    v.WrittenBack cleaned := by
  refine (h.kept hv).resolve_left fun hdirty => ?_
  rw [hclean] at hdirty
  exact Bool.false_ne_true hdirty

theorem PassPc.inHand_of_owed {q : PassPc} {b : ℕ} (h : q.owed = some b) :
    q.inHand = some b := by
  cases q with
  | submitTest | submitAdd | waitTest | waitAdd => exact h
  | _ => cases h

namespace PassesInv

/-! ### Steps of the passes -/

/-- The thread reads something and goes on. -/
theorem goto (h : PassesInv st) {q : PassPc}
    (hin : ∀ b, q.inHand = some b → st.bufs.assoc b = false)
    (howed : ∀ b, st.bufs.dirty b = true → st.pc.owed = some b → q.owed = some b)
    (hok : q.Ok st.bufs st.cleaned)
    (hret : ∀ ret, q = .done ret → ret = if st.err ≠ 0 then st.err else st.err2) :
    PassesInv (st.goto q) :=
  ⟨h.listed, hin, fun b hb => (h.owed b hb).imp id (Or.imp id (howed b hb)), hok, h.visits,
    ⟨h.errors.err, h.errors.err2, h.errors.waited, hret⟩⟩

theorem log (h : PassesInv st) {l : Visited} (hl : l.Ok st.cleaned) :
    PassesInv { st with visits := st.visits ++ [l] } := by
  refine ⟨h.listed, h.inHand, h.owed, h.pc, fun l' hl' => ?_, ⟨h.errors.err, h.errors.err2,
    h.errors.waited, h.errors.ret⟩⟩
  rcases List.mem_append.mp hl' with hold | hnew
  · exact h.visits l' hold
  · obtain rfl := List.mem_singleton.mp hnew
    exact hl

/-- The thread takes a buffer off its list. -/
theorem remove (h : PassesInv st) {b : ℕ} {q : PassPc} (hin : q.inHand = some b)
    (howed : q.owed = some b) (hnone : st.pc.owed = none)
    (hok : q.Ok (st.bufs.removeAssocQueue b) st.cleaned) (t : List Visit) :
    PassesInv { st with bufs := st.bufs.removeAssocQueue b, pc := q, taken := t } := by
  refine ⟨h.listed.removeAssocQueue b, fun x hx => ?_, fun x hx => ?_, hok, h.visits,
    ⟨h.errors.err, h.errors.err2, h.errors.waited, fun ret hret => ?_⟩⟩
  · obtain rfl := Option.some.inj (hin.symm.trans hx)
    exact Function.update_self ..
  · by_cases hxb : x = b
    · subst hxb
      exact Or.inr (Or.inr howed)
    · have hassoc : (st.bufs.removeAssocQueue b).assoc x = st.bufs.assoc x :=
        Function.update_of_ne hxb _ _
      show (st.bufs.removeAssocQueue b).assoc x = true ∨ _
      rw [hassoc]
      refine (h.owed x hx).imp id (Or.imp id fun hold => ?_)
      rw [hnone] at hold
      cases hold
  · have hq : q = .done ret := hret
    rw [hq] at hin
    cases hin

/-- The thread puts the buffer in its hand on a list. -/
theorem add (h : PassesInv st) {b : ℕ} {q : PassPc} {m : MappingBuffers} (hm : m.Listed)
    (hassoc : m.assoc = Function.update st.bufs.assoc b true) (hdirty : m.dirty = st.bufs.dirty)
    (hin : st.pc.inHand = some b) (hnone : q.inHand = none) (hok : q.Ok m st.cleaned)
    (hdone : ∀ ret, q ≠ .done ret) : PassesInv { st with bufs := m, pc := q } := by
  refine ⟨hm, fun x hx => ?_, fun x hx => ?_, hok, h.visits,
    ⟨h.errors.err, h.errors.err2, h.errors.waited, fun ret hret => absurd hret (hdone ret)⟩⟩
  · rw [hnone] at hx
    cases hx
  · show m.assoc x = true ∨ _
    rw [hassoc]
    by_cases hxb : x = b
    · subst hxb
      exact Or.inl (Function.update_self ..)
    · rw [Function.update_of_ne hxb]
      have hx' : st.bufs.dirty x = true := hdirty ▸ hx
      refine (h.owed x hx').imp id (Or.imp id fun hold => ?_)
      exact absurd (Option.some.inj ((PassPc.inHand_of_owed hold).symm.trans hin)) hxb

/-- The thread locks, unlocks or writes a buffer that is on a list. -/
theorem change (h : PassesInv st) {q : PassPc} {m : MappingBuffers}
    (hassoc : m.assoc = st.bufs.assoc) (hprivate : m.privateList = st.bufs.privateList)
    (hpending : m.pendingList = st.bufs.pendingList)
    (hdirty : ∀ b, m.dirty b = true → st.bufs.dirty b = true) (hnone : st.pc.owed = none)
    (hin : q.inHand = none) (hok : q.Ok m st.cleaned) (hdone : ∀ ret, q ≠ .done ret) :
    PassesInv { st with bufs := m, pc := q } := by
  refine ⟨⟨?_, fun b => ?_⟩, fun b hb => ?_, fun b hb => ?_, hok, h.visits,
    ⟨h.errors.err, h.errors.err2, h.errors.waited, fun ret hret => absurd hret (hdone ret)⟩⟩
  · rw [hprivate, hpending]
    exact h.listed.nodup
  · rw [hassoc, hprivate, hpending]
    exact h.listed.assoc b
  · rw [hin] at hb
    cases hb
  · show m.assoc b = true ∨ _
    rw [hassoc]
    refine (h.owed b (hdirty b hb)).imp id (Or.imp id fun hold => ?_)
    rw [hnone] at hold
    cases hold

/-- The thread is through with a buffer. -/
theorem visited (h : PassesInv st) {v : Visit} {d : Option Bool} {sent : Option ℕ} {q : PassPc}
    (hl : Visited.Ok st.cleaned ⟨v, d, sent⟩) (hin : q.inHand = none)
    (howed : ∀ b, st.bufs.dirty b = true → st.pc.owed ≠ some b)
    (hok : q.Ok st.bufs st.cleaned) (hdone : ∀ ret, q ≠ .done ret) :
    PassesInv (st.visited v d sent q) := by
  refine (h.log hl).goto (fun b hb => ?_) (fun b hb hold => absurd hold (howed b hb)) hok
    fun ret hret => absurd hret (hdone ret)
  rw [hin] at hb
  cases hb

end PassesInv

/-- The error of a wait is set when the buffer is not up to date. -/
theorem eioUnless_eq_iff {u : Bool} {e : ℤ} :
    BufferPasses.eioUnless u e = -5 ↔ u = false ∨ e = -5 := by
  cases u <;> simp [BufferPasses.eioUnless]

theorem eioUnless_cases {u : Bool} {e : ℤ} (h : e = 0 ∨ e = -5) :
    BufferPasses.eioUnless u e = 0 ∨ BufferPasses.eioUnless u e = -5 := by
  cases u
  · exact Or.inr rfl
  · exact h

theorem exists_not_uptodate_iff {waited : List (ℕ × Bool)} {b : ℕ} {u : Bool} :
    (∃ x, (x, false) ∈ waited ++ [(b, u)]) ↔ u = false ∨ ∃ x, (x, false) ∈ waited := by
  cases u <;> simp

/-- A buffer that is passed over has been written by others if it was dirty when taken. -/
theorem Visited.Ok.passedOver {cleaned : List (ℕ × ℕ)} {v : Visit} {d : Option Bool}
    {sent : Option ℕ} (hd : d ≠ some true) (hv : v.dirty = true → v.WrittenBack cleaned) :
    Visited.Ok cleaned ⟨v, d, sent⟩ := by
  intro hdirty
  rw [if_neg hd]
  exact hv hdirty

namespace PassesInv

/-- The thread has waited for a buffer of the pending list. -/
theorem waitCheck (h : PassesInv st) {b : ℕ} (hpc : st.pc = .waitCheck b) :
    PassesInv { st with
      err := BufferPasses.eioUnless (st.bufs.uptodate b) st.err
      waited := st.waited ++ [(b, st.bufs.uptodate b)]
      pc := .waitEnter } := by
  refine ⟨h.listed, nofun, fun x hx => ?_, trivial, h.visits,
    ⟨eioUnless_cases h.errors.err, h.errors.err2, ?_, nofun⟩⟩
  · have howed := h.owed x hx
    rw [hpc] at howed
    exact howed
  · rw [exists_not_uptodate_iff, ← h.errors.waited, eioUnless_eq_iff, or_assoc]

/-- Or for one of `private_list` that was locked. -/
theorem osyncCheck (h : PassesInv st) {b : ℕ} (hpc : st.pc = .osyncCheck b) :
    PassesInv { st with
      err2 := BufferPasses.eioUnless (st.bufs.uptodate b) st.err2
      waited := st.waited ++ [(b, st.bufs.uptodate b)]
      pc := .osyncEnter } := by
  have hok := h.pc
  rw [hpc] at hok
  refine ⟨h.listed, nofun, fun x hx => ?_, hok, h.visits,
    ⟨h.errors.err, eioUnless_cases h.errors.err2, ?_, nofun⟩⟩
  · have howed := h.owed x hx
    rw [hpc] at howed
    exact howed
  · rw [exists_not_uptodate_iff, ← h.errors.waited, eioUnless_eq_iff, or_left_comm]

/-- The thread goes on with no buffer in its hand. -/
theorem goto_free (h : PassesInv st) {q : PassPc} (howed : st.pc.owed = none)
    (hin : q.inHand = none) (hok : q.Ok st.bufs st.cleaned) (hdone : ∀ ret, q ≠ .done ret) :
    PassesInv (st.goto q) := by
  refine h.goto (fun b hb => ?_) (fun b _ hb => ?_) hok fun ret hret => absurd hret (hdone ret)
  · rw [hin] at hb
    cases hb
  · rw [howed] at hb
    cases hb

/-- A step of the submit pass. -/
theorem submitPass (h : PassesInv st) (hs : st.submitPass = some st') : PassesInv st' := by
  have hok := h.pc
  have hin := h.inHand
  unfold BufferPasses.submitPass at hs
  rcases e : st.pc with - | - | - | v | v | v | v | v | ⟨v, d⟩ | - | - | b | b | b | b | - | rest |
    b | b | ret <;> rw [e] at hs hok hin
  case submitEnter =>
    obtain rfl := Option.some.inj hs
    split_ifs
    · exact h.goto_free (by rw [e]; rfl) rfl trivial nofun
    · exact h.goto_free (by rw [e]; rfl) rfl trivial nofun
  case submitRelock =>
    obtain rfl := Option.some.inj hs
    exact h.goto_free (by rw [e]; rfl) rfl trivial nofun
  case submitLoop =>
    dsimp only at hs
    split at hs
    · obtain rfl := Option.some.inj hs
      exact h.goto_free (by rw [e]; rfl) rfl trivial nofun
    · rename_i b _ _
      obtain rfl := Option.some.inj hs
      exact h.remove (q := .submitTest ⟨b, _, _⟩) rfl rfl (by rw [e]; rfl)
        ⟨Nat.le_refl _, Or.inl⟩ _
  case submitTest =>
    obtain rfl := Option.some.inj hs
    split_ifs with hdirty
    · refine h.goto hin (fun b _ hb => ?_) hok nofun
      rw [e] at hb
      exact hb
    · have hclean := Bool.eq_false_iff.mpr hdirty
      refine h.goto hin (fun b hb hold => ?_) ⟨hok, hok.writtenBack hclean⟩ nofun
      rw [e] at hold
      obtain rfl := Option.some.inj hold
      exact absurd hb hdirty
  case submitTestLocked =>
    dsimp only at hs
    split_ifs at hs
    · obtain rfl := Option.some.inj hs
      refine h.goto hin (fun b _ hb => ?_) hok.1 nofun
      rw [e] at hb
      cases hb
    · obtain rfl := Option.some.inj hs
      exact h.visited (.passedOver nofun hok.2) rfl (by simp [e, PassPc.owed]) trivial nofun
  case submitAdd =>
    obtain rfl := Option.some.inj hs
    exact h.add (h.listed.addPending (hin _ rfl)) rfl rfl (by rw [e]; rfl) rfl
      ⟨hok.version_le, hok.kept⟩ nofun
  case submitRetest =>
    dsimp only at hs
    split_ifs at hs with hdirty
    · obtain rfl := Option.some.inj hs
      exact h.goto_free (by rw [e]; rfl) rfl hok nofun
    · obtain rfl := Option.some.inj hs
      have hclean := Bool.eq_false_iff.mpr hdirty
      exact h.visited (.passedOver nofun (hok.writtenBack hclean)) rfl
        (by simp [e, PassPc.owed]) trivial nofun
  case submitLock =>
    dsimp only at hs
    split_ifs at hs
    obtain rfl := Option.some.inj hs
    refine h.change rfl rfl rfl (fun _ => id) (by rw [e]; rfl) rfl ?_ nofun
    exact ⟨⟨hok.version_le, hok.kept⟩, Function.update_self .., id, hok.writtenBack⟩
  case submitSend =>
    obtain ⟨hvisit, hlock, hlocked, hnot⟩ := hok
    dsimp only at hs
    split_ifs at hs with hdirty
    · obtain rfl := Option.some.inj hs
      refine (h.change (q := .submitRelock) (m := st.bufs.startWrite v.buffer) rfl rfl rfl
        (fun b hb => ?_) (by rw [e]; rfl) rfl trivial nofun).log fun hv => ?_
      · by_cases hbv : b = v.buffer
        · subst hbv
          exact hdirty
        · rw [← hb]
          exact (Function.update_of_ne hbv _ _).symm
      · split_ifs with hd
        · exact ⟨_, rfl, hvisit.version_le⟩
        · exact hnot (by simpa using hd) hv
    · obtain rfl := Option.some.inj hs
      have hclean := Bool.eq_false_iff.mpr hdirty
      refine (h.change (q := .submitRelock) (m := st.bufs.setLock v.buffer .free) rfl rfl rfl
        (fun _ => id) (by rw [e]; rfl) rfl trivial nofun).log ?_
      refine .passedOver (fun hd => ?_) (hvisit.writtenBack hclean)
      exact hdirty (hlocked (Option.some.inj hd))
  all_goals cases hs

/-- A step of the wait pass. -/
theorem waitPass (h : PassesInv st) (hs : st.waitPass = some st') : PassesInv st' := by
  have hok := h.pc
  have hin := h.inHand
  unfold BufferPasses.waitPass at hs
  rcases e : st.pc with - | - | - | v | v | v | v | v | ⟨v, d⟩ | - | - | b | b | b | b | - | rest |
    b | b | ret <;> rw [e] at hs hok hin
  case waitEnter =>
    obtain rfl := Option.some.inj hs
    exact h.goto_free (by rw [e]; rfl) rfl trivial nofun
  case waitLoop =>
    dsimp only at hs
    split at hs
    · rename_i hempty
      obtain rfl := Option.some.inj hs
      exact h.goto_free (by rw [e]; rfl) rfl (List.getLast?_eq_none_iff.mp hempty) nofun
    · rename_i b _
      obtain rfl := Option.some.inj hs
      exact h.remove (q := .waitTest b) rfl rfl (by rw [e]; rfl) trivial st.taken
  case waitTest =>
    obtain rfl := Option.some.inj hs
    split_ifs with hdirty
    · refine h.goto hin (fun x _ hx => ?_) trivial nofun
      rw [e] at hx
      exact hx
    · refine h.goto nofun (fun x hx hold => ?_) trivial nofun
      rw [e] at hold
      obtain rfl := Option.some.inj hold
      exact absurd hx hdirty
  case waitAdd =>
    obtain rfl := Option.some.inj hs
    exact h.add (h.listed.addPrivate (hin _ rfl)) rfl rfl (by rw [e]; rfl) rfl trivial nofun
  case waitBuffer =>
    dsimp only at hs
    split_ifs at hs
    obtain rfl := Option.some.inj hs
    exact h.goto_free (by rw [e]; rfl) rfl trivial nofun
  case waitCheck =>
    obtain rfl := Option.some.inj hs
    exact h.waitCheck e
  case osyncEnter =>
    obtain rfl := Option.some.inj hs
    exact h.goto_free (by rw [e]; rfl) rfl hok nofun
  case osyncScan =>
    rcases rest with - | ⟨b, rest⟩
    · obtain rfl := Option.some.inj hs
      refine h.goto nofun (fun x _ hx => ?_) hok fun ret hret => (PassPc.done.inj hret).symm
      rw [e] at hx
      cases hx
    · obtain rfl := Option.some.inj hs
      split_ifs
      · exact h.goto_free (by rw [e]; rfl) rfl hok nofun
      · exact h.goto_free (by rw [e]; rfl) rfl hok nofun
  case osyncWait =>
    dsimp only at hs
    split_ifs at hs
    obtain rfl := Option.some.inj hs
    exact h.goto_free (by rw [e]; rfl) rfl hok nofun
  case osyncCheck =>
    obtain rfl := Option.some.inj hs
    exact h.osyncCheck e
  all_goals cases hs

end PassesInv

/-! ### Steps of the other threads -/

theorem Visit.WrittenBack.mono {cleaned cleaned' : List (ℕ × ℕ)} {v : Visit}
    (h : v.WrittenBack cleaned) (hsub : cleaned ⊆ cleaned') : v.WrittenBack cleaned' :=
  h.imp fun _ hn => ⟨hsub hn.1, hn.2⟩

/-- What others do, as far as the passes rely on it: contents do not get older, and a buffer
gets clean only by a write, and not while the submit pass has locked it. -/
structure Disturbed (m m' : MappingBuffers) (cleaned cleaned' : List (ℕ × ℕ)) : Prop where
  cleaned : cleaned ⊆ cleaned'
  version : ∀ b, m.version b ≤ m'.version b
  dirty : ∀ b, m.dirty b = true → m'.dirty b = true ∨ ∃ n, (b, n) ∈ cleaned' ∧ m.version b ≤ n
  owned : ∀ b, m.lock b = .owned → m'.lock b = .owned ∧ (m.dirty b = true → m'.dirty b = true)
  pending : m.pendingList = [] → m'.pendingList = []

theorem Visit.Ok.mono {m m' : MappingBuffers} {cleaned cleaned' : List (ℕ × ℕ)} {v : Visit}
    (h : v.Ok m cleaned) (hm : Disturbed m m' cleaned cleaned') : v.Ok m' cleaned' := by
  refine ⟨Nat.le_trans h.version_le (hm.version _), fun hv => ?_⟩
  rcases h.kept hv with hd | hback
  · exact (hm.dirty _ hd).imp id fun ⟨n, hn, hle⟩ => ⟨n, hn, Nat.le_trans h.version_le hle⟩
  · exact Or.inr (hback.mono hm.cleaned)

theorem PassPc.Ok.mono {m m' : MappingBuffers} {cleaned cleaned' : List (ℕ × ℕ)} {q : PassPc}
    (h : q.Ok m cleaned) (hm : Disturbed m m' cleaned cleaned') : q.Ok m' cleaned' := by
  cases q with
  | submitTest v | submitAdd v | submitRetest v | submitLock v => exact Visit.Ok.mono h hm
  | submitTestLocked v => exact ⟨h.1.mono hm, fun hv => (h.2 hv).mono hm.cleaned⟩
  | submitSend v d =>
      obtain ⟨hvisit, hlock, hlocked, hnot⟩ := h
      exact ⟨hvisit.mono hm, (hm.owned _ hlock).1, fun hd => (hm.owned _ hlock).2 (hlocked hd),
        fun hd hv => (hnot hd hv).mono hm.cleaned⟩
  | osyncEnter | osyncScan rest | osyncWait b | osyncCheck b | done ret => exact hm.pending h
  | _ => trivial

theorem Visited.Ok.mono {cleaned cleaned' : List (ℕ × ℕ)} {l : Visited} (h : l.Ok cleaned)
    (hsub : cleaned ⊆ cleaned') : l.Ok cleaned' := by
  intro hv
  have hl := h hv
  split_ifs at hl ⊢
  · exact hl
  · exact hl.mono hsub

namespace PassesInv

/-- A thread that goes on leaves the obligations of the others. -/
theorem owed_marker {marker : ℕ → MarkPc} {j x : ℕ} {q : MarkPc}
    (hj : (marker j).buffer ≠ some x) (h : ∃ j', (marker j').buffer = some x) :
    ∃ j', (Function.update marker j q j').buffer = some x := by
  obtain ⟨j', hj'⟩ := h
  have hne : j' ≠ j := by
    rintro rfl
    exact hj hj'
  exact ⟨j', by rw [Function.update_of_ne hne]; exact hj'⟩

theorem markDirty (h : PassesInv st) {j : ℕ} (hj : st.marker j = .idle) (b : ℕ) :
    PassesInv { st with
      bufs := st.bufs.markDirty b
      marker := Function.update st.marker j (.marked b) } := by
  have hdirty (x : ℕ) (hx : st.bufs.dirty x = true) : (st.bufs.markDirty b).dirty x = true := by
    by_cases hxb : x = b
    · subst hxb
      exact Function.update_self ..
    · rw [← hx]
      exact Function.update_of_ne hxb _ _
  have hversion (x : ℕ) : st.bufs.version x ≤ (st.bufs.markDirty b).version x := by
    by_cases hxb : x = b
    · subst hxb
      exact Nat.le_of_lt (by simp [MappingBuffers.markDirty])
    · exact Nat.le_of_eq (Function.update_of_ne hxb _ _).symm
  refine ⟨⟨h.listed.nodup, h.listed.assoc⟩, h.inHand, fun x hx => ?_, ?_, h.visits,
    ⟨h.errors.err, h.errors.err2, h.errors.waited, h.errors.ret⟩⟩
  · by_cases hxb : x = b
    · subst hxb
      have hj' : Function.update st.marker j (.marked x) j = .marked x := Function.update_self ..
      exact Or.inr (Or.inl ⟨j, congrArg MarkPc.buffer hj'⟩)
    · have hx' : st.bufs.dirty x = true := by
        rw [← hx]
        exact (Function.update_of_ne hxb _ _).symm
      exact (h.owed x hx').imp id (Or.imp (owed_marker (by rw [hj]; nofun)) id)
  · exact h.pc.mono ⟨List.Subset.refl _, hversion, fun x hx => Or.inl (hdirty x hx),
      fun x hx => ⟨hx, hdirty x⟩, id⟩

theorem readAssoc (h : PassesInv st) {j b : ℕ} (hj : st.marker j = .marked b) :
    PassesInv { st with
      marker := Function.update st.marker j (if st.bufs.assoc b then .idle else .queueing b) } := by
  refine ⟨h.listed, h.inHand, fun x hx => ?_, h.pc, h.visits,
    ⟨h.errors.err, h.errors.err2, h.errors.waited, h.errors.ret⟩⟩
  by_cases hxb : x = b
  · subst hxb
    by_cases hassoc : st.bufs.assoc x
    · exact Or.inl hassoc
    · refine Or.inr (Or.inl ⟨j, ?_⟩)
      show (Function.update st.marker j _ j).buffer = _
      rw [Function.update_self, if_neg hassoc]
      rfl
  · refine (h.owed x hx).imp id (Or.imp (owed_marker ?_) id)
    rw [hj]
    exact fun he => hxb (Option.some.inj he).symm

theorem queue (h : PassesInv st) {j b : ℕ} (hj : st.marker j = .queueing b)
    (hlock : st.pc.holdsLock = false) :
    PassesInv { st with
      bufs := st.bufs.moveTail b
      marker := Function.update st.marker j .idle } := by
  refine ⟨h.listed.moveTail b, fun x hx => ?_, fun x hx => ?_, ?_, h.visits,
    ⟨h.errors.err, h.errors.err2, h.errors.waited, h.errors.ret⟩⟩
  · -- with a buffer in its hand the thread holds the lock
    have hheld : st.pc.holdsLock = true := by
      have hx : st.pc.inHand = some x := hx
      rcases e : st.pc with - | - | - | v | v | v | v | v | ⟨v, d⟩ | - | - | b | b | b | b | - |
        rest | b | b | ret <;> rw [e] at hx <;> first | rfl | cases hx
    rw [hlock] at hheld
    cases hheld
  · by_cases hxb : x = b
    · subst hxb
      exact Or.inl (Function.update_self ..)
    · have hassoc : (st.bufs.moveTail b).assoc x = st.bufs.assoc x :=
        Function.update_of_ne hxb _ _
      show (st.bufs.moveTail b).assoc x = true ∨ _
      rw [hassoc]
      refine (h.owed x hx).imp id (Or.imp (owed_marker ?_) id)
      rw [hj]
      exact fun he => hxb (Option.some.inj he).symm
  · refine h.pc.mono ⟨List.Subset.refl _, fun _ => Nat.le_refl _, fun _ => Or.inl,
      fun _ hx => ⟨hx, id⟩, fun hempty => ?_⟩
    show st.bufs.pendingList.erase b = []
    rw [hempty]
    rfl

theorem writeback (h : PassesInv st) {b : ℕ} (hdirty : st.bufs.dirty b = true)
    (hlock : st.bufs.lock b = .free) :
    PassesInv { st with
      bufs := st.bufs.startWrite b
      cleaned := st.cleaned ++ [(b, st.bufs.version b)] } := by
  have hclean (x : ℕ) (hx : (st.bufs.startWrite b).dirty x = true) : st.bufs.dirty x = true := by
    by_cases hxb : x = b
    · subst hxb
      exact hdirty
    · rw [← hx]
      exact (Function.update_of_ne hxb _ _).symm
  have hsub : st.cleaned ⊆ st.cleaned ++ [(b, st.bufs.version b)] := List.subset_append_left _ _
  refine ⟨⟨h.listed.nodup, h.listed.assoc⟩, h.inHand, fun x hx => h.owed x (hclean x hx), ?_,
    fun l hl => (h.visits l hl).mono hsub,
    ⟨h.errors.err, h.errors.err2, h.errors.waited, h.errors.ret⟩⟩
  refine h.pc.mono ⟨hsub, fun _ => Nat.le_refl _, fun x hx => ?_, fun x hx => ?_, id⟩
  · by_cases hxb : x = b
    · subst hxb
      exact Or.inr ⟨st.bufs.version x, by simp, Nat.le_refl _⟩
    · refine Or.inl ?_
      rw [← hx]
      exact Function.update_of_ne hxb _ _
  · have hxb : x ≠ b := by
      rintro rfl
      cases hlock.symm.trans hx
    refine ⟨?_, fun hd => ?_⟩
    · rw [← hx]
      exact Function.update_of_ne hxb _ _
    · rw [← hd]
      exact Function.update_of_ne hxb _ _

theorem complete (h : PassesInv st) {b : ℕ} (hlock : st.bufs.lock b = .inFlight) (u : Bool) :
    PassesInv { st with bufs := st.bufs.endWrite b u } := by
  refine ⟨⟨h.listed.nodup, h.listed.assoc⟩, h.inHand, h.owed, ?_, h.visits,
    ⟨h.errors.err, h.errors.err2, h.errors.waited, h.errors.ret⟩⟩
  refine h.pc.mono ⟨List.Subset.refl _, fun _ => Nat.le_refl _, fun _ => Or.inl,
    fun x hx => ⟨?_, id⟩, id⟩
  have hxb : x ≠ b := by
    rintro rfl
    cases hlock.symm.trans hx
  rw [← hx]
  exact Function.update_of_ne hxb _ _

theorem step (h : PassesInv st) {op : BufferOp} (hs : st.step op = some st') : PassesInv st' := by
  cases op with
  | pass =>
      rcases Option.or_eq_some_iff.mp hs with hs | ⟨-, hs⟩
      · exact h.submitPass hs
      · exact h.waitPass hs
  | markDirty j b =>
      simp only [BufferPasses.step] at hs
      split at hs <;> simp only [Option.some.injEq, reduceCtorEq] at hs
      rename_i hj
      exact hs ▸ h.markDirty hj b
  | readAssoc j =>
      simp only [BufferPasses.step] at hs
      split at hs <;> simp only [Option.some.injEq, reduceCtorEq] at hs
      rename_i hj
      exact hs ▸ h.readAssoc hj
  | queue j =>
      simp only [BufferPasses.step] at hs
      split at hs <;> simp only [Option.some.injEq, reduceCtorEq] at hs
      rename_i hj hlock
      exact hs ▸ h.queue hj hlock
  | writeback b =>
      simp only [BufferPasses.step] at hs
      split_ifs at hs with hb
      obtain rfl := Option.some.inj hs
      simp only [Bool.and_eq_true, Bool.not_eq_true', MappingBuffers.locked,
        decide_eq_false_iff_not, not_not] at hb
      exact h.writeback hb.1 hb.2
  | complete b u =>
      simp only [BufferPasses.step] at hs
      split_ifs at hs with hb
      obtain rfl := Option.some.inj hs
      exact h.complete hb u

end PassesInv

/-- Every buffer taken is accounted for, or at hand. -/
def TakenInv (st : BufferPasses) : Prop :=
  st.taken = st.visits.map Visited.toVisit ++ st.pc.visit.toList

namespace TakenInv

theorem init (m : MappingBuffers) : TakenInv (BufferPasses.init m) := rfl

theorem goto (h : TakenInv st) {q : PassPc} (hq : q.visit = st.pc.visit) (m : MappingBuffers) :
    TakenInv { st with bufs := m, pc := q } := by
  unfold TakenInv at *
  rw [h, hq]

theorem visited (h : TakenInv st) {v : Visit} (hv : st.pc.visit = some v) (d : Option Bool)
    (sent : Option ℕ) {q : PassPc} (hq : q.visit = none) (m : MappingBuffers) :
    TakenInv ({ st with bufs := m }.visited v d sent q) := by
  unfold TakenInv BufferPasses.visited at *
  simp [h, hv, hq]

theorem submitPass (h : TakenInv st) (hs : st.submitPass = some st') : TakenInv st' := by
  unfold BufferPasses.submitPass at hs
  rcases e : st.pc with - | - | - | v | v | v | v | v | ⟨v, d⟩ | - | - | b | b | b | b | - | rest |
    b | b | ret <;> rw [e] at hs <;> dsimp only at hs
  case submitEnter | submitTest =>
    obtain rfl := Option.some.inj hs
    split_ifs <;> exact h.goto (by rw [e]; rfl) _
  case submitRelock | submitAdd =>
    obtain rfl := Option.some.inj hs
    exact h.goto (by rw [e]; rfl) _
  case submitLoop =>
    split at hs
    · obtain rfl := Option.some.inj hs
      exact h.goto (by rw [e]; rfl) _
    · obtain rfl := Option.some.inj hs
      unfold TakenInv at *
      rw [e] at h
      simp [h, PassPc.visit]
  case submitTestLocked | submitRetest =>
    split_ifs at hs <;> obtain rfl := Option.some.inj hs
    · exact h.goto (by rw [e]; rfl) _
    · exact h.visited (by rw [e]; rfl) _ _ rfl st.bufs
  case submitLock =>
    split_ifs at hs
    obtain rfl := Option.some.inj hs
    exact h.goto (by rw [e]; rfl) _
  case submitSend =>
    split_ifs at hs <;> obtain rfl := Option.some.inj hs <;>
      exact h.visited (by rw [e]; rfl) _ _ rfl _
  all_goals cases hs

theorem waitPass (h : TakenInv st) (hs : st.waitPass = some st') : TakenInv st' := by
  unfold BufferPasses.waitPass at hs
  rcases e : st.pc with - | - | - | v | v | v | v | v | ⟨v, d⟩ | - | - | b | b | b | b | - | rest |
    b | b | ret <;> rw [e] at hs
  case waitEnter | waitAdd | osyncEnter =>
    obtain rfl := Option.some.inj hs
    exact h.goto (by rw [e]; rfl) _
  case waitCheck | osyncCheck =>
    obtain rfl := Option.some.inj hs
    exact h.goto (by rw [e]; rfl) st.bufs
  case waitLoop =>
    dsimp only at hs
    split at hs <;> obtain rfl := Option.some.inj hs <;> exact h.goto (by rw [e]; rfl) _
  case waitTest =>
    obtain rfl := Option.some.inj hs
    split_ifs <;> exact h.goto (by rw [e]; rfl) _
  case waitBuffer | osyncWait =>
    dsimp only at hs
    split_ifs at hs
    obtain rfl := Option.some.inj hs
    exact h.goto (by rw [e]; rfl) _
  case osyncScan =>
    rcases rest with - | ⟨b, rest⟩ <;> obtain rfl := Option.some.inj hs
    · exact h.goto (by rw [e]; rfl) _
    · split_ifs <;> exact h.goto (by rw [e]; rfl) _
  all_goals cases hs

theorem step (h : TakenInv st) {op : BufferOp} (hs : st.step op = some st') : TakenInv st' := by
  cases op with
  | pass =>
      rcases Option.or_eq_some_iff.mp hs with hs | ⟨-, hs⟩
      · exact h.submitPass hs
      · exact h.waitPass hs
  | markDirty j b | readAssoc j | queue j =>
      simp only [BufferPasses.step] at hs
      split at hs <;> cases hs
      exact h
  | writeback b | complete b u =>
      simp only [BufferPasses.step] at hs
      split_ifs at hs
      cases hs
      exact h

end TakenInv

namespace PassesInv

theorem init {m : MappingBuffers} (hm : m.Settled) : PassesInv (BufferPasses.init m) :=
  ⟨hm.toListed, nofun, fun b hb => Or.inl (hm.queued b hb), trivial, nofun,
    ⟨Or.inl rfl, Or.inl rfl, by simp [BufferPasses.init], nofun⟩⟩

theorem buffersKept (h : PassesInv st) (htaken : TakenInv st) : BuffersKept st := by
  have hok := h.pc
  have hpending : st.pc.waitOver → st.bufs.pendingList = [] := by
    intro hover
    rcases e : st.pc with - | - | - | v | v | v | v | v | ⟨v, d⟩ | - | - | b | b | b | b | - |
      rest | b | b | ret <;> rw [e] at hok hover <;> first | exact hok | cases hover
  refine ⟨htaken, fun l hl hdirty hlocked => ?_, fun l hl hdirty hlocked => ?_, hpending,
    fun ret hdone hidle b hb => ?_, h.listed.nodup, fun ret hdone => ?_⟩
  · have hl := h.visits l hl hdirty
    rwa [if_pos hlocked] at hl
  · have hl := h.visits l hl hdirty
    rwa [if_neg hlocked] at hl
  · -- nobody has anything to queue, so the buffer is on a list, and that is `private_list`
    have hassoc : st.bufs.assoc b = true := by
      rcases h.owed b hb with hassoc | ⟨j, hj⟩ | howed
      · exact hassoc
      · rw [hidle j] at hj
        cases hj
      · rw [hdone] at howed
        cases howed
    refine ⟨((h.listed.assoc b).mp hassoc).resolve_right fun hmem => ?_, hassoc⟩
    rw [hpending (by rw [hdone]; rfl)] at hmem
    cases hmem
  · have hret := h.errors.ret ret hdone
    rw [← h.errors.waited]
    rcases h.errors.err with he | he <;> rcases h.errors.err2 with he₂ | he₂ <;>
      simp [hret, he, he₂]

end PassesInv

/-- **Submit, then wait, loses no buffer**, whatever the order of the steps of the passes and
of the other threads. -/
theorem buffers_kept (m : MappingBuffers) (hm : m.Settled) (ops : List BufferOp)
    (st : BufferPasses)
    (hrun : Run.run BufferPasses.step (BufferPasses.init m) ops = some st) : BuffersKept st := by
  have hinv : PassesInv st := Run.run_keeps (fun _ _ _ h hs => h.step hs) (.init hm) hrun
  have htaken : TakenInv st := Run.run_keeps (fun _ _ _ h hs => h.step hs) (.init m) hrun
  exact hinv.buffersKept htaken

/-- Two dirty buffers. -/
def twoDirty : MappingBuffers where
  dirty := fun b => b = 1 ∨ b = 2
  lock := fun _ => .free
  uptodate := fun _ => true
  assoc := fun b => b = 1 ∨ b = 2
  version := fun _ => 0
  privateList := [1, 2]
  pendingList := []

/-- Buffer 1 is dirtied again while it is written, and the write of buffer 2 fails. -/
def redirtied : List BufferOp :=
  List.replicate 8 BufferOp.pass ++ [BufferOp.markDirty 0 1, BufferOp.readAssoc 0] ++
    List.replicate 13 BufferOp.pass ++
    BufferOp.complete 1 true :: List.replicate 5 BufferOp.pass ++
    BufferOp.complete 2 false :: List.replicate 7 BufferOp.pass

theorem buffers_kept_redirtied :
    ∃ st, Run.run BufferPasses.step (BufferPasses.init twoDirty) redirtied = some st ∧
      st.pc = .done (-5) ∧ st.visits.map (·.sent) = [some 0, some 0] ∧
      st.bufs.dirty 1 = true ∧ st.bufs.privateList = [1] ∧ BuffersKept st := by
  obtain ⟨st, hrun, hend⟩ : ∃ st, Run.run BufferPasses.step (BufferPasses.init twoDirty) redirtied
      = some st ∧ st.pc = .done (-5) ∧ st.visits.map (·.sent) = [some 0, some 0] ∧
      st.bufs.dirty 1 = true ∧ st.bufs.privateList = [1] := by decide +kernel
  have hsettled : twoDirty.Settled :=
    ⟨⟨by decide, fun b => by simp [twoDirty]⟩, fun b hb => hb⟩
  have hkept := buffers_kept twoDirty hsettled redirtied st hrun
  exact ⟨st, hrun, hend.1, hend.2.1, hend.2.2.1, hend.2.2.2, hkept⟩

end CcNvme

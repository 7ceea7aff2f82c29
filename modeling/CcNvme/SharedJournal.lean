/-
CcNvme/SharedJournal.lean

The build with `DISABLE_MQ_JOURNAL`, in which all streams are checkpointed together.  An
allocator checks for room under the read side of `fs_cp_rwsem` and its stream's mutex.  When
there is none it lets go of both, runs `commit_write_all` under the write side, and then
allocates under the read side and the mutex again, without a second look at the room.

Each critical section of the source is one step of a thread, so that the threads interleave
between them.  Extents and resets are logged as in `JournalPartition`, whose invariant says
again what the log of a partition looks like.  `shared_journal_iff`: the extents stay in
their partitions and are disjoint between resets exactly when no thread that returns from
`commit_write_all` finds that others have taken the room it needs.
-/
import CcNvme.JournalPartition

namespace CcNvme

open Bump (Event Apart resets)

/-! ### Threads -/

/-- A call of one of the allocators. -/
inductive AllocCall (P : Params) where
  /-- `journal_write_alloc` -/
  | writeAlloc (i : Fin P.nrStreams) (b : Bio)
  /-- `alloc_journal_block` -/
  | allocBlock (i : Fin P.nrStreams) (b : Bio) (nr : ℕ)

namespace AllocCall

variable {P : Params}

def stream : AllocCall P → Fin P.nrStreams
  | .writeAlloc i _ => i
  | .allocBlock i _ _ => i

/-- `nr_blocks` -/
def nr : AllocCall P → ℕ
  | .writeAlloc _ b => horaeGetSecs b
  | .allocBlock _ _ nr => nr

/-- What follows the allocation, outside all locks of the journal. -/
def index (P : Params) (ptr : ℕ) (o : Olayer) : AllocCall P → Olayer
  | .writeAlloc i b =>
      indexBlocks P (o.stream i).lastTxid (horaeGetSecs b) (horaeGetLba b) ptr o
  | .allocBlock _ _ _ => o

end AllocCall

/-- Where a thread is. -/
inductive SharedPc (P : Params) where
  | idle
  /-- before the check for room -/
  | check (c : AllocCall P)
  /-- there was no room, and no lock is held -/
  | full (c : AllocCall P)
  /-- `commit_write_all` has run, and no lock is held -/
  | again (c : AllocCall P)
  /-- the extent at `ptr` has been taken -/
  | index (c : AllocCall P) (ptr : ℕ)
  /-- `truncate_ordering_log` before it takes the write side -/
  | truncate

/-- The module, the log of the allocators and the threads. -/
structure SharedState (P : Params) extends PartitionState where
  pc : ℕ → SharedPc P

inductive SharedOp (P : Params) where
  /-- thread `t` calls an allocator -/
  | call (t : ℕ) (c : AllocCall P)
  /-- thread `t` calls `truncate_ordering_log` -/
  | truncate (t : ℕ) (i : Fin P.nrStreams)
  /-- thread `t` runs its next critical section -/
  | run (t : ℕ) (bc : BufferCache)
  /-- the entries and the cursors of a ring change -/
  | ring (i : Fin P.nrStreams) (s : Stream) (h : s.InRing P)

variable (P : Params)

/-- `commit_write_all`: `commit_write_submit` on every stream, then every pointer goes back. -/
def commitWriteAll (bc : BufferCache) (o : Olayer) : Option Olayer :=
  ((List.range P.nrStreams).foldlM (commitWrite P bc) o).map fun o' =>
    { o' with
      stream := fun i => if i < P.nrStreams then (o'.stream i).retire P i else o'.stream i }

namespace SharedState

variable {P}

def goto (st : SharedState P) (t : ℕ) (pc : SharedPc P) : SharedState P :=
  { st with pc := Function.update st.pc t pc }

/-- `current_pwrite_ptr = j_write_ptr; j_write_ptr += nr_blocks` -/
def take (st : SharedState P) (t : ℕ) (c : AllocCall P) : SharedState P :=
  let s := st.o.stream c.stream
  { o := st.o.setStream c.stream { s with jWritePtr := s.jWritePtr + c.nr }
    log := st.log ++ [(c.stream.val, .take ⟨s.jWritePtr % 2 ^ 32, c.nr⟩)]
    pc := Function.update st.pc t (.index c s.jWritePtr) }

/-- `commit_write_all` between `percpu_down_write` and `percpu_up_write` -/
def resetAll (st : SharedState P) (bc : BufferCache) : Option (SharedState P) :=
  (commitWriteAll P bc st.o).map fun o =>
    { st with o := o, log := st.log ++ resets (List.range P.nrStreams) }

def step (P : Params) (st : SharedState P) : SharedOp P → Option (SharedState P)
  | .call t c =>
      match st.pc t with
      -- a request larger than the partition returns at once
      | .idle => some (if c.nr > P.nrJournalBlock then st else st.goto t (.check c))
      | _ => none
  | .truncate t i =>
      match st.pc t with
      | .idle =>
          some (if (st.o.stream i).head = (st.o.stream i).flushed then st
            else st.goto t .truncate)
      | _ => none
  | .run t bc =>
      match st.pc t with
      | .idle => none
      | .check c =>
          some (if c.nr + (st.o.stream c.stream).jWritePtr
              > (P.offInJournal c.stream + P.nrJournalBlock) % 2 ^ 32 then st.goto t (.full c)
            else st.take t c)
      | .full c => (st.resetAll bc).map (·.goto t (.again c))
      | .again c => some (st.take t c)
      | .index c ptr => some ({ st with o := c.index P ptr st.o }.goto t .idle)
      | .truncate => (st.resetAll bc).map (·.goto t .idle)
  | .ring i s _ =>
      some { st with o := st.o.setStream i { s with jWritePtr := (st.o.stream i).jWritePtr } }

end SharedState

/-! ### The property and the condition -/

/-- Every extent lies in the partition of its stream, and extents of one stream between two
resets are disjoint. -/
structure SharedSound (log : List (ℕ × Event)) : Prop where
  inside : ∀ i e, (i, .take e) ∈ log →
    P.offInJournal i ≤ e.start ∧ e.start + e.length ≤ P.offInJournal i + P.nrJournalBlock
  apart : Apart log

/-- A thread that comes back from `commit_write_all` finds the room it needs. -/
def roomAgain (st : SharedState P) : SharedOp P → Bool
  | .run t _ =>
      match st.pc t with
      | .again c => c.nr + (st.o.stream c.stream).jWritePtr
          ≤ P.offInJournal c.stream + P.nrJournalBlock
      | _ => true
  | _ => true

/-! ### The invariant -/

variable {P} {st st' : SharedState P}

theorem foldlM_commitWrite (bc : BufferCache) (is : List ℕ) {o : Olayer}
    (hring : ∀ i ∈ is, (o.stream i).InRing P) :
    ∃ o', is.foldlM (commitWrite P bc) o = some o' ∧ SameQueues o o' := by
  induction is generalizing o with
  | nil => exact ⟨o, rfl, .refl o⟩
  | cons i is ih =>
      have hi := hring i List.mem_cons_self
      obtain ⟨o₁, h₁⟩ := commitWrite_isSome bc hi.head_lt hi.flushed_lt
      have hsame := sameQueues_of_commitWrite h₁
      obtain ⟨o₂, h₂, hsame₂⟩ := ih (o := o₁) fun j hj => by
        rw [hsame.stream]
        exact hring j (List.mem_cons_of_mem _ hj)
      refine ⟨o₂, ?_, hsame.trans hsame₂⟩
      rw [List.foldlM_cons, h₁]
      exact h₂

theorem commitWriteAll_spec (bc : BufferCache) {o : Olayer}
    (hring : ∀ i < P.nrStreams, (o.stream i).InRing P) :
    ∃ o', commitWriteAll P bc o = some o' ∧
      ∀ i < P.nrStreams, o'.stream i = (o.stream i).retire P i := by
  obtain ⟨o₁, h₁, hsame⟩ := foldlM_commitWrite bc (List.range P.nrStreams) (o := o)
    fun i hi => hring i (List.mem_range.mp hi)
  refine ⟨_, congrArg _ h₁, fun i hi => ?_⟩
  show (if i < P.nrStreams then (o₁.stream i).retire P i else o₁.stream i) = _
  rw [if_pos hi, hsame.stream]

/-- Every pointer goes back to the start of its partition. -/
theorem PartitionInv.resetAll {st : PartitionState} (h : PartitionInv P st) {o' : Olayer}
    (ho' : ∀ i < P.nrStreams, o'.stream i = (st.o.stream i).retire P i) :
    PartitionInv P ⟨o', st.log ++ resets (List.range P.nrStreams)⟩ := by
  refine ⟨fun i hi => ?_, fun i e he => h.inside i e (Bump.take_mem_resets.mp he),
    h.apart.resets _⟩
  rw [Bump.since_resets, if_pos (List.mem_range.mpr hi)]
  show PartitionOk P i (o'.stream i) []
  rw [ho' i hi]
  exact (h.streams i hi).retire

/-- A request that fits takes the extent at the pointer. -/
theorem PartitionInv.sharedTake (h : PartitionInv P st.toPartitionState) (t : ℕ)
    {c : AllocCall P} (hfit : c.nr + (st.o.stream c.stream).jWritePtr
      ≤ P.offInJournal c.stream + P.nrJournalBlock) :
    PartitionInv P (st.take t c).toPartitionState := by
  have hlt := P.offInJournal_add_lt c.stream.isLt
  have haddr : (st.o.stream c.stream).jWritePtr % 2 ^ 32 = (st.o.stream c.stream).jWritePtr :=
    Nat.mod_eq_of_lt (by omega)
  have htake := h.take c.nr c.stream.isLt (by omega) (st.take t c).o rfl
  simp only [SharedState.take, haddr] at htake ⊢
  exact htake

/-- `commit_write_all` under the write side. -/
theorem PartitionInv.sharedReset (h : PartitionInv P st.toPartitionState) {bc : BufferCache}
    (hst : st.resetAll bc = some st') : PartitionInv P st'.toPartitionState := by
  obtain ⟨o₁, h₁, hstream⟩ := commitWriteAll_spec bc fun i hi => (h.streams i hi).inRing
  rw [SharedState.resetAll, h₁, Option.map_some] at hst
  obtain rfl := Option.some.inj hst
  exact h.resetAll hstream

theorem AllocCall.stream_index (c : AllocCall P) (ptr : ℕ) (o : Olayer) :
    (c.index P ptr o).stream = o.stream := by
  cases c with
  | writeAlloc i b => exact (sameQueues_indexBlocks ..).stream
  | allocBlock i b nr => rfl

/-- **One step** that meets the condition keeps the invariant. -/
theorem shared_step (h : PartitionInv P st.toPartitionState) {op : SharedOp P}
    (hroom : roomAgain P st op = true) (hst : st.step P op = some st') :
    PartitionInv P st'.toPartitionState := by
  cases op with
  | call t c =>
      simp only [SharedState.step] at hst
      split at hst
      · obtain rfl := Option.some.inj hst
        split_ifs <;> exact h
      · cases hst
  | truncate t i =>
      simp only [SharedState.step] at hst
      split at hst
      · obtain rfl := Option.some.inj hst
        split_ifs <;> exact h
      · cases hst
  | run t bc =>
      simp only [SharedState.step] at hst
      simp only [roomAgain] at hroom
      rcases hpc : st.pc t with - | c | c | c | ⟨c, ptr⟩ | - <;> rw [hpc] at hst hroom
      · cases hst
      · -- the check and the allocation are one critical section
        obtain rfl := Option.some.inj hst
        split_ifs with hfull
        · exact h
        · rw [Nat.mod_eq_of_lt (P.offInJournal_add_lt c.stream.isLt)] at hfull
          exact h.sharedTake t (Nat.not_lt.mp hfull)
      · obtain ⟨st₁, h₁, rfl⟩ := Option.map_eq_some_iff.mp hst
        have hinv := h.sharedReset h₁
        exact hinv
      · obtain rfl := Option.some.inj hst
        exact h.sharedTake t (of_decide_eq_true hroom)
      · obtain rfl := Option.some.inj hst
        refine h.of_stream fun i hi => ?_
        rw [c.stream_index]
        exact ⟨(h.streams i hi).inRing, rfl⟩
      · obtain ⟨st₁, h₁, rfl⟩ := Option.map_eq_some_iff.mp hst
        have hinv := h.sharedReset h₁
        exact hinv
  | ring i s hs =>
      obtain rfl := Option.some.inj hst
      exact h.ring i hs

theorem PartitionInv.sharedSound {st : PartitionState} (h : PartitionInv P st) :
    SharedSound P st.log :=
  ⟨fun i e he => (h.inside i e he).2, h.apart⟩

/-- A thread that allocates without room leaves its partition. -/
theorem roomAgain_of_sound (h : PartitionInv P st.toPartitionState) {op : SharedOp P}
    (hsound : ∀ st', st.step P op = some st' → SharedSound P st'.log) :
    roomAgain P st op = true := by
  cases op with
  | run t bc =>
      simp only [roomAgain]
      rcases hpc : st.pc t with - | c | c | c | ⟨c, ptr⟩ | -
      case again =>
        have hstep : st.step P (.run t bc) = some (st.take t c) := by
          simp only [SharedState.step, hpc]
        have hlast : (c.stream.val, Event.take ⟨(st.o.stream c.stream).jWritePtr % 2 ^ 32, c.nr⟩)
            ∈ (st.take t c).log := List.mem_append_right _ (List.mem_singleton_self _)
        have hinside := ((hsound _ hstep).inside _ _ hlast).2
        -- so far the pointer has stayed in the partition, and has not wrapped
        have hend := (h.streams c.stream c.stream.isLt).le_end
        have hlt := P.offInJournal_add_lt c.stream.isLt
        dsimp only at hinside
        simp only [decide_eq_true_eq]
        omega
      all_goals rfl
  | _ => rfl

/-- The module just loaded, with every thread idle. -/
def sharedInit (P : Params) (mem : ℕ → ℕ → Ometa) (lastTxid : ℕ → ℕ) (cmb : ℕ → Ometa) :
    SharedState P :=
  { o := initStreams P mem lastTxid cmb, log := [], pc := fun _ => .idle }

/-- **Allocation from a shared journal.**  For any threads and any interleaving of their
critical sections: the extents taken stay in their partitions, and are disjoint between
resets, exactly when every thread that comes back from `commit_write_all` still finds the
room it needs. -/
theorem shared_journal_iff (P : Params) (mem : ℕ → ℕ → Ometa) (lastTxid : ℕ → ℕ)
    (cmb : ℕ → Ometa) (ops : List (SharedOp P)) :
    Run.Along (SharedState.step P)
        (fun st op => ∀ st', st.step P op = some st' → SharedSound P st'.log)
        (sharedInit P mem lastTxid cmb) ops ↔
      Run.Along (SharedState.step P) (fun st op => roomAgain P st op = true)
        (sharedInit P mem lastTxid cmb) ops := by
  have hinit : PartitionInv P (sharedInit P mem lastTxid cmb).toPartitionState :=
    ⟨fun i _ => PartitionOk.init (mem i) (lastTxid i) i, by simp [sharedInit], Apart.nil⟩
  refine Run.along_iff (I := fun st => PartitionInv P st.toPartitionState) (fun st op h => ?_)
    (fun st op st' h hsound hst => ?_) hinit ops
  · exact ⟨roomAgain_of_sound h, fun hroom st' hst => (shared_step h hroom hst).sharedSound⟩
  · exact shared_step h (roomAgain_of_sound h hsound) hst

/-- A request for three of the four blocks of stream 0. -/
def threeBlocks : AllocCall Params.tiny :=
  .allocBlock ⟨0, Params.tiny.nrStreams_pos⟩ (pages 0 3) 3

/-- Thread 1 takes three blocks, then finds no room for three more and checkpoints. -/
def untilReset : List (SharedOp Params.tiny) :=
  let bc : BufferCache := fun _ _ => .unlocked
  [.call 1 threeBlocks, .run 1 bc, .run 1 bc, .call 1 threeBlocks, .run 1 bc, .run 1 bc]

/-- Thread 1 goes on. -/
def undisturbed : List (SharedOp Params.tiny) :=
  untilReset ++ [SharedOp.run 1 fun _ _ => .unlocked]

/-- Thread 2 takes three blocks before thread 1 goes on. -/
def refilled : List (SharedOp Params.tiny) :=
  untilReset ++ [SharedOp.call 2 threeBlocks, SharedOp.run 2 fun _ _ => .unlocked,
    SharedOp.run 1 fun _ _ => .unlocked]

def tinyShared : SharedState Params.tiny :=
  sharedInit Params.tiny (fun _ _ => Ometa.zero) (fun _ => 0) fun _ => Ometa.zero

/-- Left alone, thread 1 gets its blocks. -/
theorem shared_journal_undisturbed :
    Run.Along (SharedState.step Params.tiny)
      (fun st op => ∀ st', st.step Params.tiny op = some st' → SharedSound Params.tiny st'.log)
      tinyShared undisturbed :=
  (shared_journal_iff Params.tiny (fun _ _ => Ometa.zero) (fun _ => 0) (fun _ => Ometa.zero)
    undisturbed).mpr (by decide +kernel)

/-- After thread 2 it gets blocks 3 to 5, of a partition of four. -/
theorem refilled_partition_overrun :
    ∃ st, Run.run (SharedState.step Params.tiny) tinyShared refilled = some st ∧
      st.log.drop 65 = [(0, Event.take ⟨0, 3⟩), (0, Event.take ⟨3, 3⟩)] ∧
      ¬ SharedSound Params.tiny st.log := by
  obtain ⟨st, hst, hlog⟩ :
      ∃ st, Run.run (SharedState.step Params.tiny) tinyShared refilled = some st ∧
        st.log.drop 65 = [(0, Event.take ⟨0, 3⟩), (0, Event.take ⟨3, 3⟩)] := by
    decide +kernel
  refine ⟨st, hst, hlog, fun hsound => ?_⟩
  have hlast : (0, Event.take ⟨3, 3⟩) ∈ st.log.drop 65 := hlog ▸ by decide
  exact absurd (hsound.inside 0 _ (List.mem_of_mem_drop hlast)).2 (by decide)

end CcNvme

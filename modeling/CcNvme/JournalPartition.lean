/-
CcNvme/JournalPartition.lean

The journal region as a set of partitions.  `stream_init_journal` gives every
stream `nr_journal_block` blocks of the region; both allocators hand out the
blocks at `j_write_ptr` and move the pointer, and three operations move it back
to the start of the partition.

The calls on all streams are steps of one machine, whose log records the extents
returned and the resets.  Between two calls the ring of a stream may change in
any way that keeps its cursors slots (`ring`), which covers the submits,
commits and flushes of other threads.  `journal_partition` says that every
extent stays inside its partition, that extents between two resets are disjoint,
and when an allocator fails.
-/
import CcNvme.Cursors
import CcNvme.Lib.Run
import CcNvme.Lib.Bump

namespace CcNvme

open Bump (Extent Event Packed since Apart)

/-! ### The machine -/

/-- `CP_REGION_START(journal_size)`, with `JOURNAL_REGION_START` 0. -/
def Params.cpRegionStart (P : Params) : ℕ := 0 + P.nrJournalRegionBlock

/-- The module, and what the allocators have done so far. -/
structure PartitionState where
  o : Olayer
  log : List (ℕ × Event)

inductive PartitionOp (P : Params) where
  /-- `journal_write_alloc` -/
  | writeAlloc (i : Fin P.nrStreams) (bc : BufferCache) (b : Bio)
  /-- `alloc_journal_block` -/
  | allocBlock (i : Fin P.nrStreams) (bc : BufferCache) (b : Bio) (nr : ℕ)
  /-- `truncate_ordering_log` -/
  | truncate (i : Fin P.nrStreams) (bc : BufferCache)
  /-- the entries and the cursors of a ring change -/
  | ring (i : Fin P.nrStreams) (s : Stream) (h : s.InRing P)

variable (P : Params)

/-- What a call of an allocator adds to the log: a reset when the request does not fit
behind `j_write_ptr`, and the extent unless the failure value is returned. -/
def allocEvents (i nr : ℕ) (s : Stream) (addr : ℕ) : List (ℕ × Event) :=
  (if needsWrap P i nr s then [(i, Event.reset)] else []) ++
    if addr = 2 ^ 32 - 1 then [] else [(i, Event.take ⟨addr, nr⟩)]

def PartitionState.step (st : PartitionState) : PartitionOp P → Option PartitionState
  | .writeAlloc i bc b =>
      (journalWriteAlloc P bc st.o i b).map fun r =>
        ⟨r.1, st.log ++ allocEvents P i (horaeGetSecs b) (st.o.stream i) r.2.2⟩
  | .allocBlock i bc b nr =>
      (allocJournalBlock P bc st.o i b nr).map fun r =>
        ⟨r.1, st.log ++ allocEvents P i nr (st.o.stream i) r.2.2⟩
  | .truncate i bc =>
      (truncateOrderingLog P bc st.o i).map fun o =>
        ⟨o, st.log ++ if (st.o.stream i).head = (st.o.stream i).flushed then []
          else [(i.val, .reset)]⟩
  | .ring i s _ =>
      some ⟨st.o.setStream i { s with jWritePtr := (st.o.stream i).jWritePtr }, st.log⟩

/-! ### The property -/

/-- Every extent lies in the partition of its stream, extents of different streams do
not overlap, none reaches the checkpoint region, and extents between two resets are
disjoint. -/
structure PartitionSound (log : List (ℕ × Event)) : Prop where
  inside : ∀ i e, (i, .take e) ∈ log → i < P.nrStreams ∧
    i * P.nrJournalBlock ≤ e.start ∧ e.start + e.length ≤ (i + 1) * P.nrJournalBlock
  foreign : ∀ i j e f, (i, .take e) ∈ log → (j, .take f) ∈ log → i ≠ j → e.Disjoint f
  region : ∀ i e, (i, .take e) ∈ log → e.start + e.length ≤ P.cpRegionStart
  apart : Apart log

/-- In state `o` a request fails exactly when it exceeds the partition, and then changes
nothing. -/
structure FailsOnlyWhenTooLarge (o : Olayer) : Prop where
  writeAlloc : ∀ i < P.nrStreams, ∀ bc b, ∃ r, journalWriteAlloc P bc o i b = some r ∧
    (r.2.2 = 2 ^ 32 - 1 ↔ horaeGetSecs b > P.nrJournalBlock) ∧ (r.2.2 = 2 ^ 32 - 1 → r.1 = o)
  allocBlock : ∀ i < P.nrStreams, ∀ bc b nr, ∃ r, allocJournalBlock P bc o i b nr = some r ∧
    (r.2.2 = 2 ^ 32 - 1 ↔ nr > P.nrJournalBlock) ∧ (r.2.2 = 2 ^ 32 - 1 → r.1 = o)

/-! ### The invariant -/

/-- The pointer of stream `i` is in its partition, and the extents `es`, those since its
last reset, are packed below it. -/
structure PartitionOk (i : ℕ) (s : Stream) (es : List Extent) : Prop where
  inRing : s.InRing P
  off_le : P.offInJournal i ≤ s.jWritePtr
  le_end : s.jWritePtr ≤ P.offInJournal i + P.nrJournalBlock
  packed : Packed (P.offInJournal i) s.jWritePtr es

structure PartitionInv (st : PartitionState) : Prop where
  streams : ∀ i < P.nrStreams, PartitionOk P i (st.o.stream i) (since i st.log)
  inside : ∀ i e, (i, .take e) ∈ st.log → i < P.nrStreams ∧ P.offInJournal i ≤ e.start ∧
    e.start + e.length ≤ P.offInJournal i + P.nrJournalBlock
  apart : Apart st.log

variable {P}

theorem PartitionOk.init (mem : ℕ → Ometa) (lastTxid i : ℕ) :
    PartitionOk P i (initStream P mem lastTxid i) [] where
  inRing := ⟨nrOmeta_pos, nrOmeta_pos, nrOmeta_pos, nrOmeta_pos⟩
  off_le := le_rfl
  le_end := Nat.le_add_right _ _
  packed := .nil _ _

theorem PartitionOk.retire {i : ℕ} {s : Stream} {es : List Extent} (h : PartitionOk P i s es) :
    PartitionOk P i (s.retire P i) [] where
  inRing := ⟨h.inRing.flushed_lt, h.inRing.tail_lt, h.inRing.tailWatermark_lt,
    h.inRing.flushed_lt⟩
  off_le := le_rfl
  le_end := Nat.le_add_right _ _
  packed := .nil _ _

theorem PartitionOk.take {i nr : ℕ} {s : Stream} {es : List Extent} (h : PartitionOk P i s es)
    (hfit : s.jWritePtr + nr ≤ P.offInJournal i + P.nrJournalBlock) :
    PartitionOk P i { s with jWritePtr := s.jWritePtr + nr } (es ++ [⟨s.jWritePtr, nr⟩]) where
  inRing := ⟨h.inRing.head_lt, h.inRing.tail_lt, h.inRing.tailWatermark_lt,
    h.inRing.flushed_lt⟩
  off_le := h.off_le.trans (Nat.le_add_right _ _)
  le_end := hfit
  packed := h.packed.push h.off_le nr

theorem allocAddr_eq_failure_iff {i : ℕ} (nr : ℕ) {s : Stream} (hi : i < P.nrStreams)
    (hle : s.jWritePtr ≤ P.offInJournal i + P.nrJournalBlock) :
    s.allocAddr P i nr = 2 ^ 32 - 1 ↔ nr > P.nrJournalBlock := by
  have hreg := P.offInJournal_add_le hi
  have hlt := P.nrJournalRegionBlock_lt
  unfold Stream.allocAddr Stream.allocRoom
  split_ifs with hnr hw
  · exact iff_of_true rfl hnr
  · refine iff_of_false ?_ hnr
    show P.offInJournal i % 2 ^ 32 ≠ 2 ^ 32 - 1
    omega
  · exact iff_of_false (by omega) hnr

/-- The pointer of stream `i` goes back to the start. -/
theorem PartitionInv.reset {st : PartitionState} (h : PartitionInv P st) (i : ℕ) (o' : Olayer)
    (ho' : o'.stream = Function.update st.o.stream i ((st.o.stream i).retire P i)) :
    PartitionInv P ⟨o', st.log ++ [(i, .reset)]⟩ := by
  refine ⟨fun j hj => ?_, fun j e he => h.inside j e (by simpa using he), h.apart.reset i⟩
  rw [Bump.since_reset]
  show PartitionOk P j (o'.stream j) _
  by_cases hji : i = j
  · subst hji
    rw [if_pos rfl, ho', Function.update_self]
    exact (h.streams i hj).retire
  · rw [if_neg hji, ho', Function.update_of_ne (Ne.symm hji)]
    exact h.streams j hj

/-- An extent of `nr` blocks that fits is taken at the pointer. -/
theorem PartitionInv.take {st : PartitionState} (h : PartitionInv P st) {i : ℕ} (nr : ℕ)
    (hi : i < P.nrStreams)
    (hfit : (st.o.stream i).jWritePtr + nr ≤ P.offInJournal i + P.nrJournalBlock) (o' : Olayer)
    (ho' : o'.stream = Function.update st.o.stream i
      { st.o.stream i with jWritePtr := (st.o.stream i).jWritePtr + nr }) :
    PartitionInv P ⟨o', st.log ++ [(i, .take ⟨(st.o.stream i).jWritePtr, nr⟩)]⟩ := by
  have hok := h.streams i hi
  refine ⟨fun j hj => ?_, fun j e he => ?_,
    h.apart.take fun e he => (hok.packed.free le_rfl e he).symm⟩
  · rw [Bump.since_take]
    show PartitionOk P j (o'.stream j) _
    by_cases hji : i = j
    · subst hji
      rw [if_pos rfl, ho', Function.update_self]
      exact hok.take hfit
    · rw [if_neg hji, ho', Function.update_of_ne (Ne.symm hji)]
      exact h.streams j hj
  · rcases List.mem_append.mp he with he | he
    · exact h.inside j e he
    · simp only [List.mem_singleton, Prod.mk.injEq, Event.take.injEq] at he
      obtain ⟨rfl, rfl⟩ := he
      exact ⟨hi, hok.off_le, hfit⟩

/-- Either allocator: perhaps a reset, then perhaps an extent at the pointer. -/
theorem PartitionInv.alloc {st : PartitionState} (h : PartitionInv P st) {i nr : ℕ}
    (hi : i < P.nrStreams) {o' : Olayer}
    (ho' : o'.stream = Function.update st.o.stream i ((st.o.stream i).alloc P i nr)) :
    PartitionInv P ⟨o', st.log ++
      allocEvents P i nr (st.o.stream i) ((st.o.stream i).allocAddr P i nr)⟩ := by
  have hle := (h.streams i hi).le_end
  have hlt := P.offInJournal_add_lt hi
  have hend : (P.offInJournal i + P.nrJournalBlock) % 2 ^ 32
      = P.offInJournal i + P.nrJournalBlock := Nat.mod_eq_of_lt hlt
  have hfail := allocAddr_eq_failure_iff nr hi hle
  unfold allocEvents
  by_cases hnr : nr > P.nrJournalBlock
  · -- refused
    have hwrap : ¬ needsWrap P i nr (st.o.stream i) = true := by simp [needsWrap, hnr]
    rw [if_neg hwrap, if_pos (hfail.mpr hnr), List.append_nil, List.append_nil]
    rw [Stream.alloc, if_pos hnr, Function.update_eq_self] at ho'
    exact ⟨fun j hj => ho' ▸ h.streams j hj, h.inside, h.apart⟩
  rw [if_neg fun hc => hnr (hfail.mp hc), Stream.allocAddr, if_neg hnr]
  rw [Stream.alloc, if_neg hnr] at ho'
  by_cases hw : nr + (st.o.stream i).jWritePtr > P.offInJournal i + P.nrJournalBlock
  · -- the partition starts over
    have hwrap : needsWrap P i nr (st.o.stream i) = true := by
      simp only [needsWrap, hend, decide_eq_true_eq]
      omega
    have hroom : (st.o.stream i).allocRoom P i nr = (st.o.stream i).retire P i := by
      rw [Stream.allocRoom, hend, if_pos hw]
    have hptr : ((st.o.stream i).retire P i).jWritePtr = P.offInJournal i := rfl
    have htake := (h.reset i (st.o.setStream i ((st.o.stream i).retire P i)) rfl).take
      nr hi (by rw [Olayer.setStream_self, hptr]; omega) o'
      (by rw [ho', hroom, Olayer.setStream_self]; exact (Function.update_idem ..).symm)
    rw [Olayer.setStream_self, hptr] at htake
    rw [if_pos hwrap, ← List.append_assoc, hroom, hptr, Nat.mod_eq_of_lt (by omega)]
    exact htake
  · have hwrap : ¬ needsWrap P i nr (st.o.stream i) = true := by
      simp only [needsWrap, hend, decide_eq_true_eq]
      omega
    have hroom : (st.o.stream i).allocRoom P i nr = st.o.stream i := by
      rw [Stream.allocRoom, hend, if_neg hw]
    rw [hroom] at ho'
    rw [if_neg hwrap, List.nil_append, hroom, Nat.mod_eq_of_lt (by omega)]
    exact h.take nr hi (by omega) o' ho'

/-- The pointers do not see what happens to the rings and the index. -/
theorem PartitionInv.of_stream {st : PartitionState} (h : PartitionInv P st) {o' : Olayer}
    (ho' : ∀ i < P.nrStreams, (o'.stream i).InRing P ∧
      (o'.stream i).jWritePtr = (st.o.stream i).jWritePtr) : PartitionInv P ⟨o', st.log⟩ := by
  refine ⟨fun i hi => ?_, h.inside, h.apart⟩
  obtain ⟨hring, hptr⟩ := ho' i hi
  obtain ⟨-, hoff, hend, hpacked⟩ := h.streams i hi
  exact ⟨hring, hptr ▸ hoff, hptr ▸ hend, hptr ▸ hpacked⟩

/-- The entries and the cursors of a ring change. -/
theorem PartitionInv.ring {st : PartitionState} (h : PartitionInv P st) (i : ℕ) {s : Stream}
    (hs : s.InRing P) :
    PartitionInv P
      ⟨st.o.setStream i { s with jWritePtr := (st.o.stream i).jWritePtr }, st.log⟩ := by
  refine h.of_stream fun j hj => ?_
  by_cases hji : j = i
  · rw [hji, Olayer.setStream_self]
    exact ⟨⟨hs.head_lt, hs.tail_lt, hs.tailWatermark_lt, hs.flushed_lt⟩, rfl⟩
  · rw [Olayer.setStream_of_ne _ hji]
    exact ⟨(h.streams j hj).inRing, rfl⟩

/-- **One step** returns and keeps the invariant. -/
theorem partition_step {st : PartitionState} (h : PartitionInv P st) (op : PartitionOp P) :
    ∃ st', st.step P op = some st' ∧ PartitionInv P st' := by
  cases op with
  | writeAlloc i bc b =>
      have hring := (h.streams i i.isLt).inRing
      obtain ⟨o', b', halloc, hof⟩ :=
        journalWriteAlloc_spec bc b hring.head_lt hring.flushed_lt
      exact ⟨_, by rw [PartitionState.step, halloc, Option.map_some], h.alloc i.isLt hof.stream⟩
  | allocBlock i bc b nr =>
      have hring := (h.streams i i.isLt).inRing
      obtain ⟨o', b', halloc, hof⟩ :=
        allocJournalBlock_spec bc b nr hring.head_lt hring.flushed_lt
      exact ⟨_, by rw [PartitionState.step, halloc, Option.map_some], h.alloc i.isLt hof.stream⟩
  | truncate i bc =>
      have hring := (h.streams i i.isLt).inRing
      rw [PartitionState.step, truncateOrderingLog]
      by_cases hhf : (st.o.stream i).head = (st.o.stream i).flushed
      · rw [if_pos hhf, if_pos hhf, Option.map_some, List.append_nil]
        exact ⟨_, rfl, h⟩
      · obtain ⟨o₁, -, hsame, hwrap⟩ := journalWrap_spec bc hring.head_lt hring.flushed_lt
        rw [if_neg hhf, if_neg hhf, hwrap, Option.map_some]
        refine ⟨_, rfl, h.reset i _ ?_⟩
        rw [Olayer.setStream, hsame.stream]
  | ring i s hs => exact ⟨_, rfl, h.ring i hs⟩

theorem PartitionInv.sound {st : PartitionState} (h : PartitionInv P st) :
    PartitionSound P st.log where
  inside := fun i e he => by
    obtain ⟨hi, hlo, hhi⟩ := h.inside i e he
    exact ⟨hi, hlo, by rw [Nat.succ_mul]; exact hhi⟩
  foreign := fun i j e f he hf hij => by
    obtain ⟨-, helo, hehi⟩ := h.inside i e he
    obtain ⟨-, hflo, hfhi⟩ := h.inside j f hf
    unfold Params.offInJournal at *
    -- the partition of the smaller number ends before the other one starts
    rcases Nat.lt_or_gt_of_ne hij with hlt | hlt
    · have := Nat.mul_le_mul_right P.nrJournalBlock (Nat.succ_le_of_lt hlt)
      rw [Nat.succ_mul] at this
      exact Bump.Extent.disjoint_iff.mpr (by omega)
    · have := Nat.mul_le_mul_right P.nrJournalBlock (Nat.succ_le_of_lt hlt)
      rw [Nat.succ_mul] at this
      exact Bump.Extent.disjoint_iff.mpr (by omega)
  region := fun i e he => by
    obtain ⟨hi, -, hhi⟩ := h.inside i e he
    have := P.offInJournal_add_le hi
    rw [Params.cpRegionStart]
    omega
  apart := h.apart

theorem PartitionInv.fails {st : PartitionState} (h : PartitionInv P st) :
    FailsOnlyWhenTooLarge P st.o where
  writeAlloc := fun i hi bc b => by
    have hok := h.streams i hi
    have hiff := allocAddr_eq_failure_iff (horaeGetSecs b) hi hok.le_end
    obtain ⟨o', b', halloc, -⟩ :=
      journalWriteAlloc_spec bc b hok.inRing.head_lt hok.inRing.flushed_lt
    refine ⟨_, halloc, hiff, fun hc => ?_⟩
    rw [journalWriteAlloc, if_pos (hiff.mp hc), Option.some.injEq, Prod.mk.injEq] at halloc
    exact halloc.1.symm
  allocBlock := fun i hi bc b nr => by
    have hok := h.streams i hi
    have hiff := allocAddr_eq_failure_iff nr hi hok.le_end
    obtain ⟨o', b', halloc, -⟩ :=
      allocJournalBlock_spec bc b nr hok.inRing.head_lt hok.inRing.flushed_lt
    refine ⟨_, halloc, hiff, fun hc => ?_⟩
    rw [allocJournalBlock, if_pos (hiff.mp hc), Option.some.injEq, Prod.mk.injEq] at halloc
    exact halloc.1.symm

/-! ### Whole runs -/

/-- Whatever calls are made on freshly initialised streams, every call returns and the
invariant holds. -/
theorem PartitionInv.of_run (mem : ℕ → ℕ → Ometa) (lastTxid : ℕ → ℕ) (cmb : ℕ → Ometa)
    (ops : List (PartitionOp P)) :
    ∃ st, Run.run (PartitionState.step P) ⟨initStreams P mem lastTxid cmb, []⟩ ops = some st ∧
      PartitionInv P st := by
  have hinit : PartitionInv P ⟨initStreams P mem lastTxid cmb, []⟩ :=
    ⟨fun i _ => PartitionOk.init (mem i) (lastTxid i) i, by simp, Apart.nil⟩
  exact Run.run_simulation (R := fun st (_ : Unit) => PartitionInv P st)
    (f := fun t _ => t) (t := ()) (fun _ _ op h => partition_step h op) hinit ops

/-- **The journal is partitioned soundly.**  Whatever calls are made on freshly
initialised streams, every call returns, the extents returned so far respect the
partitions and the resets, and the next request fails exactly when it is larger than
a partition, changing nothing. -/
theorem journal_partition (P : Params) (mem : ℕ → ℕ → Ometa) (lastTxid : ℕ → ℕ)
    (cmb : ℕ → Ometa) (ops : List (PartitionOp P)) :
    ∃ st, Run.run (PartitionState.step P) ⟨initStreams P mem lastTxid cmb, []⟩ ops = some st ∧
      PartitionSound P st.log ∧ FailsOnlyWhenTooLarge P st.o := by
  obtain ⟨st, hrun, hinv⟩ := PartitionInv.of_run mem lastTxid cmb ops
  exact ⟨st, hrun, hinv.sound, hinv.fails⟩

end CcNvme

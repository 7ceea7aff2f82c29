/-
CcNvme/JournalAddresses.lean

The width of journal addresses.  `NR_JOURNAL_REGION_BLOCK` multiplies in `unsigned int`, the
fields of a stream and `j_write_ptr` are `u64`, the right boundary of a partition is a `uint`,
an address is returned and stored in a ring entry as a `u32`.  A redirected bio gets its
sector from the `u64` pointer, `crash_recovery_commit_write` computes it from the `u32` of the
entry, in `u32`.

`journal_addresses_exact_iff`: all of these are exact, for every address that an allocator can
hand out, exactly when the partitions together have fewer than `2 ^ 29` blocks, 2 TB.
-/
import CcNvme.JournalPartition
import CcNvme.Recovery
import CcNvme.StoredEntries

namespace CcNvme

variable (P : Params)

/-! ### Counts and boundaries -/

/-- `j_size`, set by `stream_init_journal`. -/
def Params.jSize : ℕ := P.nrJournalBlock * 4096 % 2 ^ 64

/-- `parea_right_boundary` of both allocators. -/
def Params.pareaRightBoundary (i : ℕ) : ℕ := (P.offInJournal i + P.nrJournalBlock) % 2 ^ 32

/-- The blocks of a partition, in exact arithmetic. -/
def Params.exactBlocks : ℕ := 256 * P.journalSize / P.nrStreams

/-- What is computed is what is meant. -/
structure CountsExact : Prop where
  region : P.nrJournalRegionBlock = 256 * P.journalSize
  block : P.nrJournalBlock = P.exactBlocks
  size : P.jSize = P.exactBlocks * 4096
  off : ∀ i < P.nrStreams, P.offInJournal i = i * P.exactBlocks
  boundary : ∀ i < P.nrStreams, P.pareaRightBoundary i = (i + 1) * P.exactBlocks

variable {P}

theorem countsExact_of_lt (h : P.journalSize < 2 ^ 24) : CountsExact P := by
  have hregion : P.nrJournalRegionBlock = 256 * P.journalSize := Nat.mod_eq_of_lt (by omega)
  have hblock : P.nrJournalBlock = P.exactBlocks := by
    rw [Params.nrJournalBlock, hregion, Params.exactBlocks]
  have hle : P.nrJournalBlock ≤ 256 * P.journalSize :=
    (Nat.div_le_self _ _).trans hregion.le
  refine ⟨hregion, hblock, ?_, fun i _ => ?_, fun i hi => ?_⟩
  · rw [Params.jSize, ← hblock]
    exact Nat.mod_eq_of_lt (by omega)
  · rw [Params.offInJournal, hblock]
  · rw [Params.pareaRightBoundary, Nat.mod_eq_of_lt (P.offInJournal_add_lt hi), Nat.succ_mul,
      Params.offInJournal, hblock]

/-- The journal is the first thing to wrap. -/
theorem CountsExact.journalSize_lt (h : CountsExact P) : P.journalSize < 2 ^ 24 := by
  have hregion := h.region
  have := P.nrJournalRegionBlock_lt
  omega

/-- The division leaves less than a block per stream, far below the size at which the counts
wrap. -/
theorem journalSize_lt_of_blocks (h : P.nrStreams * P.exactBlocks < 2 ^ 29) :
    P.journalSize < 2 ^ 24 := by
  have hdiv := Nat.div_add_mod (256 * P.journalSize) P.nrStreams
  have hmod := Nat.mod_lt (256 * P.journalSize) P.nrStreams_pos
  have hstreams : P.nrStreams ≤ 2 ^ 25 := by
    have hle := (Nat.div_pos_iff.mp P.nrOmeta_pos).2
    have := P.ologSize_lt
    omega
  unfold Params.exactBlocks at h
  omega

/-! ### Sectors -/

/-- The sector that `crash_recovery_commit_write` reads for an entry. -/
def recoverySector (e : Ometa) : ℕ := e.plba * 8 % 2 ^ 32

/-- It is the one the replay of the model reads. -/
theorem crashRecoveryCommitWrite_sector {α : Type*} (journal home : ℕ → α) (e : Ometa) (b : ℕ) :
    crashRecoveryCommitWrite journal home e b
      = if e.lba * 8 % 2 ^ 64 / 8 ≤ b ∧ b < e.lba * 8 % 2 ^ 64 / 8 + min e.length 256 then
          journal (recoverySector e / 8 + (b - e.lba * 8 % 2 ^ 64 / 8))
        else home b := rfl

variable (P) in
/-- Some calls after the module was loaded, one of the two allocators accepts a request,
redirects the bio to `b` and returns `plba`. -/
def HandedOut (b : Bio) (plba : ℕ) : Prop :=
  ∃ mem lastTxid cmb ops st,
    Run.run (PartitionState.step P) ⟨initStreams P mem lastTxid cmb, []⟩ ops = some st ∧
      ∃ i < P.nrStreams, ∃ bc src o',
        (horaeGetSecs src ≤ P.nrJournalBlock ∧
          journalWriteAlloc P bc st.o i src = some (o', b, plba)) ∨
        ∃ nr ≤ P.nrJournalBlock, allocJournalBlock P bc st.o i src nr = some (o', b, plba)

variable (P) in
/-- The redirected bio is written to the sector that recovery reads for an entry with the
address returned. -/
def SectorsAgree : Prop :=
  ∀ b plba, HandedOut P b plba → ∀ e : Ometa, e.plba = plba → b.sector = recoverySector e

/-- The address is that of the pointer, somewhere in the partitions. -/
theorem HandedOut.address {b : Bio} {plba : ℕ} (h : HandedOut P b plba) :
    ∃ ptr ≤ P.nrStreams * P.nrJournalBlock, b.sector = ptr * 8 ∧ plba = ptr % 2 ^ 32 := by
  obtain ⟨mem, lastTxid, cmb, ops, st, hrun, i, hi, bc, src, o', halloc⟩ := h
  obtain ⟨st', hrun', hinv⟩ := PartitionInv.of_run mem lastTxid cmb ops
  obtain rfl := Option.some.inj (hrun.symm.trans hrun')
  have hend : P.offInJournal i + P.nrJournalBlock ≤ P.nrStreams * P.nrJournalBlock := by
    rw [Params.offInJournal, ← Nat.succ_mul]
    exact Nat.mul_le_mul_right _ hi
  have hroom : ∀ nr, ((st.o.stream i).allocRoom P i nr).jWritePtr
      ≤ P.nrStreams * P.nrJournalBlock := by
    intro nr
    refine le_trans ?_ hend
    unfold Stream.allocRoom
    split_ifs
    · exact Nat.le_add_right _ _
    · exact (hinv.streams i hi).le_end
  rcases halloc with ⟨hnr, halloc⟩ | ⟨nr, hnr, halloc⟩
  · have hresult := journalWriteAlloc_result halloc
    rw [if_neg (Nat.not_lt.mpr hnr), Stream.allocAddr, if_neg (Nat.not_lt.mpr hnr),
      Prod.mk.injEq] at hresult
    exact ⟨_, hroom _, congrArg Bio.sector hresult.1, hresult.2⟩
  · have hresult := allocJournalBlock_result halloc
    rw [if_neg (Nat.not_lt.mpr hnr), Stream.allocAddr, if_neg (Nat.not_lt.mpr hnr),
      Prod.mk.injEq] at hresult
    exact ⟨_, hroom _, congrArg Bio.sector hresult.1, hresult.2⟩

/-- A request that fits is served at the pointer. -/
theorem allocRoom_of_fits {i nr : ℕ} {s : Stream} (hi : i < P.nrStreams)
    (hfit : nr + s.jWritePtr ≤ P.offInJournal i + P.nrJournalBlock) : s.allocRoom P i nr = s := by
  rw [Stream.allocRoom, Nat.mod_eq_of_lt (P.offInJournal_add_lt hi), if_neg (Nat.not_lt.mpr hfit)]

/-- One request can take the whole of a partition. -/
theorem fill_partition {k : ℕ} (hk : k < P.nrStreams) (bc : BufferCache) (src : Bio) {o : Olayer}
    (hring : (o.stream k).InRing P) (hptr : (o.stream k).jWritePtr = P.offInJournal k) :
    ∃ st, (PartitionState.mk o []).step P (.allocBlock ⟨k, hk⟩ bc src P.nrJournalBlock) = some st ∧
      (st.o.stream k).InRing P ∧
      (st.o.stream k).jWritePtr = P.offInJournal k + P.nrJournalBlock := by
  obtain ⟨o₁, b₁, h₁, hof⟩ :=
    allocJournalBlock_spec bc src P.nrJournalBlock hring.head_lt hring.flushed_lt
  have hfit : P.nrJournalBlock + (o.stream k).jWritePtr ≤ P.offInJournal k + P.nrJournalBlock := by
    rw [hptr, Nat.add_comm]
  refine ⟨_, congrArg (Option.map _) h₁, ?_, ?_⟩
  · rw [hof.self]
    exact hring.alloc k _
  · rw [hof.self, Stream.alloc, if_neg (lt_irrefl _), allocRoom_of_fits hk hfit, hptr]

/-- The end of the last partition is handed out too: once the partition is full, to a request
for no block at all. -/
theorem handedOut_end (P : Params) :
    ∃ b : Bio, b.sector = P.nrStreams * P.nrJournalBlock * 8 ∧
      HandedOut P b (P.nrStreams * P.nrJournalBlock % 2 ^ 32) := by
  obtain ⟨k, hk⟩ : ∃ k, P.nrStreams = k + 1 := Nat.exists_eq_add_of_le' P.nrStreams_pos
  have hi : k < P.nrStreams := by omega
  have hend : P.offInJournal k + P.nrJournalBlock = P.nrStreams * P.nrJournalBlock := by
    rw [Params.offInJournal, hk, Nat.succ_mul]
  let bc : BufferCache := fun _ _ => .unlocked
  let src : Bio := ⟨⟨0, 1⟩, 0, 0, txSync 0⟩
  obtain ⟨st, hst, hring, hptr⟩ := fill_partition (P := P) hi bc src
    (o := initStreams P (fun _ _ => Ometa.zero) (fun _ => 0) fun _ => Ometa.zero)
    ⟨nrOmeta_pos, nrOmeta_pos, nrOmeta_pos, nrOmeta_pos⟩ rfl
  obtain ⟨o₂, b₂, h₂, -⟩ := allocJournalBlock_spec bc src 0 hring.head_lt hring.flushed_lt
  have hroom : (st.o.stream k).allocRoom P k 0 = st.o.stream k :=
    allocRoom_of_fits hi (by rw [hptr, Nat.zero_add])
  have hresult := allocJournalBlock_result h₂
  rw [if_neg (Nat.not_lt_zero _), hroom, hptr, hend, Prod.mk.injEq] at hresult
  rw [Stream.allocAddr, if_neg (Nat.not_lt_zero _), hroom, hptr, hend] at h₂
  exact ⟨b₂, congrArg Bio.sector hresult.1, _, _, _,
    [.allocBlock ⟨k, hi⟩ bc src P.nrJournalBlock], st,
    Run.run_cons_eq_some.mpr ⟨st, hst, Run.run_nil _ _⟩, k, hi, bc, src, o₂,
    Or.inr ⟨0, Nat.zero_le _, h₂⟩⟩

/-- **Journal addresses.**  The counts and boundaries are exact, and both sides agree on the
sector of every address that can be handed out, exactly when the partitions together have
fewer than `2 ^ 29` blocks. -/
theorem journal_addresses_exact_iff (P : Params) :
    CountsExact P ∧ SectorsAgree P ↔ P.nrStreams * P.exactBlocks < 2 ^ 29 := by
  constructor
  · rintro ⟨hcounts, hsectors⟩
    obtain ⟨b, hb, hout⟩ := handedOut_end P
    have hagree := hsectors b _ hout ⟨0, 0, 0, 0#3, 0, _⟩ rfl
    have hlt := hcounts.journalSize_lt
    have hle : P.nrStreams * P.exactBlocks ≤ 256 * P.journalSize := Nat.mul_div_le _ _
    simp only [recoverySector, hb, hcounts.block] at hagree
    omega
  · intro hblocks
    have hcounts := countsExact_of_lt (journalSize_lt_of_blocks hblocks)
    refine ⟨hcounts, fun b plba hout e he => ?_⟩
    obtain ⟨ptr, hptr, hsector, hplba⟩ := hout.address
    rw [hcounts.block] at hptr
    rw [hsector, recoverySector, he, hplba, Nat.mod_eq_of_lt (b := 2 ^ 32) (by omega),
      Nat.mod_eq_of_lt (by omega)]

/-- The small controller with a journal of `mb` megabytes. -/
def Params.withJournal (mb : ℕ) : Params := { Params.tiny with journalSize := mb }

/-- With 1 GB, the default, every address is exact. -/
theorem journal_addresses_default :
    CountsExact (Params.withJournal 1024) ∧ SectorsAgree (Params.withJournal 1024) :=
  (journal_addresses_exact_iff (Params.withJournal 1024)).mpr (by decide)

/-- The first request on a stream is served at the start of its partition. -/
theorem handedOut_start {k n : ℕ} (hk : k < P.nrStreams) (hn : n ≤ P.nrJournalBlock) :
    ∃ b : Bio, b.sector = P.offInJournal k * 8 ∧ HandedOut P b (P.offInJournal k % 2 ^ 32) := by
  let bc : BufferCache := fun _ _ => .unlocked
  let src : Bio := ⟨⟨0, 1⟩, 0, 0, txSync 0⟩
  let o := initStreams P (fun _ _ => Ometa.zero) (fun _ => 0) fun _ => Ometa.zero
  have hroom : (o.stream k).allocRoom P k n = o.stream k :=
    allocRoom_of_fits hk ((Nat.add_comm _ _).trans_le (Nat.add_le_add_left hn _))
  have hptr : (o.stream k).jWritePtr = P.offInJournal k := rfl
  obtain ⟨o₁, b₁, h₁, -⟩ : ∃ o₁ b₁, allocJournalBlock P bc o k src n
      = some (o₁, b₁, (o.stream k).allocAddr P k n) ∧ AllocOf P bc k n o o₁ :=
    allocJournalBlock_spec bc src n nrOmeta_pos nrOmeta_pos
  have hresult := allocJournalBlock_result h₁
  rw [if_neg (Nat.not_lt.mpr hn), hroom, hptr, Prod.mk.injEq] at hresult
  rw [Stream.allocAddr, if_neg (Nat.not_lt.mpr hn), hroom, hptr] at h₁
  exact ⟨b₁, congrArg Bio.sector hresult.1, _, _, _, [], ⟨o, []⟩, Run.run_nil _ _, k, hk, bc, src,
    o₁, Or.inr ⟨n, hn, h₁⟩⟩

/-- With 16 TB the number of blocks wraps to 0.  With 4 TB the counts are exact, but the first
block of stream 63 is written to one sector and looked for in another. -/
theorem journal_addresses_wrap :
    (Params.withJournal (2 ^ 24)).nrJournalBlock = 0 ∧
      (Params.withJournal (2 ^ 24)).exactBlocks = 2 ^ 26 ∧
      ∃ b : Bio, HandedOut (Params.withJournal (2 ^ 22)) b (63 * 2 ^ 24) ∧
        b.sector = 63 * 2 ^ 27 ∧
        ∀ e : Ometa, e.plba = 63 * 2 ^ 24 → recoverySector e = 31 * 2 ^ 27 := by
  have hoff : (Params.withJournal (2 ^ 22)).offInJournal 63 = 63 * 2 ^ 24 := by decide
  obtain ⟨b, hb, hout⟩ := handedOut_start (P := Params.withJournal (2 ^ 22)) (k := 63)
    (by decide) (n := 1) (by decide)
  rw [hoff] at hb hout
  refine ⟨by decide, by decide, b, hout, by omega, fun e he => ?_⟩
  rw [recoverySector, he]
  rfl

end CcNvme

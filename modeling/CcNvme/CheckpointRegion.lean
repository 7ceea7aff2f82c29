/-
CcNvme/CheckpointRegion.lean

Where `write_checkpoint` writes.  `cp_dev` begins with the journal region, behind which
each stream has `nr_cp_block` blocks for the checkpoint of its queue.  The sector of the
request is `CP_REGION_START(journal_size)`, which counts blocks, and the offset of the stream
in the checkpoint region is not added: the write goes to the first eighth of the journal
region, whichever stream it is for.

`checkpoint_placed_iff` says when it is in the right place all the same, and large enough.
-/
import CcNvme.JournalPartition

namespace CcNvme

open Bump (Extent)

variable (P : Params) (cpSize : ℕ)

/-! ### The layout of `cp_dev` -/

/-- `NR_CP_REGION_BLOCK(cp_size)`, a product of `unsigned int`s. -/
def nrCpRegionBlock : ℕ := 256 * cpSize % 2 ^ 32

/-- `nr_cp_block`, set by `stream_init_cp`. -/
def Params.nrCpBlock : ℕ := nrCpRegionBlock cpSize / P.nrStreams

/-- `off_in_cp` of stream `sid`. -/
def Params.offInCp (sid : ℕ) : ℕ := sid * P.nrCpBlock cpSize

/-- The sectors of the journal region. -/
def Params.journalSectors : Extent := ⟨0, 8 * P.cpRegionStart⟩

/-- The sectors of the checkpoint partition of stream `sid`. -/
def Params.cpSectors (sid : ℕ) : Extent :=
  ⟨8 * (P.cpRegionStart + P.offInCp cpSize sid), 8 * P.nrCpBlock cpSize⟩

/-- The sectors of a write of whole pages. -/
def Request.pageSectors : Request → Extent
  | .pages _ sector nrPages _ => ⟨sector, 8 * nrPages⟩
  | _ => ⟨0, 0⟩

/-! ### The property -/

/-- The request stays in the partition of the stream, and so away from the journal and from
the other partitions, and has room for the entries from `head` to `tail`. -/
structure CheckpointPlaced (sid : ℕ) (s : Stream) (r : Request) : Prop where
  inside : ∀ x, r.pageSectors.Covers x → (P.cpSectors cpSize sid).Covers x
  journal : r.pageSectors.Disjoint P.journalSectors
  foreign : ∀ i ≠ sid, r.pageSectors.Disjoint (P.cpSectors cpSize i)
  enough : horaeCount s.head s.tail P.nrOmeta * 64 ≤ r.pageSectors.length * 512

/-- There is nothing to save; or there is no journal, the stream is the first, and the
entries fit its partition and one bio. -/
def CheckpointFits (sid : ℕ) (s : Stream) : Prop :=
  horaeCount s.head s.tail P.nrOmeta = 0 ∨
    P.nrJournalRegionBlock = 0 ∧ sid = 0 ∧
      horaeCount s.head s.tail P.nrOmeta ≤ 64 * P.nrCpBlock cpSize ∧
      horaeCount s.head s.tail P.nrOmeta ≤ 64 * 256

/-! ### Sectors -/

variable {P cpSize} {sid : ℕ} {s : Stream}

/-- Two partitions do not overlap. -/
theorem cpSectors_disjoint {i j : ℕ} (h : i ≠ j) :
    (P.cpSectors cpSize i).Disjoint (P.cpSectors cpSize j) := by
  apply Extent.disjoint_iff.mpr
  unfold Params.cpSectors Params.offInCp
  dsimp only
  generalize P.nrCpBlock cpSize = n
  rcases Nat.lt_or_gt_of_ne h with hlt | hlt
  · have : (i + 1) * n ≤ j * n := Nat.mul_le_mul_right _ hlt
    rw [Nat.succ_mul] at this
    omega
  · have : (j + 1) * n ≤ i * n := Nat.mul_le_mul_right _ hlt
    rw [Nat.succ_mul] at this
    omega

/-- Whatever lies inside the partition of a stream is away from the rest. -/
theorem checkpointPlaced_iff {r : Request} : CheckpointPlaced P cpSize sid s r ↔
    (∀ x, r.pageSectors.Covers x → (P.cpSectors cpSize sid).Covers x) ∧
      horaeCount s.head s.tail P.nrOmeta * 64 ≤ r.pageSectors.length * 512 := by
  refine ⟨fun h => ⟨h.inside, h.enough⟩, fun ⟨hin, henough⟩ => ⟨hin, ?_, ?_, henough⟩⟩
  · rintro x ⟨hx, hjournal⟩
    have hlo := (hin x hx).1
    have hhi := hjournal.2
    unfold Params.cpSectors at hlo
    unfold Params.journalSectors at hhi
    dsimp only at hlo hhi
    omega
  · rintro i hi x ⟨hx, hother⟩
    exact cpSectors_disjoint (Ne.symm hi) x ⟨hin x hx, hother⟩

/-- The pages of the request: those the entries need, and no more than one bio has. -/
def checkpointPages (count : ℕ) : ℕ := min ((count + 63) / 64) 256

theorem writeCheckpoint_io (o : Olayer) (sid : ℕ) :
    (writeCheckpoint P o sid).io = o.io ++ [Request.pages P.cpDev P.nrJournalRegionBlock
      (checkpointPages (horaeCount (o.stream sid).head (o.stream sid).tail P.nrOmeta)) []] := by
  have hlt : horaeCount (o.stream sid).head (o.stream sid).tail P.nrOmeta < P.nrOmeta :=
    Nat.mod_lt _ nrOmeta_pos
  have hn : P.nrOmeta ≤ P.ologSize / 64 := Nat.div_le_self _ _
  have hsize := P.ologSize_lt
  unfold writeCheckpoint checkpointPages
  dsimp only
  generalize horaeCount (o.stream sid).head (o.stream sid).tail P.nrOmeta = n at hlt ⊢
  have hwidth : n * 64 % 2 ^ 32 = n * 64 := Nat.mod_eq_of_lt (by omega)
  simp only [hwidth]
  congr 3
  split_ifs <;> omega

/-- **The checkpoint of a queue** is written into the partition of its stream exactly when
there is nothing to write, or by the first stream of a device without a journal. -/
theorem checkpoint_placed_iff (P : Params) (cpSize sid : ℕ) (o : Olayer) :
    (∃ r, (writeCheckpoint P o sid).io = o.io ++ [r] ∧
        CheckpointPlaced P cpSize sid (o.stream sid) r) ↔
      CheckpointFits P cpSize sid (o.stream sid) := by
  have hone : ∀ p : Request, (∃ r, o.io ++ [p] = o.io ++ [r] ∧
      CheckpointPlaced P cpSize sid (o.stream sid) r) ↔
        CheckpointPlaced P cpSize sid (o.stream sid) p := fun p =>
    ⟨fun ⟨r, hr, h⟩ => List.singleton_injective (List.append_cancel_left hr) ▸ h,
      fun h => ⟨p, rfl, h⟩⟩
  rw [writeCheckpoint_io, hone, checkpointPlaced_iff, Extent.subset_iff]
  unfold CheckpointFits Request.pageSectors Params.cpSectors Params.cpRegionStart checkpointPages
  generalize horaeCount (o.stream sid).head (o.stream sid).tail P.nrOmeta = n
  dsimp only
  constructor
  · rintro ⟨hempty | ⟨hlo, hhi⟩, henough⟩
    · exact Or.inl (by omega)
    · -- a block number that is the sector of its own block is 0
      have hoff : P.offInCp cpSize sid = 0 := by omega
      rcases Nat.mul_eq_zero.mp hoff with hsid | hnone
      · exact or_iff_not_imp_left.mpr fun _ => ⟨by omega, hsid, by omega, by omega⟩
      · exact Or.inl (by omega)
  · rintro (hempty | ⟨hregion, rfl, hfit, hpages⟩)
    · exact ⟨Or.inl (by omega), by omega⟩
    · have hoff : P.offInCp cpSize 0 = 0 := Nat.zero_mul _
      exact ⟨Or.inr ⟨by omega, by omega⟩, by omega⟩

/-- Three entries of stream 8 wait in the small controller. -/
def tinyFull : Olayer :=
  tinyLoaded.setStream 8 { tinyLoaded.stream 8 with tail := 3, tailWatermark := 3 }

/-- The page goes to the first block of the journal partition of stream 8, and not to the
partition behind the journal region. -/
theorem checkpoint_overwrites_journal :
    ∃ r, (writeCheckpoint Params.tiny tinyFull 8).io = tinyFull.io ++ [r] ∧
      r.pageSectors = ⟨8 * Params.tiny.offInJournal 8, 8⟩ ∧
      ¬ r.pageSectors.Disjoint Params.tiny.journalSectors ∧
      Params.tiny.cpSectors 10 8 = ⟨8 * (256 + 8 * 40), 8 * 40⟩ ∧
      ¬ CheckpointPlaced Params.tiny 10 8 (tinyFull.stream 8) r :=
  ⟨.pages Params.tiny.cpDev 256 1 [], by decide +kernel, by decide +kernel, by decide +kernel,
    by decide +kernel, fun h => absurd h.journal (by decide +kernel)⟩

end CcNvme

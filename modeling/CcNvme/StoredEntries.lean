/-
CcNvme/StoredEntries.lean

What the ring entry of a write says about it.  `stream_submit_bio` and `stream_submit_bh`
store the entry of a write that stays in place, the journaled path of
`stream_submit_bio_ipu` that of a write sent to the journal.  `StoredWrite.submit_publish`
says once, for all three and for every state, what such a call does.

Two results follow.  `refused_allocation_iff`: the test for a refused allocation compares a
`u32` with 0, so a refused write leaves a trace whenever it takes the ordered path.
`recorded_extent_iff`: the extent in the entry covers the sectors written only for whole
4 KiB blocks, and a buffer head has to be one such block.
-/
import CcNvme.Client
import CcNvme.Lib.Bump

namespace CcNvme

open Bump (Extent)

/-! ### The third entry point -/

/-- `horae_get_bh_secs` -/
def horaeGetBhSecs (bh : BufferHead) : ℕ := bh.size / 4096

/-- The flags left in `op_flags` by `stream_submit_bh`. -/
def bhOpf (f : ReqFlags) : ReqFlags :=
  let f₁ := if opIsOrderedWrite f then { f with ordered := false } else f
  let f₂ := if opIsBarrierWrite f then { f₁ with barrier := false } else f₁
  { f₂ with tx := false, txCommit := false }

/-- `stream_submit_bh`: the entry gets the block number of the file system as it is. -/
def streamSubmitBh (P : Params) (bc : BufferCache) (fuel : ℕ) (o : Olayer) (bh : BufferHead)
    (opf : ReqFlags) (sid : ℕ) : Option Olayer :=
  if !horaePath opf then some (submitBio o (bh2bio opf bh))
  else
    (streamSubmitBioCore P bc (clampSid P sid)
      ⟨bh.blocknr, horaeGetBhSecs bh, bh.dev.diskMinor, 0, txFlag opf⟩ fuel o).map
      fun q => submitBio q.1 (bh2bio (bhOpf opf) bh)

/-- A write, as it is handed to one of the entry points that store an entry. -/
inductive StoredWrite where
  | bio (b : Bio)
  | ipu (b : Bio) (forced : Bool)
  | bh (buf : BufferHead) (opf : ReqFlags)

namespace StoredWrite

variable (P : Params)

/-- The call. -/
def submit (bc : BufferCache) (fuel : ℕ) (o : Olayer) (sid : ℕ) : StoredWrite → Option Olayer
  | .bio b => streamSubmitBio P bc fuel o b sid
  | .ipu b forced => streamSubmitBioIpu P bc fuel o b sid forced
  | .bh buf opf => streamSubmitBh P bc fuel o buf opf sid

/-- Whether the call stores an entry. -/
def stores : StoredWrite → Bool
  | .bio b => horaePath b.opf
  | .ipu b forced => horaePath b.opf && (P.versionConsistency || forced)
  | .bh _ opf => horaePath opf

/-- What the call passes to `stream_submit_bio_core` when it finds the stream `s`. -/
def args (sid : ℕ) (s : Stream) : StoredWrite → SubmitArgs
  | .bio b => ⟨horaeGetLba b, horaeGetSecs b, b.dev.diskMinor, 0, txFlag b.opf⟩
  | .ipu b _ =>
      ⟨horaeGetLba b, horaeGetSecs b, b.dev.diskMinor, s.allocAddr P sid (horaeGetSecs b),
        txFlag b.opf⟩
  | .bh buf opf => ⟨buf.blocknr, horaeGetBhSecs buf, buf.dev.diskMinor, 0, txFlag opf⟩

/-- The bio that leaves the module. -/
def sent (sid : ℕ) (s : Stream) : StoredWrite → Bio
  | .bio b => { b with opf := submitOpf b.opf }
  | .ipu b _ =>
      let b' := { b with opf := ipuOpf b.opf }
      if horaeGetSecs b > P.nrJournalBlock then b'
      else redirect P b' (s.allocRoom P sid (horaeGetSecs b)).jWritePtr
  | .bh buf opf => bh2bio (bhOpf opf) buf

end StoredWrite

/-! ### What a call does -/

variable {P : Params} {bc : BufferCache} {o o' : Olayer} {sid fuel : ℕ}

theorem allocSpace_ptr {nr : ℕ} {r : Olayer × ℕ} (h : allocSpace P bc o sid nr = some r) :
    r.2 = ((o.stream sid).allocRoom P sid nr).jWritePtr := by
  obtain ⟨o₁, h₁, rfl⟩ := Option.map_eq_some_iff.mp h
  show (o₁.stream sid).jWritePtr = _
  unfold Stream.allocRoom
  split_ifs at h₁ ⊢
  · obtain ⟨o₂, h₂, rfl⟩ := Option.map_eq_some_iff.mp h₁
    rw [Olayer.setStream_self]
    rfl
  · rw [Option.some.inj h₁]

/-- The bio and the address that `journal_write_alloc` returns. -/
theorem journalWriteAlloc_result {b : Bio} {r : Olayer × Bio × ℕ}
    (h : journalWriteAlloc P bc o sid b = some r) :
    r.2 = (if horaeGetSecs b > P.nrJournalBlock then b
      else redirect P b ((o.stream sid).allocRoom P sid (horaeGetSecs b)).jWritePtr,
      (o.stream sid).allocAddr P sid (horaeGetSecs b)) := by
  unfold journalWriteAlloc at h
  unfold Stream.allocAddr
  dsimp only at h
  split_ifs at h ⊢
  · rw [← Option.some.inj h]
  · obtain ⟨r', h', rfl⟩ := Option.map_eq_some_iff.mp h
    rw [allocSpace_ptr h']

/-- The bio and the address that `alloc_journal_block` returns. -/
theorem allocJournalBlock_result {b : Bio} {nr : ℕ} {r : Olayer × Bio × ℕ}
    (h : allocJournalBlock P bc o sid b nr = some r) :
    r.2 = (if nr > P.nrJournalBlock then b
      else redirect P b ((o.stream sid).allocRoom P sid nr).jWritePtr,
      (o.stream sid).allocAddr P sid nr) := by
  unfold allocJournalBlock at h
  unfold Stream.allocAddr
  split_ifs at h ⊢
  · rw [← Option.some.inj h]
  · obtain ⟨r', h', rfl⟩ := Option.map_eq_some_iff.mp h
    rw [allocSpace_ptr h']

/-- Whether a submit returns does not depend on what it stores. -/
theorem streamSubmitBioCore_isSome_of {a : SubmitArgs} {q : Olayer × ℕ}
    (h : streamSubmitBioCore P bc sid a fuel o = some q) (a' : SubmitArgs) :
    ∃ q', streamSubmitBioCore P bc sid a' fuel o = some q' := by
  induction fuel generalizing o with
  | zero => cases h
  | succ fuel ih =>
      unfold streamSubmitBioCore at h ⊢
      dsimp only at h ⊢
      split_ifs at h ⊢
      · obtain ⟨o₁, h₁, h₂⟩ := Option.bind_eq_some_iff.mp h
        rw [h₁, Option.bind_some]
        exact ih h₂
      · exact ⟨_, rfl⟩
      · exact ih h

namespace StoredWrite

variable {w : StoredWrite} {i : ℕ}

/-- **A write that is stored**, in whatever state: journal blocks may be taken and entries
retired; then the entry is published at `tail`, and the write is sent. -/
theorem submit_publish (hi : clampSid P sid = i) (hw : w.stores P = true)
    (h : w.submit P bc fuel o sid = some o') :
    ∃ o₁, Retiring P i (o.stream i) (o₁.stream i) ∧
      1 ≤ horaeRingSpace (o₁.stream i).head (o.stream i).tail P.nrOmeta ∧
      o' = submitBio (publish P o₁ i (w.args P i (o.stream i)) (o.stream i).tail
        (((o.stream i).tail + 1) % 2 ^ 32 % P.nrOmeta)) (w.sent P i (o.stream i)) := by
  cases w with
  | bio b =>
      have hpath : horaePath b.opf = true := hw
      simp only [submit, streamSubmitBio, hi, hpath, Bool.not_true, Bool.false_eq_true,
        if_false] at h
      obtain ⟨q, hq, rfl⟩ := Option.map_eq_some_iff.mp h
      obtain ⟨o₁, hretiring, -, hroom, rfl⟩ := streamSubmitBioCore_publish hq
      exact ⟨o₁, hretiring, hroom, rfl⟩
  | bh buf opf =>
      have hpath : horaePath opf = true := hw
      simp only [submit, streamSubmitBh, hi, hpath, Bool.not_true, Bool.false_eq_true,
        if_false] at h
      obtain ⟨q, hq, rfl⟩ := Option.map_eq_some_iff.mp h
      obtain ⟨o₁, hretiring, -, hroom, rfl⟩ := streamSubmitBioCore_publish hq
      exact ⟨o₁, hretiring, hroom, rfl⟩
  | ipu b forced =>
      obtain ⟨hpath, hjournal⟩ := Bool.and_eq_true_iff.mp hw
      simp only [submit, streamSubmitBioIpu, hi, hpath, hjournal, Bool.not_true,
        Bool.false_eq_true, if_false, if_true, Nat.not_lt_zero] at h
      obtain ⟨r, hr, h⟩ := Option.bind_eq_some_iff.mp h
      obtain ⟨q, hq, rfl⟩ := Option.map_eq_some_iff.mp h
      have halloc := journalWriteAlloc_retiring hr
      obtain ⟨o₁, hretiring, -, hroom, rfl⟩ := streamSubmitBioCore_publish hq
      rw [halloc.sameEntries.tail] at hroom ⊢
      rw [journalWriteAlloc_result hr]
      exact ⟨o₁, halloc.trans hretiring, hroom, rfl⟩

/-- The ring after it. -/
theorem submit_ometa (hi : clampSid P sid = i) (hw : w.stores P = true)
    (h : w.submit P bc fuel o sid = some o') :
    (o'.stream i).ometa = Function.update (o.stream i).ometa (o.stream i).tail
      (fillOmeta ((o.stream i).ometa (o.stream i).tail) (o.stream i).committed
        (w.args P i (o.stream i))) := by
  obtain ⟨o₁, hretiring, -, rfl⟩ := submit_publish hi hw h
  have hsame := hretiring.sameEntries
  show ((publish P o₁ _ _ _ _).stream _).ometa = _
  rw [publish_stream, ← hsame.ometa, ← hsame.committed]

end StoredWrite

/-! ### A refused allocation -/

/-- The write went to its own device and sector, and nothing else has changed. -/
structure NoTrace (o o' : Olayer) (b : Bio) : Prop where
  stream : o'.stream = o.stream
  cmb : o'.cmb = o.cmb
  ipuTree : o'.ipuTree = o.ipuTree
  sent : ∃ b', o'.io = o.io ++ [Request.bio b'] ∧ b'.dev = b.dev ∧ b'.sector = b.sector

/-- The write went to its own device and sector, but the ring has an entry for it that names a
journal block no device has. -/
structure BogusEntry (i : ℕ) (o o' : Olayer) (b : Bio) : Prop where
  tail : (o'.stream i).tail ≠ (o.stream i).tail
  plba : ((o'.stream i).ometa (o.stream i).tail).plba = 2 ^ 32 - 1
  sent : ∃ b', o'.io.getLast? = some (.bio b') ∧ b'.dev = b.dev ∧ b'.sector = b.sector

/-- With space in the ring, the slot behind `tail` is another one. -/
theorem next_slot_ne {head tail : ℕ} (h : 1 ≤ horaeRingSpace head tail P.nrOmeta) :
    (tail + 1) % 2 ^ 32 % P.nrOmeta ≠ tail := by
  have hspace : horaeRingSpace head tail P.nrOmeta < P.nrOmeta := Nat.mod_lt _ nrOmeta_pos
  have hsize := P.nrOmeta_lt
  intro heq
  have hlt : tail < P.nrOmeta := heq ▸ Nat.mod_lt _ nrOmeta_pos
  rw [Nat.mod_eq_of_lt (a := tail + 1) (by omega)] at heq
  rcases Nat.lt_or_ge (tail + 1) P.nrOmeta with hnext | hnext
  · rw [Nat.mod_eq_of_lt hnext] at heq
    omega
  · rw [show tail + 1 = P.nrOmeta by omega, Nat.mod_self] at heq
    omega

/-- An entry has been published: `tail` has moved. -/
theorem StoredWrite.submit_tail {w : StoredWrite} {i : ℕ} (hi : clampSid P sid = i)
    (hw : w.stores P = true) (h : w.submit P bc fuel o sid = some o') :
    (o'.stream i).tail ≠ (o.stream i).tail := by
  obtain ⟨o₁, -, hroom, rfl⟩ := submit_publish hi hw h
  show ((publish P o₁ i _ _ _).stream i).tail ≠ _
  rw [publish_stream]
  exact next_slot_ne hroom

/-- **A refused allocation** leaves no trace exactly when the write does not take the ordered
path, on which the result of an allocation is not looked at in any case.  On the ordered path
the failure value is stored as a journal address. -/
theorem refused_allocation_iff (P : Params) (bc : BufferCache) (fuel : ℕ) (o : Olayer) (b : Bio)
    (sid : ℕ) (forced : Bool) (hlarge : horaeGetSecs b > P.nrJournalBlock)
    (hjournal : (P.versionConsistency || forced) = true) :
    ((∃ o', streamSubmitBioIpu P bc fuel o b sid forced = some o' ∧ NoTrace o o' b) ↔
      horaePath b.opf = false) ∧
    (horaePath b.opf = true → ∀ o', streamSubmitBioIpu P bc fuel o b sid forced = some o' →
      BogusEntry (clampSid P sid) o o' b) := by
  have hstores : horaePath b.opf = true → (StoredWrite.ipu b forced).stores P = true :=
    fun hpath => Bool.and_eq_true_iff.mpr ⟨hpath, hjournal⟩
  refine ⟨⟨?_, fun hpath => ?_⟩, fun hpath o' h => ?_⟩
  · rintro ⟨o', h, htrace⟩
    by_contra hpath
    exact StoredWrite.submit_tail rfl (hstores (Bool.eq_true_of_not_eq_false hpath)) h
      (by rw [htrace.stream])
  · refine ⟨submitBio o { b with opf := ipuOpf b.opf }, ?_, rfl, rfl, rfl, _, rfl, rfl, rfl⟩
    simp only [streamSubmitBioIpu, hpath, Bool.not_false, if_true]
  · have hmeta := StoredWrite.submit_ometa rfl (hstores hpath) h
    have haddr : (o.stream (clampSid P sid)).allocAddr P (clampSid P sid) (horaeGetSecs b)
        = 2 ^ 32 - 1 := if_pos hlarge
    refine ⟨StoredWrite.submit_tail rfl (hstores hpath) h, ?_, ?_⟩
    · rw [hmeta, Function.update_self]
      show (o.stream (clampSid P sid)).allocAddr P (clampSid P sid) _ % 2 ^ 32 = _
      rw [haddr, Nat.mod_eq_of_lt (by omega)]
    · obtain ⟨o₁, -, -, rfl⟩ := StoredWrite.submit_publish rfl (hstores hpath) h
      have hsent : (StoredWrite.ipu b forced).sent P (clampSid P sid) (o.stream (clampSid P sid))
          = { b with opf := ipuOpf b.opf } := if_pos hlarge
      exact ⟨_, List.getLast?_concat, by rw [hsent], by rw [hsent]⟩

/-- Five pages for a partition of four, without a flag of the ordered path. -/
def plainPages : Bio := ⟨⟨0, 1⟩, 24, 5 * 4096, { txSync 0 with tx := false }⟩

theorem refused_allocation_iff_plain :
    ∃ o', streamSubmitBioIpu Params.tiny (fun _ _ => .unlocked) 2 tinyLoaded plainPages 0 true
      = some o' ∧ NoTrace tinyLoaded o' plainPages :=
  (refused_allocation_iff Params.tiny (fun _ _ => .unlocked) 2 tinyLoaded plainPages 0 true
    (by decide) rfl).1.mpr rfl

/-- The same pages in a transaction: the entry in slot 0 asks recovery to copy five blocks from
the last block number there is. -/
theorem refused_allocation_recorded :
    ∃ o', streamSubmitBioIpu Params.tiny (fun _ _ => .unlocked) 2 tinyLoaded (pages 3 5) 0 true
      = some o' ∧ (o'.stream 0).tail = 1 ∧
      ((o'.stream 0).ometa 0).plba = 4294967295 ∧ ((o'.stream 0).ometa 0).length = 5 ∧
      o'.io = [.bio (pages 3 5)] ∧ ¬ NoTrace tinyLoaded o' (pages 3 5) := by
  have hrun : (streamSubmitBioIpu Params.tiny (fun _ _ => .unlocked) 2 tinyLoaded (pages 3 5) 0
      true).map (fun o' => ((o'.stream 0).tail, ((o'.stream 0).ometa 0).plba,
        ((o'.stream 0).ometa 0).length, o'.io))
      = some (1, 4294967295, 5, [.bio (pages 3 5)]) := by decide +kernel
  obtain ⟨o', h, hfacts⟩ := Option.map_eq_some_iff.mp hrun
  simp only [Prod.mk.injEq] at hfacts
  obtain ⟨htail, hplba, hlength, hio⟩ := hfacts
  refine ⟨o', h, htail, hplba, hlength, hio, fun htrace => ?_⟩
  rw [htrace.stream] at htail
  exact absurd htail (by decide)

/-! ### Recorded extents -/

/-- The sectors a bio writes. -/
def Bio.sectors (b : Bio) : Extent := ⟨b.sector, b.size / 512⟩

/-- The sectors an entry speaks of: its extent, read as 4 KiB blocks. -/
def Ometa.sectors (e : Ometa) : Extent := ⟨8 * e.lba, 8 * e.length⟩

/-- The sectors of the blocks an accepted allocation of `nr` blocks hands out. -/
def Stream.allocSectors (P : Params) (sid nr : ℕ) (s : Stream) : Extent :=
  ⟨8 * (s.allocRoom P sid nr).jWritePtr, 8 * nr⟩

namespace StoredWrite

/-- The bio that describes the write. -/
def asBio : StoredWrite → Bio
  | .bio b => b
  | .ipu b _ => b
  | .bh buf opf => bh2bio opf buf

/-- The sector, and the block number of a buffer head, fit a `sector_t`. -/
def InSectorT : StoredWrite → Prop
  | .bio b => b.sector < 2 ^ 64
  | .ipu b _ => b.sector < 2 ^ 64
  | .bh buf _ => buf.blocknr < 2 ^ 64

/-- Whole 4 KiB blocks, few enough for the 16 bits of `length`. -/
def Whole4k : StoredWrite → Prop
  | .bio b => b.size = 0 ∨ b.sector % 8 = 0 ∧ b.size % 4096 = 0 ∧ b.size / 4096 < 2 ^ 16
  | .ipu b _ => b.size = 0 ∨ b.sector % 8 = 0 ∧ b.size % 4096 = 0 ∧ b.size / 4096 < 2 ^ 16
  -- the number of a buffer head counts blocks of its own size
  | .bh buf _ => buf.size = 4096 ∨
      buf.blocknr = 0 ∧ buf.size % 4096 = 0 ∧ buf.size / 4096 < 2 ^ 16

end StoredWrite

/-- The entry stored on stream `i` between `o` and `o'` has the extent that `stream_submit_bio`
stores for a bio of the same sectors, on any stream and in any state. -/
def AgreesWithBio (P : Params) (i : ℕ) (o o' : Olayer) (b : Bio) : Prop :=
  ∀ (b₁ : Bio) bc fuel sid o₁ o₁', b₁.sector = b.sector → b₁.size = b.size →
    horaePath b₁.opf = true → streamSubmitBio P bc fuel o₁ b₁ sid = some o₁' →
    ((o'.stream i).ometa (o.stream i).tail).sectors
      = ((o₁'.stream (clampSid P sid)).ometa (o₁.stream (clampSid P sid)).tail).sectors

/-- What the entry of a write says, after a call on stream `i` that led from `o` to `o'`. -/
structure ExtentRecorded (P : Params) (i : ℕ) (o o' : Olayer) (w : StoredWrite) : Prop where
  /-- it covers every sector written -/
  covers : ∀ x, w.asBio.sectors.Covers x →
    ((o'.stream i).ometa (o.stream i).tail).sectors.Covers x
  /-- the journaled copy stays in the blocks handed out for it -/
  own : ∀ b forced, w = .ipu b forced → horaeGetSecs b ≤ P.nrJournalBlock →
    ∃ b', o'.io.getLast? = some (.bio b') ∧ ∀ x, b'.sectors.Covers x →
      ((o.stream i).allocSectors P i (horaeGetSecs b)).Covers x
  agrees : ∀ buf opf, w = .bh buf opf → AgreesWithBio P i o o' w.asBio

/-- The extent stored for a write. -/
theorem StoredWrite.submit_sectors {w : StoredWrite} {i : ℕ} (hi : clampSid P sid = i)
    (hw : w.stores P = true) (h : w.submit P bc fuel o sid = some o') :
    ((o'.stream i).ometa (o.stream i).tail).sectors
      = ⟨8 * ((w.args P i (o.stream i)).lba % 2 ^ 64),
          8 * ((w.args P i (o.stream i)).nrPages % 2 ^ 16)⟩ := by
  rw [submit_ometa hi hw h, Function.update_self]
  rfl

/-- The blocks from `sector / 8` on cover the sectors exactly when both ends are aligned. -/
theorem bio_covers_iff {b : Bio} (h512 : b.size % 512 = 0) (hsector : b.sector < 2 ^ 64) :
    (∀ x, b.sectors.Covers x → (⟨8 * (horaeGetLba b % 2 ^ 64), 8 * (horaeGetSecs b % 2 ^ 16)⟩ :
      Extent).Covers x) ↔
      b.size = 0 ∨ b.sector % 8 = 0 ∧ b.size % 4096 = 0 ∧ b.size / 4096 < 2 ^ 16 := by
  rw [Extent.subset_iff]
  unfold Bio.sectors horaeGetLba horaeGetSecs
  dsimp only
  omega

/-- A block number counted in blocks of `n` sectors and read in blocks of eight. -/
theorem bh_covers_iff {buf : BufferHead} (opf : ReqFlags) (h512 : buf.size % 512 = 0)
    (hblocknr : buf.blocknr < 2 ^ 64) (hsize : buf.size ≠ 0) :
    (∀ x, (bh2bio opf buf).sectors.Covers x →
      (⟨8 * (buf.blocknr % 2 ^ 64), 8 * (horaeGetBhSecs buf % 2 ^ 16)⟩ : Extent).Covers x) ↔
      (StoredWrite.bh buf opf).Whole4k := by
  rw [Extent.subset_iff, Nat.mod_eq_of_lt hblocknr]
  unfold Bio.sectors bh2bio horaeGetBhSecs StoredWrite.Whole4k
  dsimp only
  obtain ⟨n, hn⟩ : ∃ n, buf.size = 512 * n := ⟨buf.size / 512, by omega⟩
  have hsectors : buf.size / 512 = n := by omega
  rw [hsectors]
  constructor
  · rintro (hzero | ⟨hlo, hhi⟩)
    · omega
    · rcases Nat.eq_zero_or_pos buf.blocknr with hfirst | hpos
      · rw [hfirst, Nat.zero_mul] at hhi
        exact Or.inr ⟨hfirst, by omega, by omega⟩
      · -- the block number of a longer block points too far down
        have height : 8 ≤ n := by
          rw [Nat.mul_comm 8] at hlo
          exact Nat.le_of_mul_le_mul_left hlo hpos
        obtain ⟨m, rfl⟩ := Nat.exists_eq_add_of_le height
        rw [Nat.mul_add] at hhi
        have hm : buf.blocknr * m = 0 := by omega
        rcases Nat.mul_eq_zero.mp hm with hzero | rfl
        · omega
        · exact Or.inl (by omega)
  · rintro (hpage | ⟨hfirst, hwhole, hshort⟩)
    · obtain rfl : n = 8 := by omega
      exact Or.inr ⟨by omega, by omega⟩
    · rw [hfirst]
      exact Or.inr ⟨by omega, by omega⟩

/-- Where a buffer head can be stored, so can the bio of the same sectors. -/
theorem streamSubmitBio_isSome_of_bh {buf : BufferHead} {opf : ReqFlags}
    (hpath : horaePath opf = true) (h : streamSubmitBh P bc fuel o buf opf sid = some o') :
    ∃ o₁, streamSubmitBio P bc fuel o (bh2bio opf buf) sid = some o₁ := by
  have hbio : horaePath (bh2bio opf buf).opf = true := hpath
  simp only [streamSubmitBh, hpath, Bool.not_true, Bool.false_eq_true, if_false] at h
  obtain ⟨q, hq, -⟩ := Option.map_eq_some_iff.mp h
  simp only [streamSubmitBio, hbio, Bool.not_true, Bool.false_eq_true, if_false]
  obtain ⟨q', hq'⟩ := streamSubmitBioCore_isSome_of hq _
  exact ⟨_, Option.map_eq_some_iff.mpr ⟨q', hq', rfl⟩⟩

/-- A buffer head of one 4 KiB block, or the first of its device, has the number of the 4 KiB
block it begins with. -/
theorem bh_lba_eq {buf : BufferHead} {opf : ReqFlags} (h : (StoredWrite.bh buf opf).Whole4k) :
    horaeGetLba (bh2bio opf buf) = buf.blocknr := by
  unfold horaeGetLba bh2bio
  rcases h with hpage | ⟨hfirst, -⟩
  · have hsectors : buf.size / 512 = 8 := by omega
    rw [hsectors, Nat.mul_div_cancel _ (by omega)]
  · simp [hfirst]

/-- The journaled copy of whole blocks stays in the blocks handed out. -/
theorem StoredWrite.sent_own {b : Bio} (forced : Bool) {i : ℕ} {s : Stream}
    (hfit : horaeGetSecs b ≤ P.nrJournalBlock) (hwhole : (StoredWrite.ipu b forced).Whole4k) :
    ∀ x, ((StoredWrite.ipu b forced).sent P i s).sectors.Covers x →
      (s.allocSectors P i (horaeGetSecs b)).Covers x := by
  have hsize : b.size % 4096 = 0 := by
    rcases hwhole with hzero | ⟨-, hmod, -⟩
    · rw [hzero]
    · exact hmod
  rw [StoredWrite.sent, if_neg (Nat.not_lt.mpr hfit), Extent.subset_iff]
  unfold Stream.allocSectors Bio.sectors redirect horaeGetSecs
  dsimp only
  omega

/-- An empty buffer head is recorded as the empty bio at sector 0 only if its number is 0. -/
theorem ExtentRecorded.blocknr_eq_zero {buf : BufferHead} {opf : ReqFlags}
    (hrec : ExtentRecorded P (clampSid P sid) o o' (.bh buf opf)) (hpath : horaePath opf = true)
    (hblocknr : buf.blocknr < 2 ^ 64) (hsize : buf.size = 0)
    (h : streamSubmitBh P bc fuel o buf opf sid = some o') : buf.blocknr = 0 := by
  obtain ⟨o₁, h₁⟩ := streamSubmitBio_isSome_of_bh hpath h
  have hagree := hrec.agrees buf opf rfl _ bc fuel sid o o₁ rfl rfl hpath h₁
  rw [StoredWrite.submit_sectors (w := .bh buf opf) (P := P) rfl hpath h,
    StoredWrite.submit_sectors (w := .bio (bh2bio opf buf)) (P := P) rfl hpath h₁] at hagree
  have hlba := (Extent.mk.inj hagree).1
  simp only [StoredWrite.args, horaeGetLba, bh2bio, hsize, Nat.zero_div, Nat.mul_zero,
    Nat.zero_mod] at hlba
  omega

/-- A buffer head of whole blocks is recorded as a bio of the same sectors is. -/
theorem bh_agrees {buf : BufferHead} {opf : ReqFlags} (hpath : horaePath opf = true)
    (hwhole : (StoredWrite.bh buf opf).Whole4k)
    (h : streamSubmitBh P bc fuel o buf opf sid = some o') :
    AgreesWithBio P (clampSid P sid) o o' (bh2bio opf buf) := by
  intro b bc₁ fuel₁ sid₁ o₁ o₁' hsector hsize hbio h₁
  have hlba : horaeGetLba b = buf.blocknr := by
    rw [← bh_lba_eq hwhole, horaeGetLba, hsector]
    rfl
  have hsecs : horaeGetSecs b = horaeGetBhSecs buf := by
    rw [horaeGetSecs, hsize]
    rfl
  rw [StoredWrite.submit_sectors (w := .bh buf opf) (P := P) rfl hpath h,
    StoredWrite.submit_sectors (w := .bio b) (P := P) rfl hbio h₁]
  simp only [StoredWrite.args, hlba, hsecs]

/-- The extent decides: whatever else is asked follows for whole blocks. -/
theorem extentRecorded_iff {w : StoredWrite} {i : ℕ} {e : Extent}
    (hstored : ((o'.stream i).ometa (o.stream i).tail).sectors = e)
    (hcovers : (∀ x, w.asBio.sectors.Covers x → e.Covers x) ↔ w.Whole4k)
    (hown : w.Whole4k → ∀ b forced, w = .ipu b forced → horaeGetSecs b ≤ P.nrJournalBlock →
      ∃ b', o'.io.getLast? = some (.bio b') ∧ ∀ x, b'.sectors.Covers x →
        ((o.stream i).allocSectors P i (horaeGetSecs b)).Covers x)
    (hagrees : w.Whole4k → ∀ buf opf, w = .bh buf opf → AgreesWithBio P i o o' w.asBio) :
    ExtentRecorded P i o o' w ↔ w.Whole4k := by
  subst hstored
  exact ⟨fun hrec => hcovers.mp hrec.covers,
    fun hwhole => ⟨hcovers.mpr hwhole, hown hwhole, hagrees hwhole⟩⟩

/-- **Recorded extents.**  The entry of a write covers the sectors written, its journaled copy
stays in its own blocks and a buffer head is recorded as a bio is, exactly when the write
consists of whole 4 KiB blocks. -/
theorem recorded_extent_iff (P : Params) (bc : BufferCache) (fuel : ℕ) (o o' : Olayer) (sid : ℕ)
    (w : StoredWrite) (hw : w.stores P = true) (h512 : w.asBio.size % 512 = 0)
    (hsector : w.InSectorT) (h : w.submit P bc fuel o sid = some o') :
    ExtentRecorded P (clampSid P sid) o o' w ↔ w.Whole4k := by
  have hstored := StoredWrite.submit_sectors rfl hw h
  cases w with
  | bio b =>
      exact extentRecorded_iff hstored (bio_covers_iff h512 hsector) (by rintro - _ _ ⟨⟩)
        (by rintro - _ _ ⟨⟩)
  | ipu b forced =>
      refine extentRecorded_iff hstored (bio_covers_iff h512 hsector) ?_ (by rintro - _ _ ⟨⟩)
      rintro hwhole b₁ forced₁ ⟨⟩ hfit
      obtain ⟨o₁, -, -, rfl⟩ := StoredWrite.submit_publish rfl hw h
      exact ⟨_, List.getLast?_concat, StoredWrite.sent_own forced hfit hwhole⟩
  | bh buf opf =>
      have hagrees : (StoredWrite.bh buf opf).Whole4k → ∀ buf₁ opf₁,
          StoredWrite.bh buf opf = .bh buf₁ opf₁ →
            AgreesWithBio P (clampSid P sid) o o' (bh2bio opf buf) :=
        fun hwhole _ _ _ => bh_agrees hw hwhole h
      by_cases hsize : buf.size = 0
      · -- there is no sector to cover
        have hempty : (bh2bio opf buf).sectors.length = 0 := by simp [Bio.sectors, bh2bio, hsize]
        constructor
        · intro hrec
          exact Or.inr ⟨hrec.blocknr_eq_zero hw hsector hsize h, by omega, by omega⟩
        · intro hwhole
          exact ⟨Extent.subset_iff.mpr (Or.inl hempty), by rintro _ _ ⟨⟩, hagrees hwhole⟩
      · exact extentRecorded_iff hstored (bh_covers_iff opf h512 hsector hsize)
          (by rintro - _ _ ⟨⟩) hagrees

/-- Block 3 of a file system with blocks of `size` bytes. -/
def thirdBlock (size : ℕ) : BufferHead := ⟨⟨0, 1⟩, 3, size, 0⟩

theorem recorded_extent_iff_thirdBlock :
    ∃ o', (StoredWrite.bh (thirdBlock 4096) (txSync 0)).submit Params.tiny (fun _ _ => .unlocked)
        2 tinyLoaded 0 = some o' ∧
      ExtentRecorded Params.tiny 0 tinyLoaded o' (.bh (thirdBlock 4096) (txSync 0)) := by
  obtain ⟨o', h⟩ := Option.isSome_iff_exists.mp (show ((StoredWrite.bh (thirdBlock 4096)
    (txSync 0)).submit Params.tiny (fun _ _ => .unlocked) 2 tinyLoaded 0).isSome by
      decide +kernel)
  have hsector : (StoredWrite.bh (thirdBlock 4096) (txSync 0)).InSectorT := by
    show 3 < 2 ^ 64
    omega
  exact ⟨o', h, (recorded_extent_iff Params.tiny _ 2 tinyLoaded o' 0 _ rfl rfl hsector h).mpr
    (Or.inl rfl)⟩

/-- Half a block for the journal. -/
def halfBlock (k : ℕ) : Bio := ⟨⟨0, 1⟩, 4 * k, 2048, txSync 0⟩

/-- A block of 1 KiB is recorded as no block at all, and far from its sectors; two halves of a
block are journaled at one sector. -/
theorem small_blocks_unrecorded :
    (∃ o', (StoredWrite.bh (thirdBlock 1024) (txSync 0)).submit Params.tiny
        (fun _ _ => .unlocked) 2 tinyLoaded 0 = some o' ∧
      (bh2bio (txSync 0) (thirdBlock 1024)).sectors = ⟨6, 2⟩ ∧
      ((o'.stream 0).ometa 0).sectors = ⟨24, 0⟩ ∧
      ¬ ExtentRecorded Params.tiny 0 tinyLoaded o' (.bh (thirdBlock 1024) (txSync 0))) ∧
    ((StoredWrite.ipu (halfBlock 0) true).submit Params.tiny (fun _ _ => .unlocked) 2
        tinyLoaded 0).bind (fun o₁ => ((StoredWrite.ipu (halfBlock 1) true).submit Params.tiny
          (fun _ _ => .unlocked) 2 o₁ 0).map (·.io))
      = some [.bio ⟨Params.tiny.cpDev, 0, 2048, txSync 0⟩,
          .bio ⟨Params.tiny.cpDev, 0, 2048, txSync 0⟩] := by
  have hrun : ((StoredWrite.bh (thirdBlock 1024) (txSync 0)).submit Params.tiny
      (fun _ _ => .unlocked) 2 tinyLoaded 0).map (fun o' => ((o'.stream 0).ometa 0).sectors)
      = some ⟨24, 0⟩ := by decide +kernel
  obtain ⟨o', h, hsectors⟩ := Option.map_eq_some_iff.mp hrun
  refine ⟨⟨o', h, by decide, hsectors, fun hrec => ?_⟩, by decide +kernel⟩
  have hcovers : ((o'.stream 0).ometa 0).sectors.Covers 6 :=
    hrec.covers 6 (show 6 ≤ 6 ∧ 6 < 6 + 2 by omega)
  rw [hsectors] at hcovers
  exact absurd hcovers.1 (by decide)

end CcNvme

/-
CcNvme/Checkpoint.lean

`ccnvme/checkpoint.c`: the in-place-update index, the write-back of committed
transactions (`commit_write`), the two journal allocators and the ring-full
checkpoint.

`commit_write` never changes a `struct stream`; what it does is delete index
entries and send buffers to their home location.  The three places that
retire queue entries after it (both allocators when the partition is full,
and `truncate_ordering_log`) run the same three statements, here `journalWrap`.

The buffer cache is outside the repository: `BufferCache` answers what
`sb_getblk` and `buffer_locked` say about a block at the time of the call.
-/
import CcNvme.Scan

namespace CcNvme

/-- `sb_getblk(sb, lba)` and `buffer_locked` of its result. -/
inductive Getblk where
  | noMem
  | locked
  | unlocked
  deriving DecidableEq, Repr

/-- The buffer cache, indexed by super block and block number. -/
def BufferCache := ℕ → ℕ → Getblk

/-! ### The in-place-update index -/

/-- `GROUP_IDX(lba, n)`, stored in a `u32`. -/
def groupIdx (lba n : ℕ) : ℕ := lba / n % 2 ^ 32

variable (P : Params)

/-- `TREE_IDX(group_idx)` -/
def treeIdx (group : ℕ) : ℕ := group % P.nrIpuTree

/-- `TREE_OFF(group_idx, lba, n)`, the product in `u32`, the result in a `uint`. -/
def treeOff (group lba n : ℕ) : ℕ :=
  (group / P.nrIpuTree * n % 2 ^ 32 + lba % n) % 2 ^ 32

/-- The tree and the offset under which a block is indexed. -/
def ipuKey (n lba : ℕ) : ℕ × ℕ :=
  (treeIdx P (groupIdx lba n), treeOff P (groupIdx lba n) lba n)

/-- `radix_tree_lookup` for block `lba`. -/
def Olayer.lookupIpu (o : Olayer) (lba : ℕ) : Option IpuEntry :=
  o.ipuTree (ipuKey P o.blocksPerGroup lba).1 (ipuKey P o.blocksPerGroup lba).2

/-- Set (or with `none` delete) the index entry of block `lba`. -/
def Olayer.setIpu (o : Olayer) (lba : ℕ) (e : Option IpuEntry) : Olayer :=
  { o with
    ipuTree := Function.update o.ipuTree (ipuKey P o.blocksPerGroup lba).1
      (Function.update (o.ipuTree (ipuKey P o.blocksPerGroup lba).1)
        (ipuKey P o.blocksPerGroup lba).2 e) }

/-- The indexing loop of `journal_write_alloc`. -/
def indexBlocks (lastTxid : ℕ) : ℕ → ℕ → ℕ → Olayer → Olayer
  | 0, _, _, o => o
  | n + 1, lba, plba, o =>
      let new : IpuEntry := ⟨lba % 2 ^ 32, plba % 2 ^ 32, lastTxid⟩
      let o' :=
        match o.lookupIpu P lba with
        | none => o.setIpu P lba (some new)
        -- an entry of the same transaction id keeps the address of the older copy
        | some e => if lastTxid > e.txid then o.setIpu P lba (some new) else o
      indexBlocks lastTxid n (lba + 1) (plba + 1) o'

/-! ### Writing committed transactions back -/

/-- `get_sb_by_devid`: the first registered device with this minor number. -/
def getSbByDevid (o : Olayer) (id : ℕ) : Option ℕ :=
  (o.registeredList.find? fun d => d.devId.minor = id).map (·.sb)

/-- The block loop of `commit_write_entry_per_stream`, with its return value. -/
def commitWriteBlocks (bc : BufferCache) (sb txid : ℕ) : ℕ → ℕ → Olayer → Olayer × ℤ
  | 0, _, o => (o, 0)
  | n + 1, lba, o =>
      let o' := o.setIpu P lba none
      match o.lookupIpu P lba with
      | none => commitWriteBlocks bc sb txid n (lba + 1) o'
      | some e =>
          if e.txid ≠ txid then commitWriteBlocks bc sb txid n (lba + 1) o'
          else
            match bc sb lba with
            -- -ENOMEM, with the index entry already gone
            | .noMem => (o', -12)
            -- a locked buffer is only waited for
            | .locked => commitWriteBlocks bc sb txid n (lba + 1) o'
            | .unlocked =>
                commitWriteBlocks bc sb txid n (lba + 1)
                  { o' with io := o'.io ++ [.bh sb lba] }

/-- `commit_write_entry_per_stream` -/
def commitWriteEntryPerStream (bc : BufferCache) (o : Olayer) (e : Ometa) (sb : Option ℕ)
    (txid : ℕ) : Olayer × ℤ :=
  match sb with
  | none => (o, 0)
  | some sb => commitWriteBlocks P bc sb txid e.length e.lba o

/-- The scan of `commit_write` over `[head, flushed)` of one stream. -/
def commitWriteScan (s : Stream) : Option (List Segment) :=
  (scanRing P s.head s.flushed (streamOmetaAt s) (streamOmetaAt s) ScanState.init).map (·.out)

/-- `commit_write` on the entries of one scanned transaction; the return values
are dropped, as in the source. -/
def commitSegment (bc : BufferCache) (s : Stream) (o : Olayer) (seg : Segment) : Olayer :=
  seg.handed.foldl
    (fun o k =>
      let e := streamOmetaAt s k
      (commitWriteEntryPerStream P bc o e (getSbByDevid o e.deviceId) seg.txid).1) o

/-- `commit_write` -/
def commitWrite (bc : BufferCache) (o : Olayer) (sid : ℕ) : Option Olayer :=
  (commitWriteScan P (o.stream sid)).map fun segs =>
    segs.foldl (commitSegment P bc (o.stream sid)) o

/-! ### Retiring entries and allocating journal blocks -/

/-- `head = flushed; j_write_ptr = off_in_journal` -/
def Stream.retire (sid : ℕ) (s : Stream) : Stream :=
  { s with head := s.flushed, jWritePtr := P.offInJournal sid }

/-- `commit_write(stream); head = flushed; j_write_ptr = off_in_journal` -/
def journalWrap (bc : BufferCache) (o : Olayer) (sid : ℕ) : Option Olayer :=
  (commitWrite P bc o sid).map fun o => o.setStream sid ((o.stream sid).retire P sid)

/-- The critical section under `journal_lock` shared by both allocators:
returns the old `j_write_ptr`. -/
def allocSpace (bc : BufferCache) (o : Olayer) (sid nrBlocks : ℕ) : Option (Olayer × ℕ) :=
  let boundary := (P.offInJournal sid + P.nrJournalBlock) % 2 ^ 32
  let wrapped :=
    if nrBlocks + (o.stream sid).jWritePtr > boundary then journalWrap P bc o sid else some o
  wrapped.map fun o =>
    let s := o.stream sid
    (o.setStream sid { s with jWritePtr := s.jWritePtr + nrBlocks }, s.jWritePtr)

/-- `bio_set_dev(src_bio, cp_dev); src_bio->bi_iter.bi_sector = ptr * 8` -/
def redirect (b : Bio) (ptr : ℕ) : Bio := { b with dev := P.cpDev, sector := ptr * 8 }

/-- `alloc_journal_block`; the failure value -1 is returned in a `u32`. -/
def allocJournalBlock (bc : BufferCache) (o : Olayer) (sid : ℕ) (b : Bio) (nrBlocks : ℕ) :
    Option (Olayer × Bio × ℕ) :=
  if nrBlocks > P.nrJournalBlock then some (o, b, 2 ^ 32 - 1)
  else
    (allocSpace P bc o sid nrBlocks).map fun r =>
      (r.1, redirect P b r.2, r.2 % 2 ^ 32)

/-- `journal_write_alloc` -/
def journalWriteAlloc (bc : BufferCache) (o : Olayer) (sid : ℕ) (b : Bio) :
    Option (Olayer × Bio × ℕ) :=
  let nrBlocks := horaeGetSecs b
  if nrBlocks > P.nrJournalBlock then some (o, b, 2 ^ 32 - 1)
  else
    (allocSpace P bc o sid nrBlocks).map fun r =>
      (indexBlocks P (r.1.stream sid).lastTxid nrBlocks (horaeGetLba b) r.2 r.1,
        redirect P b r.2, r.2 % 2 ^ 32)

/-- `truncate_ordering_log` -/
def truncateOrderingLog (bc : BufferCache) (o : Olayer) (sid : ℕ) : Option Olayer :=
  if (o.stream sid).head = (o.stream sid).flushed then some o else journalWrap P bc o sid

/-- `write_checkpoint`: the pages are allocated and sent, but never filled. -/
def writeCheckpoint (o : Olayer) (sid : ℕ) : Olayer :=
  let s := o.stream sid
  let spaceValidOmeta := horaeCount s.head s.tail P.nrOmeta * 64 % 2 ^ 32
  let nr4k :=
    if spaceValidOmeta % 4096 = 0 then spaceValidOmeta / 4096 else spaceValidOmeta / 4096 + 1
  -- the pages go from `alloc_page` to `bio_add_page`: no entry is copied into them
  { o with io := o.io ++ [.pages P.cpDev P.nrJournalRegionBlock (min nr4k 256) []] }

/-- `head = flushed = tail` -/
def Stream.retireAll (s : Stream) : Stream := { s with head := s.tail, flushed := s.tail }

/-- `stream_do_checkpoint` -/
def streamDoCheckpoint (bc : BufferCache) (o : Olayer) (sid nrEntries : ℕ) : Option Olayer :=
  if horaeRingSpace (o.stream sid).head (o.stream sid).tail P.nrOmeta ≥ nrEntries then some o
  else
    (truncateOrderingLog P bc o sid).map fun o =>
      if horaeRingSpace (o.stream sid).head (o.stream sid).tail P.nrOmeta ≥ nrEntries then o
      else
        let o := writeCheckpoint P o sid
        o.setStream sid (o.stream sid).retireAll

/-! ### What write-back and indexing leave alone -/

/-- Two states that differ at most in the index and in the requests sent. -/
structure SameQueues (o o' : Olayer) : Prop where
  stream : o'.stream = o.stream
  cmb : o'.cmb = o.cmb
  blocksPerGroup : o'.blocksPerGroup = o.blocksPerGroup
  registeredList : o'.registeredList = o.registeredList

namespace SameQueues

theorem refl (o : Olayer) : SameQueues o o := ⟨rfl, rfl, rfl, rfl⟩

theorem trans {o₁ o₂ o₃ : Olayer} (h₁ : SameQueues o₁ o₂) (h₂ : SameQueues o₂ o₃) :
    SameQueues o₁ o₃ :=
  ⟨h₂.stream.trans h₁.stream, h₂.cmb.trans h₁.cmb,
    h₂.blocksPerGroup.trans h₁.blocksPerGroup, h₂.registeredList.trans h₁.registeredList⟩

theorem foldl {ι : Type*} {f : Olayer → ι → Olayer} (hf : ∀ o i, SameQueues o (f o i))
    (o : Olayer) (xs : List ι) : SameQueues o (xs.foldl f o) := by
  induction xs generalizing o with
  | nil => exact refl o
  | cons x xs ih => exact (hf o x).trans (ih (f o x))

end SameQueues

variable {P}

theorem sameQueues_setIpu (o : Olayer) (lba : ℕ) (e : Option IpuEntry) :
    SameQueues o (o.setIpu P lba e) := ⟨rfl, rfl, rfl, rfl⟩

theorem sameQueues_indexBlocks (txid n lba plba : ℕ) (o : Olayer) :
    SameQueues o (indexBlocks P txid n lba plba o) := by
  induction n generalizing lba plba o with
  | zero => exact .refl o
  | succ n ih =>
      unfold indexBlocks
      refine SameQueues.trans ?_ (ih _ _ _)
      rcases o.lookupIpu P lba with - | e
      · exact sameQueues_setIpu o lba _
      · dsimp only
        split_ifs
        · exact sameQueues_setIpu o lba _
        · exact .refl o

theorem io_indexBlocks (txid n lba plba : ℕ) (o : Olayer) :
    (indexBlocks P txid n lba plba o).io = o.io := by
  induction n generalizing lba plba o with
  | zero => rfl
  | succ n ih =>
      unfold indexBlocks
      rw [ih]
      rcases o.lookupIpu P lba with - | e
      · rfl
      · dsimp only
        split_ifs <;> rfl

theorem sameQueues_commitWriteBlocks (bc : BufferCache) (sb txid n lba : ℕ) (o : Olayer) :
    SameQueues o (commitWriteBlocks P bc sb txid n lba o).1 := by
  induction n generalizing lba o with
  | zero => exact .refl o
  | succ n ih =>
      have hdel := sameQueues_setIpu (P := P) o lba none
      have hnext := hdel.trans (ih (lba + 1) (o.setIpu P lba none))
      unfold commitWriteBlocks
      rcases o.lookupIpu P lba with - | e
      · exact hnext
      · dsimp only
        split_ifs with htx
        · exact hnext
        · rcases bc sb lba with - | - | -
          · exact hdel
          · exact hnext
          · have hsend : SameQueues o { o.setIpu P lba none with
                io := (o.setIpu P lba none).io ++ [.bh sb lba] } := ⟨rfl, rfl, rfl, rfl⟩
            exact hsend.trans (ih _ _)

theorem sameQueues_commitWriteEntryPerStream (bc : BufferCache) (o : Olayer) (e : Ometa)
    (sb : Option ℕ) (txid : ℕ) :
    SameQueues o (commitWriteEntryPerStream P bc o e sb txid).1 := by
  rcases sb with - | sb
  · exact .refl o
  · exact sameQueues_commitWriteBlocks bc sb txid _ _ o

theorem sameQueues_commitSegment (bc : BufferCache) (s : Stream) (o : Olayer) (seg : Segment) :
    SameQueues o (commitSegment P bc s o seg) :=
  SameQueues.foldl (fun o _ => sameQueues_commitWriteEntryPerStream bc o _ _ _) o seg.handed

/-- `commit_write` leaves every stream as it was. -/
theorem sameQueues_of_commitWrite {bc : BufferCache} {o o' : Olayer} {sid : ℕ}
    (h : commitWrite P bc o sid = some o') : SameQueues o o' := by
  obtain ⟨segs, -, rfl⟩ := Option.map_eq_some_iff.mp h
  exact SameQueues.foldl (sameQueues_commitSegment bc (o.stream sid)) o segs

/-! ### `commit_write` returns -/

/-- The transactions that the tags delimit in `[head, flushed)`: a BEGIN, the first END
after it, and the journaled slots strictly between them. -/
def Stream.delimited (P : Params) (s : Stream) : List Segment :=
  (Bracket.pairs (fun i => (s.ometa i).isBegin) (fun i => (s.ometa i).isEnd) none
    (slotsOf P s.head s.flushed)).map (segmentOf P s.ometa s.ometa)

theorem commitWriteScan_eq {s : Stream} (hh : s.head < P.nrOmeta) (hf : s.flushed < P.nrOmeta) :
    commitWriteScan P s = some (s.delimited P) := by
  obtain ⟨st, hst, -, hout⟩ := scanRing_spec s.ometa s.ometa hh hf ScanState.init
  have : scanRing P s.head s.flushed (streamOmetaAt s) (streamOmetaAt s) ScanState.init
      = some st := hst
  rw [commitWriteScan, this, Option.map_some, hout]
  rfl

theorem commitWrite_isSome (bc : BufferCache) {o : Olayer} {sid : ℕ}
    (hh : (o.stream sid).head < P.nrOmeta) (hf : (o.stream sid).flushed < P.nrOmeta) :
    ∃ o', commitWrite P bc o sid = some o' := by
  rw [commitWrite, commitWriteScan_eq hh hf]
  exact ⟨_, rfl⟩

/-- The wrap of the journal is a `commit_write` after which the flushed entries of
its own stream are retired. -/
theorem journalWrap_spec (bc : BufferCache) {o : Olayer} {sid : ℕ}
    (hh : (o.stream sid).head < P.nrOmeta) (hf : (o.stream sid).flushed < P.nrOmeta) :
    ∃ o₁, commitWrite P bc o sid = some o₁ ∧ SameQueues o o₁ ∧
      journalWrap P bc o sid = some (o₁.setStream sid ((o.stream sid).retire P sid)) := by
  obtain ⟨o₁, h₁⟩ := commitWrite_isSome bc hh hf
  have hsame := sameQueues_of_commitWrite h₁
  exact ⟨o₁, h₁, hsame, by rw [journalWrap, h₁, Option.map_some, hsame.stream]⟩

/-- No buffer is sent home. -/
def SendsNoBuffer (o o' : Olayer) : Prop :=
  ∃ new, o'.io = o.io ++ new ∧ ∀ r ∈ new, r.isBh = false

theorem SendsNoBuffer.of_eq {o o' : Olayer} (h : o'.io = o.io) : SendsNoBuffer o o' :=
  ⟨[], by rw [h, List.append_nil], by simp⟩

theorem SendsNoBuffer.trans {o₁ o₂ o₃ : Olayer} (h₁ : SendsNoBuffer o₁ o₂)
    (h₂ : SendsNoBuffer o₂ o₃) : SendsNoBuffer o₁ o₃ := by
  obtain ⟨new₁, hio₁, hnew₁⟩ := h₁
  obtain ⟨new₂, hio₂, hnew₂⟩ := h₂
  refine ⟨new₁ ++ new₂, by rw [hio₂, hio₁, List.append_assoc], fun r hr => ?_⟩
  rcases List.mem_append.mp hr with hr | hr
  · exact hnew₁ r hr
  · exact hnew₂ r hr

/-- The requests of `o'` are those of `o`, those of at most one `commit_write`,
and no other write-back. -/
def WroteBack (P : Params) (bc : BufferCache) (sid : ℕ) (o o' : Olayer) : Prop :=
  ∃ o₁, (o₁ = o ∨ commitWrite P bc o sid = some o₁) ∧ SendsNoBuffer o₁ o'

theorem wroteBack_of_io_eq {bc : BufferCache} {o o' : Olayer} {sid : ℕ} (h : o'.io = o.io) :
    WroteBack P bc sid o o' :=
  ⟨o, Or.inl rfl, .of_eq h⟩

end CcNvme

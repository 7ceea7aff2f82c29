/-
CcNvme/Interleaving.lean

The module as one state machine over all streams.  A journaled submit is two
steps, because other submitters, commits, flushes and checkpoints may come
between its allocation and its insertion; so is a checkpoint, because the scan
of `commit_write` and the assignment `head = flushed` are separate in all the
places that move `head`.  The last resort of `stream_do_checkpoint`, which
retires everything up to `tail`, is a step of its own.

Beside the module's own state the machine remembers, for every occupied slot,
the super block its write is meant for, the number of requests sent when its
blocks were indexed, and whether its transaction is committed.

The second half says once what each step does to the live entries: it keeps
them all (`KeepsLive`) and may add one, or it drops some of one stream
(`DropsLive`).  Invariants are derived from these, never from the steps.
-/
import CcNvme.StreamIndependence
import CcNvme.Writeback
import CcNvme.Cursors
import CcNvme.Lib.Run

namespace CcNvme

/-! ### The state machine -/

/-- What is remembered of the write in a slot. -/
structure EntryInfo where
  /-- the super block of the write's device -/
  home : ℕ
  /-- the number of requests sent when its blocks were indexed -/
  stamp : ℕ
  journaled : Bool
  committed : Bool
  deriving DecidableEq, Repr

/-- A submit between `journal_write_alloc` and `stream_submit_bio_core`. -/
structure Waiting where
  sid : ℕ
  args : SubmitArgs
  bio : Bio
  home : ℕ
  stamp : ℕ

structure RetireState where
  o : Olayer
  waiting : List Waiting
  info : ℕ → ℕ → EntryInfo
  /-- the committed journaled slots a `commit_write` of the stream has passed, while
  its `head = flushed` is outstanding -/
  scanned : ℕ → Option (List ℕ)

inductive RetireOp where
  /-- `journal_write_alloc` when the blocks fit -/
  | alloc (sid : ℕ) (b : Bio)
  /-- `alloc_journal_block` when the blocks fit -/
  | allocBlock (sid : ℕ) (b : Bio) (nr : ℕ)
  /-- `stream_submit_bio_core` of the `k`-th waiting submit, when there is room -/
  | insert (k : ℕ)
  /-- `stream_submit_bio`, when there is room -/
  | inPlace (sid : ℕ) (b : Bio)
  | commit (sid txid : ℕ)
  | flush (sid : ℕ) (bdevs : List BlockDevice)
  /-- `commit_write` -/
  | scan (sid : ℕ) (bc : BufferCache)
  /-- `head = flushed; j_write_ptr = off_in_journal` -/
  | retire (sid : ℕ)
  /-- `write_checkpoint` and `head = flushed = tail` -/
  | lastResort (sid : ℕ)

/-- The slots of `[head, tail)`. -/
def liveSlots (P : Params) (s : Stream) : List ℕ := slotsOf P s.head s.tail

/-- The slots of `[head, flushed)`. -/
def flushedSlots (P : Params) (s : Stream) : List ℕ := slotsOf P s.head s.flushed

/-- Set what is remembered of one slot. -/
def setInfo (info : ℕ → ℕ → EntryInfo) (sid x : ℕ) (i : EntryInfo) : ℕ → ℕ → EntryInfo :=
  Function.update info sid (Function.update (info sid) x i)

/-- The slots of `[head, flushed)` with a journaled write of a committed transaction. -/
def RetireState.committedSlots (P : Params) (st : RetireState) (sid : ℕ) : List ℕ :=
  (flushedSlots P (st.o.stream sid)).filter fun x =>
    (st.info sid x).journaled && (st.info sid x).committed

/-- A step that needs no buffer. -/
def noBuffers : BufferCache := fun _ _ => .noMem

/-- One step; `none` when it has to wait.  `sbOf` names the super block mounted on a
device. -/
def RetireState.step (P : Params) (sbOf : BlockDevice → ℕ) (st : RetireState) :
    RetireOp → Option RetireState
  | .alloc sid b =>
      -- `journal_lock` is held from a scan to its `head = flushed`
      if (st.scanned sid).isSome || needsWrap P sid (horaeGetSecs b) (st.o.stream sid) then none
      else
        (journalWriteAlloc P noBuffers st.o sid { b with opf := ipuOpf b.opf }).map fun r =>
          { st with
            o := r.1
            waiting := st.waiting ++ [⟨sid, ⟨horaeGetLba b, horaeGetSecs b, b.dev.diskMinor, r.2.2,
              txFlag b.opf⟩, r.2.1, sbOf b.dev, st.o.io.length⟩] }
  | .allocBlock sid b nr =>
      if (st.scanned sid).isSome || needsWrap P sid nr (st.o.stream sid) then none
      else (allocJournalBlock P noBuffers st.o sid b nr).map fun r => { st with o := r.1 }
  | .insert k =>
      (st.waiting[k]?).bind fun w =>
        (streamSubmitBioCore P noBuffers w.sid w.args 1 st.o).map fun q =>
          { st with
            o := submitBio q.1 w.bio
            waiting := st.waiting.eraseIdx k
            info := setInfo st.info w.sid q.2 ⟨w.home, w.stamp, true, false⟩ }
  | .inPlace sid b =>
      (streamSubmitBioCore P noBuffers sid
        ⟨horaeGetLba b, horaeGetSecs b, b.dev.diskMinor, 0, txFlag b.opf⟩ 1 st.o).map fun q =>
          { st with
            o := submitBio q.1 { b with opf := submitOpf b.opf }
            info := setInfo st.info sid q.2 ⟨sbOf b.dev, st.o.io.length, false, false⟩ }
  | .commit sid txid =>
      some { st with
        o := streamCommitTx st.o sid txid
        info := Function.update st.info sid fun x =>
          if x ∈ liveSlots P (st.o.stream sid) then { st.info sid x with committed := true }
          else st.info sid x }
  | .flush sid bdevs => some { st with o := streamBlkdevIssueFlush P st.o bdevs sid }
  | .scan sid bc =>
      if (st.scanned sid).isSome then none
      else
        (commitWrite P bc st.o sid).map fun o =>
          { st with
            o := o
            scanned := Function.update st.scanned sid (some (st.committedSlots P sid)) }
  | .retire sid =>
      (st.scanned sid).map fun _ =>
        { st with
          o := st.o.setStream sid ((st.o.stream sid).retire P sid)
          scanned := Function.update st.scanned sid none }
  | .lastResort sid =>
      if horaeRingSpace (st.o.stream sid).head (st.o.stream sid).tail P.nrOmeta ≥ 1 then none
      else
        let o := writeCheckpoint P st.o sid
        some { st with
          o := o.setStream sid (o.stream sid).retireAll
          scanned := Function.update st.scanned sid ((st.scanned sid).map fun _ => []) }

/-- The sequential code takes these steps without a break: the wrap of the journal, which
both allocators and `truncate_ordering_log` share, is a scan and a retirement. -/
theorem journalWrap_eq_run (P : Params) (sbOf : BlockDevice → ℕ) (bc : BufferCache)
    (st : RetireState) (sid : ℕ) (h : st.scanned sid = none) :
    journalWrap P bc st.o sid
      = (Run.run (RetireState.step P sbOf) st [.scan sid bc, .retire sid]).map (·.o) := by
  rw [Run.run_cons]
  simp only [RetireState.step, h, Option.isSome_none, Bool.false_eq_true, if_false, journalWrap]
  rcases commitWrite P bc st.o sid with - | o
  · rfl
  · simp [Run.run, RetireState.step]

/-- A write in place that finds room and is not interrupted is one step. -/
theorem streamSubmitBio_eq_inPlace (P : Params) (sbOf : BlockDevice → ℕ) (st : RetireState)
    {sid : ℕ} (hsid : sid < P.nrStreams) {b : Bio} (hb : horaePath b.opf = true) :
    streamSubmitBio P noBuffers 1 st.o b sid = (st.step P sbOf (.inPlace sid b)).map (·.o) := by
  simp only [streamSubmitBio, clampSid_of_lt hsid, hb, Bool.not_true, Bool.false_eq_true, if_false,
    RetireState.step, Option.map_map]
  rfl

/-- With a full ring of which nothing is flushed, `stream_do_checkpoint` is the last
resort. -/
theorem streamDoCheckpoint_eq_lastResort (P : Params) (sbOf : BlockDevice → ℕ)
    (bc : BufferCache) (st : RetireState) (sid : ℕ)
    (hflushed : (st.o.stream sid).head = (st.o.stream sid).flushed)
    (hfull : ¬ horaeRingSpace (st.o.stream sid).head (st.o.stream sid).tail P.nrOmeta ≥ 1) :
    streamDoCheckpoint P bc st.o sid 1 = (st.step P sbOf (.lastResort sid)).map (·.o) := by
  simp only [streamDoCheckpoint, truncateOrderingLog, RetireState.step, if_neg hfull,
    if_pos hflushed, Option.map_some]

/-- The blocks of the entry in slot `x`. -/
def RetireState.blocks (st : RetireState) (sid x : ℕ) : List (ℕ × ℕ) :=
  blocksOf (st.info sid x).home ((st.o.stream sid).ometa x).lba ((st.o.stream sid).ometa x).length

/-- Nothing is live after `init_stream`, so nothing has to be remembered. -/
def RetireState.fresh (o : Olayer) : RetireState :=
  ⟨o, [], fun _ _ => ⟨0, 0, false, false⟩, fun _ => none⟩

/-! ### What a step does to the live entries -/

variable {P : Params} {sbOf : BlockDevice → ℕ} {st st' : RetireState}

/-- The cursors of every stream are in order. -/
def AllCursors (P : Params) (st : RetireState) : Prop :=
  ∀ sid < P.nrStreams, ∃ H F T, Cursors P (st.o.stream sid) H F T

/-- All live entries stay live, up to their tags and the commit mark; the slots `new`
become live. -/
structure KeepsLive (P : Params) (st st' : RetireState) (new : ℕ → ℕ → Prop) : Prop where
  cursors : AllCursors P st'
  live : ∀ sid < P.nrStreams, ∀ x,
    x ∈ liveSlots P (st'.o.stream sid) ↔ x ∈ liveSlots P (st.o.stream sid) ∨ new sid x
  plba : ∀ sid < P.nrStreams, ∀ x ∈ liveSlots P (st.o.stream sid),
    ((st'.o.stream sid).ometa x).plba = ((st.o.stream sid).ometa x).plba
  blocks : ∀ sid < P.nrStreams, ∀ x ∈ liveSlots P (st.o.stream sid),
    st'.blocks sid x = st.blocks sid x
  info : ∀ sid < P.nrStreams, ∀ x ∈ liveSlots P (st.o.stream sid),
    ∃ c, st'.info sid x = { st.info sid x with committed := c }
  io : ∃ new, st'.o.io = st.o.io ++ new

theorem KeepsLive.stamp {new : ℕ → ℕ → Prop} (h : KeepsLive P st st' new) :
    ∀ sid < P.nrStreams, ∀ x ∈ liveSlots P (st.o.stream sid),
      (st'.info sid x).stamp = (st.info sid x).stamp := by
  intro sid hsid x hx
  obtain ⟨c, hc⟩ := h.info sid hsid x hx
  rw [hc]

theorem KeepsLive.journaled {new : ℕ → ℕ → Prop} (h : KeepsLive P st st' new) :
    ∀ sid < P.nrStreams, ∀ x ∈ liveSlots P (st.o.stream sid),
      (st'.info sid x).journaled = (st.info sid x).journaled := by
  intro sid hsid x hx
  obtain ⟨c, hc⟩ := h.info sid hsid x hx
  rw [hc]

/-- The index only grows, no buffer is sent home, and no scan is started or finished. -/
structure Indexes (P : Params) (st st' : RetireState) : Prop where
  scanned : st'.scanned = st.scanned
  blocksPerGroup : st'.o.blocksPerGroup = st.o.blocksPerGroup
  index : ∀ x, Indexed P st.o x → Indexed P st'.o x
  quiet : SendsNoBuffer st.o st'.o

theorem indexed_congr {o o' : Olayer} (hipu : o'.ipuTree = o.ipuTree)
    (hbpg : o'.blocksPerGroup = o.blocksPerGroup) {x : ℕ} (h : Indexed P o x) :
    Indexed P o' x := by
  unfold Indexed Olayer.lookupIpu at h ⊢
  rwa [hipu, hbpg]

/-- Some entries of stream `sid` are retired, and its scan, if one is outstanding,
starts over. -/
structure DropsLive (P : Params) (st st' : RetireState) (sid : ℕ) : Prop where
  cursors : AllCursors P st'
  live : ∀ i < P.nrStreams, liveSlots P (st'.o.stream i) ⊆ liveSlots P (st.o.stream i)
  ometa : ∀ i, (st'.o.stream i).ometa = (st.o.stream i).ometa
  others : ∀ i ≠ sid, st'.o.stream i = st.o.stream i ∧ st'.scanned i = st.scanned i
  scanned : ∀ xs, st'.scanned sid = some xs → xs = []
  waiting : st'.waiting = st.waiting
  info : st'.info = st.info
  blocksPerGroup : st'.o.blocksPerGroup = st.o.blocksPerGroup
  index : ∀ x, Indexed P st.o x → Indexed P st'.o x
  quiet : SendsNoBuffer st.o st'.o

theorem DropsLive.io {sid : ℕ} (h : DropsLive P st st' sid) : ∃ new, st'.o.io = st.o.io ++ new :=
  h.quiet.imp fun _ => And.left

theorem DropsLive.blocks {sid : ℕ} (h : DropsLive P st st' sid) (i x : ℕ) :
    st'.blocks i x = st.blocks i x := by
  simp only [RetireState.blocks, h.ometa, h.info]

/-- A step on one stream that leaves its live entries in place. -/
theorem keepsLive_of_stream (sid : ℕ) (hcurs : AllCursors P st) {new : ℕ → ℕ → Prop}
    (hne : ∀ i ≠ sid, st'.o.stream i = st.o.stream i ∧ st'.info i = st.info i ∧ ∀ x, ¬ new i x)
    (hcur : sid < P.nrStreams → ∃ H F T, Cursors P (st'.o.stream sid) H F T)
    (hlive : ∀ x, x ∈ liveSlots P (st'.o.stream sid) ↔
      x ∈ liveSlots P (st.o.stream sid) ∨ new sid x)
    (hometa : ∀ x ∈ liveSlots P (st.o.stream sid),
      (st'.o.stream sid).ometa x = (st.o.stream sid).ometa x)
    (hinfo : ∀ x ∈ liveSlots P (st.o.stream sid),
      ∃ c, st'.info sid x = { st.info sid x with committed := c })
    (hio : ∃ new, st'.o.io = st.o.io ++ new) : KeepsLive P st st' new := by
  -- an entry live before, in whichever stream
  have hentry : ∀ i, ∀ x ∈ liveSlots P (st.o.stream i),
      (st'.o.stream i).ometa x = (st.o.stream i).ometa x ∧
        ∃ c, st'.info i x = { st.info i x with committed := c } := by
    intro i x hx
    by_cases hi : i = sid
    · subst hi
      exact ⟨hometa x hx, hinfo x hx⟩
    · obtain ⟨h₁, h₂, -⟩ := hne i hi
      rw [h₁, h₂]
      exact ⟨rfl, (st.info i x).committed, rfl⟩
  refine ⟨?_, ?_, ?_, ?_, fun i _ x hx => (hentry i x hx).2, hio⟩
  · intro i hi
    by_cases his : i = sid
    · subst his
      exact hcur hi
    · rw [(hne i his).1]
      exact hcurs i hi
  · intro i _ x
    by_cases his : i = sid
    · subst his
      exact hlive x
    · obtain ⟨h₁, -, h₃⟩ := hne i his
      rw [h₁]
      exact ⟨Or.inl, fun h => h.resolve_right (h₃ x)⟩
  · intro i _ x hx
    rw [(hentry i x hx).1]
  · intro i _ x hx
    obtain ⟨ho, c, hc⟩ := hentry i x hx
    simp only [RetireState.blocks, ho, hc]

/-- The journal pointer of one stream moves. -/
theorem keepsLive_ptr (sid : ℕ) (hcurs : AllCursors P st) {j : ℕ}
    (hs : st'.o.stream = (st.o.setStream sid { st.o.stream sid with jWritePtr := j }).stream)
    (hinfo : st'.info = st.info) (hio : ∃ new, st'.o.io = st.o.io ++ new) :
    KeepsLive P st st' fun _ _ => False := by
  have hsid : st'.o.stream sid = { st.o.stream sid with jWritePtr := j } := by
    rw [hs, Olayer.setStream_self]
  refine keepsLive_of_stream sid hcurs ?_ ?_ ?_ ?_ ?_ hio
  · intro i hi
    rw [hs, hinfo, Olayer.setStream_of_ne _ hi]
    exact ⟨rfl, rfl, fun _ => not_false⟩
  · intro hlt
    obtain ⟨H, F, T, h1, h2, h3, h4, h5, h6, h7⟩ := hcurs sid hlt
    exact ⟨H, F, T, hsid ▸ ⟨h1, h2, h3, h4, h5, h6, h7⟩⟩
  · intro x
    rw [hsid, or_false]
    rfl
  · intro x _
    rw [hsid]
  · intro x _
    exact ⟨(st.info sid x).committed, by rw [hinfo]⟩

/-! ### Allocation -/

theorem not_wrap_of_fits {sid nr : ℕ} {s : Stream} (hnr : nr ≤ P.nrJournalBlock)
    (h : ¬ needsWrap P sid nr s = true) :
    ¬ nr + s.jWritePtr > (P.offInJournal sid + P.nrJournalBlock) % 2 ^ 32 := by
  intro hgt
  exact h (decide_eq_true ⟨hnr, hgt⟩)

/-- `journal_write_alloc` when it does not wrap: the pointer moves, and unless the
request is refused every block of the write is indexed. -/
theorem journalWriteAlloc_of_fits (bc : BufferCache) {o : Olayer} {sid : ℕ} {b : Bio}
    (hfit : ¬ needsWrap P sid (horaeGetSecs b) (o.stream sid) = true) :
    ∃ o' r, journalWriteAlloc P bc o sid b = some (o', r) ∧
      (∃ j, o'.stream = (o.setStream sid { o.stream sid with jWritePtr := j }).stream) ∧
      o'.io = o.io ∧ o'.blocksPerGroup = o.blocksPerGroup ∧
      (∀ x, Indexed P o x → Indexed P o' x) ∧
      (horaeGetSecs b ≤ P.nrJournalBlock → ∀ x, horaeGetLba b ≤ x →
        x < horaeGetLba b + horaeGetSecs b → Indexed P o' x) := by
  unfold journalWriteAlloc allocSpace
  by_cases hnr : horaeGetSecs b > P.nrJournalBlock
  · -- refused: the state is left as it is
    simp only [if_pos hnr]
    refine ⟨_, _, rfl, ⟨(o.stream sid).jWritePtr, ?_⟩, rfl, rfl, fun _ h => h, fun h => ?_⟩
    · exact (Function.update_eq_self sid o.stream).symm
    · exact absurd hnr (not_lt.mpr h)
  · simp only [if_neg hnr, if_neg (not_wrap_of_fits (not_lt.mp hnr) hfit), Option.map_some]
    refine ⟨_, _, rfl, ⟨_, (sameQueues_indexBlocks _ _ _ _ _).stream⟩, io_indexBlocks _ _ _ _ _,
      (sameQueues_indexBlocks _ _ _ _ _).blocksPerGroup, fun x hx => ?_, fun _ x h₁ h₂ => ?_⟩
    · exact indexed_indexBlocks (Or.inl hx)
    · exact indexed_indexBlocks (Or.inr ⟨h₁, h₂⟩)

theorem effect_alloc (hcurs : AllCursors P st) {sid : ℕ} {b : Bio}
    (hstep : st.step P sbOf (.alloc sid b) = some st') :
    KeepsLive P st st' (fun _ _ => False) ∧ Indexes P st st' ∧ st'.info = st.info ∧
      (∃ plba bio, st'.waiting = st.waiting ++ [⟨sid, ⟨horaeGetLba b, horaeGetSecs b,
        b.dev.diskMinor, plba, txFlag b.opf⟩, bio, sbOf b.dev, st.o.io.length⟩]) ∧
      (horaeGetSecs b ≤ P.nrJournalBlock →
        ∀ p ∈ blocksOf (sbOf b.dev) (horaeGetLba b) (horaeGetSecs b), Indexed P st'.o p.2) := by
  simp only [RetireState.step] at hstep
  split_ifs at hstep with hblock
  rw [Bool.or_eq_true, not_or] at hblock
  -- `bi_opf` plays no part in the allocation
  obtain ⟨o', r, halloc, ⟨j, hs⟩, hio, hbpg, hold, hnew⟩ :=
    journalWriteAlloc_of_fits (b := { b with opf := ipuOpf b.opf }) noBuffers hblock.2
  rw [halloc, Option.map_some, Option.some.injEq] at hstep
  have ho : st'.o = o' := by rw [← hstep]
  have hinfo : st'.info = st.info := by rw [← hstep]
  rw [← ho] at hs hio hbpg hold hnew
  refine ⟨keepsLive_ptr sid hcurs hs hinfo ⟨[], by rw [hio, List.append_nil]⟩,
    ⟨by rw [← hstep], hbpg, hold, .of_eq hio⟩, hinfo, ⟨r.2, r.1, by rw [← hstep]⟩,
    fun hnr p hp => ?_⟩
  obtain ⟨-, h₁, h₂⟩ := mem_blocksOf.mp hp
  exact hnew hnr _ h₁ h₂

theorem effect_allocBlock (hcurs : AllCursors P st) {sid nr : ℕ} {b : Bio}
    (hstep : st.step P sbOf (.allocBlock sid b nr) = some st') :
    KeepsLive P st st' (fun _ _ => False) ∧ Indexes P st st' ∧ st'.info = st.info ∧
      st'.waiting = st.waiting := by
  simp only [RetireState.step] at hstep
  split_ifs at hstep with hblock
  rw [Bool.or_eq_true, not_or] at hblock
  obtain ⟨o', r, halloc, ⟨j, hs⟩, hio, hbpg, hipu⟩ : ∃ o' r,
      allocJournalBlock P noBuffers st.o sid b nr = some (o', r) ∧
      (∃ j, o'.stream = (st.o.setStream sid { st.o.stream sid with jWritePtr := j }).stream) ∧
      o'.io = st.o.io ∧ o'.blocksPerGroup = st.o.blocksPerGroup ∧
      o'.ipuTree = st.o.ipuTree := by
    unfold allocJournalBlock allocSpace
    by_cases hnr : nr > P.nrJournalBlock
    · simp only [if_pos hnr]
      refine ⟨_, _, rfl, ⟨(st.o.stream sid).jWritePtr, ?_⟩, rfl, rfl, rfl⟩
      exact (Function.update_eq_self sid st.o.stream).symm
    · simp only [if_neg hnr, if_neg (not_wrap_of_fits (not_lt.mp hnr) hblock.2), Option.map_some]
      exact ⟨_, _, rfl, ⟨_, rfl⟩, rfl, rfl, rfl⟩
  rw [halloc, Option.map_some, Option.some.injEq] at hstep
  subst hstep
  exact ⟨keepsLive_ptr sid hcurs hs rfl ⟨[], by rw [List.append_nil]; exact hio⟩,
    ⟨rfl, hbpg, fun _ h => indexed_congr hipu hbpg h, .of_eq hio⟩, rfl, rfl⟩

/-! ### Publishing -/

theorem setInfo_self (info : ℕ → ℕ → EntryInfo) (sid x : ℕ) (i : EntryInfo) :
    setInfo info sid x i sid x = i := by
  simp [setInfo]

theorem setInfo_of_ne (info : ℕ → ℕ → EntryInfo) {sid x y : ℕ} (i : EntryInfo) (h : y ≠ x) :
    setInfo info sid x i sid y = info sid y := by
  simp [setInfo, h]

/-- Publishing makes one more slot live. -/
theorem Cursors.live_publish {o : Olayer} {sid H F T : ℕ} (a : SubmitArgs)
    (h : Cursors P (o.stream sid) H F T) (hspace : T + 1 < H + P.nrOmeta) (x : ℕ) :
    x ∈ liveSlots P ((CcNvme.publish P o sid a (T % P.nrOmeta) ((T + 1) % P.nrOmeta)).stream sid)
      ↔ x ∈ liveSlots P (o.stream sid) ∨ x = T % P.nrOmeta := by
  have hHT := h.head_le.trans h.flushed_le
  unfold liveSlots
  rw [(h.publish a hspace).mem_live_iff, h.mem_live_iff]
  constructor
  · rintro ⟨i, hi, hiT, rfl⟩
    rcases Nat.lt_succ_iff_lt_or_eq.mp hiT with hlt | rfl
    · exact Or.inl ⟨i, hi, hlt, rfl⟩
    · exact Or.inr rfl
  · rintro (⟨i, hi, hiT, rfl⟩ | rfl)
    · exact ⟨i, hi, by omega, rfl⟩
    · exact ⟨T, hHT, Nat.lt_succ_self T, rfl⟩

/-- A step that publishes one entry: what its slot holds, and that no live slot is
overwritten. -/
theorem effect_publish (hcurs : AllCursors P st) {sid : ℕ} (hsid : sid < P.nrStreams)
    {a : SubmitArgs} {q : Olayer × ℕ} {b : Bio} {ws : List Waiting} {i : EntryInfo}
    (hcore : streamSubmitBioCore P noBuffers sid a 1 st.o = some q)
    (hst : st' = { st with
      o := submitBio q.1 b, waiting := ws, info := setInfo st.info sid q.2 i }) :
    KeepsLive P st st' (fun j x => j = sid ∧ x = q.2) ∧ Indexes P st st' ∧
      (∀ j < P.nrStreams, ∀ x ∈ liveSlots P (st.o.stream j), st'.info j x = st.info j x) ∧
      st'.info sid q.2 = i ∧
      st'.blocks sid q.2 = blocksOf i.home (a.lba % 2 ^ 64) (a.nrPages % 2 ^ 16) ∧
      ((st'.o.stream sid).ometa q.2).plba = a.plba % 2 ^ 32 := by
  obtain ⟨H, F, T, hcur⟩ := hcurs sid hsid
  obtain ⟨hspace, rfl⟩ := streamSubmitBioCore_one hcur hcore
  have hometa : (st'.o.stream sid).ometa = Function.update (st.o.stream sid).ometa
      (T % P.nrOmeta) (fillOmeta ((st.o.stream sid).ometa (T % P.nrOmeta))
        (st.o.stream sid).committed a) := by
    rw [hst]
    exact congrArg Stream.ometa (publish_stream (P := P) _ _ _ _ _)
  have hi : st'.info sid (T % P.nrOmeta) = i := by
    rw [hst]
    exact setInfo_self _ _ _ _
  -- the slot that is filled is not live, so nothing remembered is lost
  have hinfo : ∀ j, ∀ x ∈ liveSlots P (st.o.stream j), st'.info j x = st.info j x := by
    intro j x hx
    rw [hst]
    by_cases hj : j = sid
    · subst hj
      obtain ⟨k, hk, hkT, rfl⟩ := hcur.mem_live_iff.mp hx
      exact setInfo_of_ne _ _ (hcur.tail_not_live hk hkT)
    · exact congrFun (Function.update_of_ne hj _ _) x
  have hquiet : SendsNoBuffer st.o st'.o := by
    rw [hst]
    exact ⟨[.bio b], rfl, by simp [Request.isBh]⟩
  refine ⟨?_, ⟨by rw [hst], by rw [hst]; rfl, by rw [hst]; exact fun _ h => h, hquiet⟩,
    fun j _ => hinfo j, hi, ?_, ?_⟩
  · apply keepsLive_of_stream sid hcurs
    · intro j hj
      rw [hst]
      exact ⟨publish_stream_of_ne (P := P) _ _ _ _ hj, Function.update_of_ne hj _ _,
        fun x h => hj h.1⟩
    · intro _
      rw [hst]
      exact ⟨H, F, T + 1, hcur.publish a hspace⟩
    · intro x
      rw [hst]
      exact (hcur.live_publish a hspace x).trans (or_congr_right (by simp))
    · intro x hx
      rw [hometa]
      obtain ⟨k, hk, hkT, rfl⟩ := hcur.mem_live_iff.mp hx
      exact Function.update_of_ne (hcur.tail_not_live hk hkT) _ _
    · intro x hx
      exact ⟨(st.info sid x).committed, hinfo sid x hx⟩
    · exact hquiet.imp fun _ => And.left
  · rw [RetireState.blocks, hi, hometa, Function.update_self]
    rfl
  · rw [hometa, Function.update_self]
    rfl

/-! ### Committing and flushing -/

theorem effect_commit (hcurs : AllCursors P st) {sid txid : ℕ} (hsid : sid < P.nrStreams)
    (hstep : st.step P sbOf (.commit sid txid) = some st') :
    KeepsLive P st st' (fun _ _ => False) ∧ Indexes P st st' ∧ st'.waiting = st.waiting ∧
      ∀ i ≠ sid, st'.info i = st.info i := by
  obtain ⟨H, F, T, hcur⟩ := hcurs sid hsid
  simp only [RetireState.step, Option.some.injEq] at hstep
  subst hstep
  refine ⟨?_, ⟨rfl, rfl, fun _ h => h, .of_eq rfl⟩, rfl, fun i hi => Function.update_of_ne hi _ _⟩
  refine keepsLive_of_stream sid hcurs ?_ (fun _ => ⟨H, F, T, hcur.commitTx txid⟩)
    ?_ ?_ ?_ ⟨[], (List.append_nil _).symm⟩
  · intro i hi
    exact ⟨Olayer.setStream_of_ne _ hi, Function.update_of_ne hi _ _, fun _ => not_false⟩
  · intro x
    show x ∈ liveSlots P ((streamCommitTx st.o sid txid).stream sid) ↔ _
    rw [streamCommitTx_stream, or_false]
    rfl
  · -- the END mark goes to the slot at `tail`
    intro x hx
    obtain ⟨i, hi, hiT, rfl⟩ := hcur.mem_live_iff.mp hx
    exact hcur.commitTx_ometa txid hi hiT
  · intro x hx
    show ∃ c, Function.update st.info sid _ sid x = _
    rw [Function.update_self, if_pos hx]
    exact ⟨true, rfl⟩

theorem effect_flush (hcurs : AllCursors P st) {sid : ℕ} {bdevs : List BlockDevice}
    (hsid : sid < P.nrStreams) (hstep : st.step P sbOf (.flush sid bdevs) = some st') :
    KeepsLive P st st' (fun _ _ => False) ∧ Indexes P st st' ∧ st'.info = st.info ∧
      st'.waiting = st.waiting := by
  simp only [RetireState.step, Option.some.injEq] at hstep
  obtain ⟨H, F, T, hcur⟩ := hcurs sid hsid
  obtain ⟨F', hcur'⟩ := hcur.flush_any hsid bdevs
  have hof := flushOf st.o hsid bdevs
  subst hstep
  refine ⟨?_, ⟨rfl, hof.blocksPerGroup,
    fun _ h => indexed_congr hof.ipuTree hof.blocksPerGroup h, hof.quiet⟩, rfl, rfl⟩
  refine keepsLive_of_stream sid hcurs ?_ (fun _ => ⟨H, F', T, hcur'⟩) ?_ ?_ ?_
    (hof.quiet.imp fun _ => And.left)
  · intro i hi
    exact ⟨hof.others i hi, rfl, fun _ => not_false⟩
  · intro x
    rw [or_false]
    exact hcur'.mem_live_iff.trans hcur.mem_live_iff.symm
  · intro x _
    exact congrFun (flush_stream st.o hsid bdevs).1 x
  · intro x _
    exact ⟨(st.info sid x).committed, rfl⟩

/-! ### Scanning and retiring -/

/-- A scan leaves all queues alone. -/
theorem effect_scan (hcurs : AllCursors P st) {sid : ℕ} {bc : BufferCache}
    (hstep : st.step P sbOf (.scan sid bc) = some st') :
    KeepsLive P st st' (fun _ _ => False) ∧ commitWrite P bc st.o sid = some st'.o ∧
      st'.info = st.info ∧ st'.waiting = st.waiting ∧
      st'.scanned = Function.update st.scanned sid (some (st.committedSlots P sid)) := by
  simp only [RetireState.step] at hstep
  split_ifs at hstep
  obtain ⟨o', hcommit, rfl⟩ := Option.map_eq_some_iff.mp hstep
  refine ⟨?_, hcommit, rfl, rfl, rfl⟩
  obtain ⟨segs, -, hsends⟩ := sends_commitWrite hcommit
  obtain ⟨new, hio, -⟩ := hsends.io
  refine keepsLive_ptr sid (j := (st.o.stream sid).jWritePtr) hcurs ?_ rfl ⟨new, hio⟩
  exact hsends.same.stream.trans (Function.update_eq_self sid st.o.stream).symm

/-- The slots of a delimited transaction are flushed and have a journal address. -/
theorem flushed_of_delimited {s : Stream} (hs : s.InRing P) {seg : Segment}
    (hseg : seg ∈ s.delimited P) {k : ℕ} (hk : k ∈ seg.handed) :
    k ∈ flushedSlots P s ∧ (s.ometa k).plba ≠ 0 := by
  obtain ⟨⟨b, e⟩, hp, rfl⟩ := List.mem_map.mp hseg
  obtain ⟨hmem, hplba⟩ := List.mem_filter.mp hk
  refine ⟨?_, by simpa using hplba⟩
  rcases Bracket.exists_of_mem_pairs hp with ⟨us, vs, ws, hsplit⟩ | ⟨hq, -⟩
  · exact slotsOf_between_subset hs.head_lt hsplit hmem
  · cases hq

/-- `head = flushed` keeps the entries after `flushed`. -/
theorem Cursors.live_retire {s : Stream} {H F T : ℕ} (h : Cursors P s H F T) (sid : ℕ) {x : ℕ}
    (hx : x ∈ liveSlots P s) (hflushed : x ∉ flushedSlots P s) :
    x ∈ liveSlots P (s.retire P sid) := by
  obtain ⟨i, hi, hiT, rfl⟩ := h.mem_live_iff.mp hx
  refine (h.retire sid).mem_live_iff.mpr ⟨i, ?_, hiT, rfl⟩
  by_contra hlt
  exact hflushed (h.mem_flushed_iff.mpr ⟨i, hi, not_le.mp hlt, rfl⟩)

/-- Retiring entries of one stream. -/
theorem dropsLive_of_stream (hcurs : AllCursors P st) {sid : ℕ} {s : Stream}
    (hs : st'.o.stream = Function.update st.o.stream sid s)
    (hcur : sid < P.nrStreams → ∃ H F T, Cursors P s H F T)
    (hlive : sid < P.nrStreams → liveSlots P s ⊆ liveSlots P (st.o.stream sid))
    (hometa : s.ometa = (st.o.stream sid).ometa)
    (hne : ∀ i ≠ sid, st'.scanned i = st.scanned i)
    (hscanned : ∀ xs, st'.scanned sid = some xs → xs = [])
    (hw : st'.waiting = st.waiting) (hinfo : st'.info = st.info)
    (hipu : st'.o.ipuTree = st.o.ipuTree)
    (hbpg : st'.o.blocksPerGroup = st.o.blocksPerGroup)
    (hquiet : SendsNoBuffer st.o st'.o) : DropsLive P st st' sid := by
  have hother : ∀ i ≠ sid, st'.o.stream i = st.o.stream i := by
    intro i hi
    rw [hs, Function.update_of_ne hi]
  refine ⟨?_, ?_, ?_, fun i hi => ⟨hother i hi, hne i hi⟩, hscanned, hw, hinfo, hbpg,
    fun _ h => indexed_congr hipu hbpg h, hquiet⟩
  · rw [AllCursors, hs]
    exact (Function.forall_update_iff _ fun i s => i < P.nrStreams → ∃ H F T, Cursors P s H F T).mpr
      ⟨hcur, fun i _ => hcurs i⟩
  · rw [hs]
    exact (Function.forall_update_iff _ fun i s => i < P.nrStreams →
      liveSlots P s ⊆ liveSlots P (st.o.stream i)).mpr ⟨hlive, fun _ _ _ => List.Subset.refl _⟩
  · rw [hs]
    exact (Function.forall_update_iff _ fun i (s : Stream) => s.ometa = (st.o.stream i).ometa).mpr
      ⟨hometa, fun _ _ => rfl⟩

theorem effect_retire (hcurs : AllCursors P st) {sid : ℕ}
    (hstep : st.step P sbOf (.retire sid) = some st') :
    DropsLive P st st' sid ∧ st'.o.stream sid = (st.o.stream sid).retire P sid ∧
      ∃ xs, st.scanned sid = some xs := by
  simp only [RetireState.step, Option.map_eq_some_iff] at hstep
  obtain ⟨xs, hxs, rfl⟩ := hstep
  refine ⟨?_, Olayer.setStream_self _ _ _, xs, hxs⟩
  refine dropsLive_of_stream (s := (st.o.stream sid).retire P sid) hcurs rfl ?_ ?_ rfl
    (fun i hi => Function.update_of_ne hi _ _) ?_ rfl rfl rfl rfl (.of_eq rfl)
  · intro hsid
    obtain ⟨H, F, T, hcur⟩ := hcurs sid hsid
    exact ⟨F, F, T, hcur.retire sid⟩
  · intro hsid x hx
    obtain ⟨H, F, T, hcur⟩ := hcurs sid hsid
    obtain ⟨i, hi, hiT, rfl⟩ := (hcur.retire sid).mem_live_iff.mp hx
    exact hcur.mem_live_iff.mpr ⟨i, hcur.head_le.trans hi, hiT, rfl⟩
  · intro ys hys
    dsimp only at hys
    rw [Function.update_self] at hys
    cases hys

theorem effect_lastResort (hcurs : AllCursors P st) {sid : ℕ}
    (hstep : st.step P sbOf (.lastResort sid) = some st') : DropsLive P st st' sid := by
  simp only [RetireState.step] at hstep
  split_ifs at hstep
  obtain rfl := Option.some.inj hstep
  refine dropsLive_of_stream (s := (st.o.stream sid).retireAll) hcurs rfl ?_ ?_ rfl
    (fun i hi => Function.update_of_ne hi _ _) ?_ rfl rfl rfl rfl
    ⟨_, rfl, by simp [Request.isBh]⟩
  · intro hsid
    obtain ⟨H, F, T, hcur⟩ := hcurs sid hsid
    exact ⟨T, T, T, hcur.retireAll⟩
  · intro hsid x hx
    obtain ⟨H, F, T, hcur⟩ := hcurs sid hsid
    obtain ⟨i, hi, hiT, -⟩ := hcur.retireAll.mem_live_iff.mp hx
    omega
  · intro xs hxs
    dsimp only at hxs
    rw [Function.update_self, Option.map_eq_some_iff] at hxs
    obtain ⟨_, -, rfl⟩ := hxs
    rfl

/-! ### The fresh state -/

theorem cursors_fresh {o : Olayer} {mem : ℕ → ℕ → Ometa} {lastTxid : ℕ → ℕ}
    (ho : ∀ sid, o.stream sid = initStream P (mem sid) (lastTxid sid) sid) (sid : ℕ) :
    Cursors P ((RetireState.fresh o).o.stream sid) 0 0 0 := by
  show Cursors P (o.stream sid) 0 0 0
  rw [ho]
  exact cursors_zero rfl rfl rfl rfl

theorem not_live_fresh {o : Olayer} {mem : ℕ → ℕ → Ometa} {lastTxid : ℕ → ℕ}
    (ho : ∀ sid, o.stream sid = initStream P (mem sid) (lastTxid sid) sid) (sid x : ℕ) :
    x ∉ liveSlots P ((RetireState.fresh o).o.stream sid) := by
  intro hx
  obtain ⟨i, -, hi, -⟩ := (cursors_fresh ho sid).mem_live_iff.mp hx
  exact Nat.not_lt_zero i hi

end CcNvme

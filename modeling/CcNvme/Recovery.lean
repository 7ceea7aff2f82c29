/-
CcNvme/Recovery.lean

`ccnvme/recovery.c`: the unmount path `graceful_shutdown` and the mount path
`olayer_crash_recovery`.

Both run the scanner of `Scan` over several streams.  The locals `phase` and
`begin_idx` are declared outside the loop over the streams and never reset,
so the scan of a stream starts in whatever state the previous stream left;
`scanStreams` keeps exactly that.  The two functions differ in the ring they
read tags from: `graceful_shutdown` uses the host copy, `olayer_crash_recovery`
the controller memory, while both take `plba` and the extent from the host
copy.

Neither function changes a queue while it scans, so the plan (which slots of
which stream are handed over, in order) is separated from carrying it out.
-/
import CcNvme.Submit

namespace CcNvme

/-! ### Scanning several streams -/

/-- What the scanner reads of one stream. -/
structure RingView where
  head : ℕ
  flushed : ℕ
  tags : ℕ → Ometa
  host : ℕ → Ometa

variable (P : Params)

/-- The loop over the streams, which carries `phase` and `begin_idx` along. -/
def scanStreams (view : ℕ → RingView) : List ℕ → ScanState → Option (List (ℕ × Segment))
  | [], _ => some []
  | i :: is, st =>
      (scanRing P (view i).head (view i).flushed (view i).tags (view i).host
        { st with out := [] }).bind fun st' =>
      (scanStreams view is st').map fun plan => st'.out.map (Prod.mk i) ++ plan

/-- The (stream, slot) entries of a plan, in the order they are handed over. -/
def entriesOf (plan : List (ℕ × Segment)) : List (ℕ × ℕ) :=
  plan.flatMap fun p => p.2.handed.map (Prod.mk p.1)

/-- The copy of a stream's ring that `cmb_read(&ci, s, 0, s->ometa_size)` fetches. -/
def cmbRing (o : Olayer) (i : ℕ) (idx : ℕ) : Ometa := o.cmb (cmbSlot P i idx)

/-- What `olayer_crash_recovery` reads of stream `i`. -/
def crashView (o : Olayer) (i : ℕ) : RingView :=
  ⟨(o.stream i).head, (o.stream i).flushed, cmbRing P o i, streamOmetaAt (o.stream i)⟩

/-- What `graceful_shutdown` reads of stream `i`. -/
def hostView (o : Olayer) (i : ℕ) : RingView :=
  ⟨(o.stream i).head, (o.stream i).flushed, streamOmetaAt (o.stream i),
    streamOmetaAt (o.stream i)⟩

/-! ### Mount: `olayer_crash_recovery` -/

/-- The entries `olayer_crash_recovery` replays. -/
def olayerCrashRecovery (o : Olayer) : Option (List (ℕ × Segment)) :=
  scanStreams P (crashView P o) (List.range P.nrStreams) ScanState.init

/-- `crash_recovery_commit_write` on the blocks of the target device: the read
`bio` takes at most `BIO_MAX_PAGES` pages, and `plba * 8` is a `u32`. -/
def crashRecoveryCommitWrite {α : Type*} (journal home : ℕ → α) (e : Ometa) : ℕ → α :=
  let src := e.plba * 8 % 2 ^ 32 / 8
  let dst := e.lba * 8 % 2 ^ 64 / 8
  fun b => if dst ≤ b ∧ b < dst + min e.length 256 then journal (src + (b - dst)) else home b

/-- The device after `olayer_crash_recovery`. -/
def crashReplay {α : Type*} (journal home : ℕ → α) (o : Olayer) : Option (ℕ → α) :=
  (olayerCrashRecovery P o).map fun plan =>
    (entriesOf plan).foldl
      (fun home p => crashRecoveryCommitWrite journal home ((o.stream p.1).ometa p.2)) home

/-! ### Unmount: `graceful_shutdown` -/

/-- The block loop of `commit_write_entry`. -/
def commitWriteEntryBlocks (bc : BufferCache) (sb : ℕ) : ℕ → ℕ → Olayer → Option Olayer
  | 0, _, o => some o
  | n + 1, lba, o =>
      let o' := o.setIpu P lba none
      match o.lookupIpu P lba with
      | none => commitWriteEntryBlocks bc sb n (lba + 1) o'
      | some _ =>
          match bc sb lba with
          -- `buffer_locked(NULL)`
          | .noMem => none
          | .locked => commitWriteEntryBlocks bc sb n (lba + 1) o'
          | .unlocked =>
              commitWriteEntryBlocks bc sb n (lba + 1)
                { o' with io := o'.io ++ [.bh sb lba] }

/-- `commit_write_entry`; `txid` only appears in a warning. -/
def commitWriteEntry (bc : BufferCache) (o : Olayer) (e : Ometa) (sb : ℕ) : Option Olayer :=
  commitWriteEntryBlocks P bc sb e.length e.lba o

/-- The entries `graceful_shutdown` writes back; ids out of range are skipped. -/
def gracefulPlan (o : Olayer) (sids : List ℕ) : Option (List (ℕ × Segment)) :=
  scanStreams P (hostView o) (sids.filter (· < P.nrStreams)) ScanState.init

/-- `graceful_shutdown` -/
def gracefulShutdown (bc : BufferCache) (o : Olayer) (sids : List ℕ) (sb : ℕ) :
    Option Olayer :=
  (gracefulPlan P o sids).bind fun plan =>
    (entriesOf plan).foldlM
      (fun o' p => commitWriteEntry P bc o' ((o.stream p.1).ometa p.2) sb) o

/-! ### The plan as a run of bracket scanners -/

/-- The slots of `[head, flushed)`. -/
def RingView.slots (v : RingView) : List ℕ := slotsOf P v.head v.flushed

/-- The pairs found in one stream by a scanner that starts in phase `q`. -/
def RingView.pairs (v : RingView) (q : Option ℕ) : List (ℕ × ℕ) :=
  Bracket.pairs (fun j => (v.tags j).isBegin) (fun j => (v.tags j).isEnd) q (v.slots P)

/-- The phase in which the scan of one stream ends. -/
def RingView.rest (v : RingView) (q : Option ℕ) : Option ℕ :=
  Bracket.rest (fun j => (v.tags j).isBegin) (fun j => (v.tags j).isEnd) q (v.slots P)

/-- The segments found in one stream. -/
def RingView.segments (v : RingView) (q : Option ℕ) : List Segment :=
  (v.pairs P q).map (segmentOf P v.tags v.host)

/-- The plan of a scan over the streams `is` from phase `q`. -/
def planFrom (view : ℕ → RingView) : Option ℕ → List ℕ → List (ℕ × Segment)
  | _, [] => []
  | q, i :: is =>
      ((view i).segments P q).map (Prod.mk i) ++ planFrom view ((view i).rest P q) is

variable {P}

/-- Both cursors of the view are slots. -/
structure RingView.InRing (P : Params) (v : RingView) : Prop where
  head_lt : v.head < P.nrOmeta
  flushed_lt : v.flushed < P.nrOmeta

/-- **The scan over the streams returns**, with the plan of bracket scanners
that hand their phase on. -/
theorem scanStreams_eq {view : ℕ → RingView} {is : List ℕ}
    (h : ∀ i ∈ is, (view i).InRing P) (st : ScanState) :
    scanStreams P view is st = some (planFrom P view st.opened is) := by
  induction is generalizing st with
  | nil => rfl
  | cons i is ih =>
      have hi := h i List.mem_cons_self
      obtain ⟨st', hst', hopen, hout⟩ :=
        scanRing_spec (view i).tags (view i).host hi.head_lt hi.flushed_lt
          { st with out := [] }
      have hopen' : st'.opened = (view i).rest P st.opened := hopen
      have hout' : st'.out = (view i).segments P st.opened := hout
      rw [scanStreams, hst', Option.bind_some,
        ih (fun j hj => h j (List.mem_cons_of_mem _ hj)), Option.map_some, hopen', hout']
      rfl

theorem olayerCrashRecovery_eq {o : Olayer}
    (h : ∀ i < P.nrStreams, (crashView P o i).InRing P) :
    olayerCrashRecovery P o
      = some (planFrom P (crashView P o) none (List.range P.nrStreams)) :=
  scanStreams_eq (fun i hi => h i (List.mem_range.mp hi)) ScanState.init

theorem gracefulPlan_eq {o : Olayer} {sids : List ℕ}
    (h : ∀ i < P.nrStreams, (hostView o i).InRing P) :
    gracefulPlan P o sids
      = some (planFrom P (hostView o) none (sids.filter (· < P.nrStreams))) :=
  scanStreams_eq (fun i hi => h i (by simpa using (List.mem_filter.mp hi).2)) ScanState.init

/-- The slots handed over by one stream's scan. -/
def RingView.handed (P : Params) (v : RingView) (q : Option ℕ) : List ℕ :=
  (v.pairs P q).flatMap fun p => between P v.host p.1 p.2

theorem entriesOf_append (xs ys : List (ℕ × Segment)) :
    entriesOf (xs ++ ys) = entriesOf xs ++ entriesOf ys :=
  List.flatMap_append

theorem entriesOf_segments (v : RingView) (q : Option ℕ) (i : ℕ) :
    entriesOf ((v.segments P q).map (Prod.mk i)) = (v.handed P q).map (Prod.mk i) := by
  unfold entriesOf RingView.segments RingView.handed
  simp only [List.flatMap_map, List.map_flatMap, segmentOf]

theorem entriesOf_planFrom_cons (view : ℕ → RingView) (q : Option ℕ) (i : ℕ) (is : List ℕ) :
    entriesOf (planFrom P view q (i :: is))
      = ((view i).handed P q).map (Prod.mk i)
        ++ entriesOf (planFrom P view ((view i).rest P q) is) := by
  rw [planFrom, entriesOf_append, entriesOf_segments]

/-- An entry of the plan was handed over by the scan of its own stream. -/
theorem mem_entriesOf_planFrom {view : ℕ → RingView} {q : Option ℕ} {is : List ℕ} {i k : ℕ}
    (h : (i, k) ∈ entriesOf (planFrom P view q is)) :
    i ∈ is ∧ ∃ q', k ∈ (view i).handed P q' := by
  induction is generalizing q with
  | nil => simp [planFrom, entriesOf] at h
  | cons j is ih =>
      rw [entriesOf_planFrom_cons, List.mem_append] at h
      rcases h with h | h
      · obtain ⟨k', hk', he⟩ := List.mem_map.mp h
        obtain ⟨rfl, rfl⟩ := Prod.mk.inj he
        exact ⟨List.mem_cons_self, q, hk'⟩
      · obtain ⟨hi, hk⟩ := ih h
        exact ⟨List.mem_cons_of_mem _ hi, hk⟩

/-- A ring without END tags hands over nothing. -/
theorem RingView.handed_of_no_end {v : RingView} (h : ∀ x ∈ v.slots P, (v.tags x).isEnd = false)
    (q : Option ℕ) : v.handed P q = [] := by
  rw [RingView.handed, RingView.pairs, Bracket.pairs_of_no_closer h]
  rfl

end CcNvme

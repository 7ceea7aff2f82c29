/-
CcNvme/Fsync.lean

The file system's side of the protocol, `ext4_sync_file`: a transaction is a
number of `REQ_TX` writes, a journal description block, `stream_commit_tx`,
and a flush when the file system is mounted with barriers.

No step of it leaves an END tag in `[head, tail)`.  The writes carry `REQ_TX`,
so they store BEGIN or TX; `stream_commit_tx` stores END in the slot *at*
`tail`, and the next write stores its own tag over it.  `Unclosed` is that
invariant, kept by every step (`unclosed_step`) and so by every interleaving
over any number of streams (`unclosed_run`).  A scanner that waits for END
therefore finds nothing.
-/
import CcNvme.Cursors
import CcNvme.Recovery
import CcNvme.Lib.Run

namespace CcNvme

/-! ### The steps of the protocol -/

/-- A write with `REQ_TX` and without `REQ_TX_COMMIT`. -/
structure TxBio extends Bio where
  tx : toBio.opf.tx = true
  noCommit : toBio.opf.txCommit = false

/-- One step of `ext4_sync_file`, as the module sees it. -/
inductive FsOp where
  /-- `stream_submit_bh_force_IPU(bh, REQ_OP_WRITE, REQ_TX | REQ_SYNC, sid)` -/
  | buffer (reqSync : ℕ) (bh : BufferHead)
  /-- `stream_submit_bio_ipu(bio, sid, forced)` -/
  | write (b : TxBio) (forced : Bool)
  /-- `alloc_journal_block(stream, jh_bio, 1); submit_bio(jh_bio)` -/
  | descriptor (b : Bio)
  /-- `stream_commit_tx(sid, txid)` -/
  | commit (txid : ℕ)
  /-- `stream_blkdev_issue_flush(bdevs, nr, …, sid)` -/
  | flush (bdevs : List BlockDevice)

/-- Run one step on stream `sid`; `bc` is the buffer cache it meets. -/
def runFsOp (P : Params) (fuel : ℕ) (o : Olayer) : ℕ × BufferCache × FsOp → Option Olayer
  | (sid, bc, .buffer reqSync bh) => streamSubmitBhForceIpu P bc fuel o bh (txSync reqSync) sid
  | (sid, bc, .write b forced) => streamSubmitBioIpu P bc fuel o b.toBio sid forced
  | (sid, bc, .descriptor b) =>
      (allocJournalBlock P bc o sid b 1).map fun r => submitBio r.1 r.2.1
  | (sid, _, .commit txid) => some (streamCommitTx o sid txid)
  | (sid, _, .flush bdevs) => some (streamBlkdevIssueFlush P o bdevs sid)

/-- Run steps of any number of streams, in any order. -/
def runFsOps (P : Params) (fuel : ℕ) : Olayer → List (ℕ × BufferCache × FsOp) → Option Olayer :=
  Run.run (runFsOp P fuel)

/-! ### No END tag in the live entries -/

/-- The stream's cursors are in order and no live entry has an END tag, in the
host ring or in controller memory. -/
def Unclosed (P : Params) (o : Olayer) (sid : ℕ) : Prop :=
  ∃ H F T, Cursors P (o.stream sid) H F T ∧ ∀ i, H ≤ i → i < T →
    ((o.stream sid).ometa (i % P.nrOmeta)).isEnd = false ∧
      (cmbRing P o sid (i % P.nrOmeta)).isEnd = false

/-- Nothing is live in the stream. -/
structure Idle (P : Params) (s : Stream) : Prop where
  tail_lt : s.tail < P.nrOmeta
  head_eq : s.head = s.tail
  flushed_eq : s.flushed = s.tail
  watermark_eq : s.tailWatermark = s.tail

variable {P : Params} {o o' : Olayer} {sid fuel : ℕ}

theorem Idle.cursors {s : Stream} (h : Idle P s) : Cursors P s s.tail s.tail s.tail := by
  have hlt := h.tail_lt
  have hmod := Nat.mod_eq_of_lt hlt
  exact ⟨le_rfl, le_rfl, by omega, by rw [hmod, h.head_eq], by rw [hmod, h.flushed_eq],
    hmod.symm, by rw [hmod, h.watermark_eq]⟩

theorem Idle.unclosed (h : Idle P (o.stream sid)) : Unclosed P o sid :=
  ⟨_, _, _, h.cursors, fun _ h₁ h₂ => absurd h₂ (by omega)⟩

/-- The invariant only reads one stream and controller memory. -/
theorem Unclosed.congr (h : Unclosed P o sid) (hs : o'.stream sid = o.stream sid)
    (hc : ∀ i < P.nrOmeta, (cmbRing P o' sid i).isEnd = (cmbRing P o sid i).isEnd) :
    Unclosed P o' sid := by
  obtain ⟨H, F, T, hcur, hend⟩ := h
  refine ⟨H, F, T, hs ▸ hcur, fun i h₁ h₂ => ?_⟩
  rw [hs, hc _ (Nat.mod_lt _ nrOmeta_pos)]
  exact hend i h₁ h₂

/-- Retiring entries keeps the invariant. -/
theorem Unclosed.of_cursors {H T H' F' : ℕ}
    (hend : ∀ i, H ≤ i → i < T → ((o.stream sid).ometa (i % P.nrOmeta)).isEnd = false ∧
      (cmbRing P o sid (i % P.nrOmeta)).isEnd = false)
    (hle : H ≤ H') (hcur : Cursors P (o'.stream sid) H' F' T)
    (hometa : (o'.stream sid).ometa = (o.stream sid).ometa) (hcmb : o'.cmb = o.cmb) :
    Unclosed P o' sid := by
  refine ⟨H', F', T, hcur, fun i h₁ h₂ => ?_⟩
  have := hend i (hle.trans h₁) h₂
  simpa only [hometa, cmbRing, hcmb] using this

/-- Two slots of two rings share a place in controller memory only if they are
the same slot. -/
theorem cmbSlot_inj {i j x y : ℕ} (hx : x < P.nrOmeta) (hy : y < P.nrOmeta)
    (h : cmbSlot P i x = cmbSlot P j y) : i = j ∧ x = y := by
  unfold cmbSlot at h
  have hi : i = j := by
    have h1 : (i * P.nrOmeta + x) / P.nrOmeta = i := by
      rw [Nat.mul_comm, Nat.mul_add_div nrOmeta_pos, Nat.div_eq_of_lt hx, Nat.add_zero]
    have h2 : (j * P.nrOmeta + y) / P.nrOmeta = j := by
      rw [Nat.mul_comm, Nat.mul_add_div nrOmeta_pos, Nat.div_eq_of_lt hy, Nat.add_zero]
    rw [← h1, ← h2, h]
  subst hi
  exact ⟨rfl, by omega⟩

theorem publish_cmb (o : Olayer) (sid : ℕ) (a : SubmitArgs) (slot next : ℕ) :
    (publish P o sid a slot next).cmb = Function.update o.cmb (cmbSlot P sid slot)
      (fillOmeta ((o.stream sid).ometa slot) (o.stream sid).committed a) := rfl

theorem isEnd_fillOmeta_tx (old : Ometa) (committed : Bool) {a : SubmitArgs}
    (ha : a.flags = .tx) : (fillOmeta old committed a).isEnd = false := by
  cases committed <;> simp [fillOmeta, submitTag, ha, Ometa.isEnd, HoraeFlag.bit, HoraeFlag.val]

/-- A submit with `HORAE_TX` keeps the invariant of its stream. -/
theorem unclosed_publish {a : SubmitArgs} (ha : a.flags = .tx) {H F T : ℕ}
    (hcur : Cursors P (o.stream sid) H F T) (hspace : T + 1 < H + P.nrOmeta)
    (hend : ∀ i, H ≤ i → i < T → ((o.stream sid).ometa (i % P.nrOmeta)).isEnd = false ∧
      (cmbRing P o sid (i % P.nrOmeta)).isEnd = false) :
    Unclosed P (publish P o sid a (T % P.nrOmeta) ((T + 1) % P.nrOmeta)) sid := by
  refine ⟨H, F, T + 1, hcur.publish a hspace, fun i h₁ h₂ => ?_⟩
  rw [publish_stream, cmbRing, publish_cmb]
  dsimp only
  by_cases hi : i = T
  · subst hi
    rw [Function.update_self, Function.update_self]
    exact ⟨isEnd_fillOmeta_tx _ _ ha, isEnd_fillOmeta_tx _ _ ha⟩
  · have hiT : i < T := by omega
    have hne := hcur.tail_not_live h₁ hiT
    have hne' : cmbSlot P sid (i % P.nrOmeta) ≠ cmbSlot P sid (T % P.nrOmeta) :=
      fun he => hne (cmbSlot_inj (Nat.mod_lt _ nrOmeta_pos) (Nat.mod_lt _ nrOmeta_pos) he).2
    rw [Function.update_of_ne hne, Function.update_of_ne hne']
    exact hend i h₁ hiT

/-- `commit_write` finds no transaction to write back. -/
theorem commitWrite_of_unclosed (bc : BufferCache) (h : Unclosed P o sid) :
    commitWrite P bc o sid = some o := by
  obtain ⟨H, F, T, hcur, hend⟩ := h
  have hno : ∀ x ∈ slotsOf P (o.stream sid).head (o.stream sid).flushed,
      ((o.stream sid).ometa x).isEnd = false := by
    intro x hx
    obtain ⟨i, h₁, h₂, rfl⟩ := hcur.mem_flushed_iff.mp hx
    exact (hend i h₁ (h₂.trans_le hcur.flushed_le)).1
  rw [commitWrite, commitWriteScan_eq hcur.inRing.head_lt hcur.inRing.flushed_lt,
    Stream.delimited, Bracket.pairs_of_no_closer hno]
  rfl

/-! ### One step -/

/-- What every step of the protocol on stream `sid` guarantees. -/
structure FsStep (P : Params) (sid : ℕ) (o o' : Olayer) : Prop where
  own : Unclosed P o' sid
  others : ∀ i ≠ sid, o'.stream i = o.stream i
  tags : ∀ i ≠ sid, ∀ x < P.nrOmeta, (cmbRing P o' i x).isEnd = (cmbRing P o i x).isEnd
  quiet : SendsNoBuffer o o'

theorem FsStep.trans {o₁ o₂ o₃ : Olayer} (h₁ : FsStep P sid o₁ o₂) (h₂ : FsStep P sid o₂ o₃) :
    FsStep P sid o₁ o₃ where
  own := h₂.own
  others := fun i hi => (h₂.others i hi).trans (h₁.others i hi)
  tags := fun i hi x hx => (h₂.tags i hi x hx).trans (h₁.tags i hi x hx)
  quiet := h₁.quiet.trans h₂.quiet

/-- A step keeps the invariant of every stream. -/
theorem FsStep.unclosed (h : FsStep P sid o o') {i : ℕ} (hi : Unclosed P o i) :
    Unclosed P o' i := by
  by_cases his : i = sid
  · exact his ▸ h.own
  · exact hi.congr (h.others i his) (h.tags i his)

theorem WroteBack.quiet_of_unclosed {bc : BufferCache} (h : WroteBack P bc sid o o')
    (hu : Unclosed P o sid) : SendsNoBuffer o o' := by
  obtain ⟨o₁, h₁ | h₁, hquiet⟩ := h
  · exact h₁ ▸ hquiet
  · rw [commitWrite_of_unclosed bc hu, Option.some.injEq] at h₁
    exact h₁ ▸ hquiet

theorem fsStep_alloc {bc : BufferCache} {nr : ℕ} (hu : Unclosed P o sid)
    (h : AllocOf P bc sid nr o o') : FsStep P sid o o' := by
  have hio := h.wroteBack.quiet_of_unclosed hu
  obtain ⟨H, F, T, hcur, hend⟩ := hu
  obtain ⟨H', hle, hcur'⟩ := hcur.alloc sid nr
  have hs := h.self
  refine ⟨.of_cursors hend hle (hs ▸ hcur') (by rw [hs, Stream.alloc_ometa]) h.cmb, ?_, ?_, hio⟩
  · intro i hi
    rw [h.stream, Function.update_of_ne hi]
  · intro i _ x _
    simp only [cmbRing, h.cmb]

/-- A submit with `HORAE_TX`, after its checkpoint if it needs one. -/
theorem fsStep_submit {bc : BufferCache} {a : SubmitArgs} (ha : a.flags = .tx) {H F T : ℕ}
    (hN : 2 ≤ P.nrOmeta) (hcur : Cursors P (o.stream sid) H F T)
    (hend : ∀ i, H ≤ i → i < T → ((o.stream sid).ometa (i % P.nrOmeta)).isEnd = false ∧
      (cmbRing P o sid (i % P.nrOmeta)).isEnd = false)
    {o₁ : Olayer} (hck : CheckpointOf P bc sid o o₁) :
    FsStep P sid o (publish P o₁ sid a (T % P.nrOmeta) ((T + 1) % P.nrOmeta)) := by
  have hs := hck.self
  have hle := (roomCounters_le (n := P.nrOmeta) hcur.head_le hcur.flushed_le).1
  have hroom := roomCounters_window hN hcur.head_le hcur.window
  refine ⟨unclosed_publish ha (hs ▸ hcur.makeRoom sid) hroom ?_, ?_, ?_, ?_⟩
  · intro i h₁ h₂
    simpa only [hs, Stream.makeRoom_ometa, cmbRing, hck.cmb] using hend i (hle.trans h₁) h₂
  · intro i hi
    rw [publish_stream_of_ne (P := P) _ _ _ _ hi, hck.stream, Function.update_of_ne hi]
  · intro i hi x hx
    have hne : cmbSlot P i x ≠ cmbSlot P sid (T % P.nrOmeta) :=
      fun he => hi (cmbSlot_inj hx (Nat.mod_lt _ nrOmeta_pos) he).1
    rw [cmbRing, publish_cmb, Function.update_of_ne hne, hck.cmb]
    rfl
  · exact hck.wroteBack.quiet_of_unclosed ⟨H, F, T, hcur, hend⟩

theorem fsStep_submitBio (hu : Unclosed P o sid) (b : Bio) : FsStep P sid o (submitBio o b) :=
  ⟨hu.congr rfl fun _ _ => rfl, fun _ _ => rfl, fun _ _ _ _ => rfl, [.bio b], rfl,
    by simp [Request.isBh]⟩

theorem fsStep_commit (hu : Unclosed P o sid) (txid : ℕ) :
    FsStep P sid o (streamCommitTx o sid txid) := by
  obtain ⟨H, F, T, hcur, hend⟩ := hu
  -- the doorbell overwrites half an `lba`, never a tag
  have htag : ∀ x, ((streamCommitTx o sid txid).cmb x).isEnd = (o.cmb x).isEnd := by
    intro x
    show (doorbell o.cmb (o.stream sid).tail x).isEnd = _
    by_cases hx : x = 0
    · subst hx
      rw [doorbell, Function.update_self]
      rfl
    · rw [doorbell, Function.update_of_ne hx]
  refine ⟨⟨H, F, T, hcur.commitTx txid, ?_⟩, ?_, fun i _ x _ => htag _, .of_eq rfl⟩
  · intro i hi hiT
    rw [hcur.commitTx_ometa txid hi hiT, cmbRing, htag]
    exact hend i hi hiT
  · intro i hi
    exact Olayer.setStream_of_ne _ hi

theorem fsStep_flush (hsid : sid < P.nrStreams) (hu : Unclosed P o sid)
    (bdevs : List BlockDevice) : FsStep P sid o (streamBlkdevIssueFlush P o bdevs sid) := by
  obtain ⟨H, F, T, hcur, hend⟩ := hu
  have hof := flushOf o hsid bdevs
  refine ⟨?_, hof.others, fun i _ x _ => by rw [cmbRing, hof.cmb]; rfl, hof.quiet⟩
  obtain ⟨F', hcur'⟩ := hcur.flush_any hsid bdevs
  exact .of_cursors hend le_rfl hcur' (flush_stream o hsid bdevs).1 hof.cmb

theorem TxBio.horaePath (b : TxBio) : CcNvme.horaePath b.opf = true := by
  simp [CcNvme.horaePath, b.tx]

theorem TxBio.txFlag (b : TxBio) : CcNvme.txFlag b.opf = .tx := by
  simp [CcNvme.txFlag, b.tx, b.noCommit]

/-- A journaled write of the protocol. -/
theorem fsStep_write_forced (bc : BufferCache) (hN : 2 ≤ P.nrOmeta) (hfuel : 2 ≤ fuel)
    (hsid : sid < P.nrStreams) (hu : Unclosed P o sid) (b : TxBio) :
    ∃ o', streamSubmitBioIpu P bc fuel o b.toBio sid true = some o' ∧ FsStep P sid o o' := by
  have hu₀ := hu
  obtain ⟨H, F, T, hcur, hend⟩ := hu
  obtain ⟨o₁, o₂, b', halloc, hck, heq⟩ :=
    streamSubmitBioIpu_spec bc hN hfuel hsid b.horaePath hcur
  refine ⟨_, heq, ?_⟩
  have hs₁ := halloc.self
  obtain ⟨H', hle, hcur₁⟩ := hcur.alloc sid (horaeGetSecs b.toBio)
  have hend₁ : ∀ i, H' ≤ i → i < T → ((o₁.stream sid).ometa (i % P.nrOmeta)).isEnd = false ∧
      (cmbRing P o₁ sid (i % P.nrOmeta)).isEnd = false := by
    intro i h₁ h₂
    simpa only [hs₁, Stream.alloc_ometa, cmbRing, halloc.cmb] using hend i (hle.trans h₁) h₂
  have hsub := fsStep_submit (a := ⟨horaeGetLba b.toBio, horaeGetSecs b.toBio,
    b.dev.diskMinor, (o.stream sid).allocAddr P sid (horaeGetSecs b.toBio), CcNvme.txFlag b.opf⟩)
    b.txFlag hN (hs₁ ▸ hcur₁) hend₁ hck
  exact ((fsStep_alloc hu₀ halloc).trans hsub).trans (fsStep_submitBio hsub.own b')

theorem fsStep_write (bc : BufferCache) (hN : 2 ≤ P.nrOmeta) (hfuel : 2 ≤ fuel)
    (hsid : sid < P.nrStreams) (hu : Unclosed P o sid) (b : TxBio) (forced : Bool) :
    ∃ o', streamSubmitBioIpu P bc fuel o b.toBio sid forced = some o' ∧ FsStep P sid o o' := by
  by_cases hj : (P.versionConsistency || forced) = true
  · obtain ⟨o', h', hstep⟩ := fsStep_write_forced bc hN hfuel hsid hu b
    refine ⟨o', ?_, hstep⟩
    rw [← h']
    simp only [streamSubmitBioIpu, hj, Bool.or_true]
  · -- data of a mount without version consistency stays in place
    refine ⟨submitBio o { b.toBio with opf := ipuOpf b.opf }, ?_, fsStep_submitBio hu _⟩
    simp only [streamSubmitBioIpu, b.horaePath, hj, Bool.not_true, Bool.false_eq_true, if_false]

/-- **One step of the protocol** returns and keeps the invariant. -/
theorem fsStep_runFsOp (hN : 2 ≤ P.nrOmeta) (hfuel : 2 ≤ fuel) (hsid : sid < P.nrStreams)
    (hu : Unclosed P o sid) (bc : BufferCache) (op : FsOp) :
    ∃ o', runFsOp P fuel o (sid, bc, op) = some o' ∧ FsStep P sid o o' := by
  rcases op with ⟨reqSync, bh⟩ | ⟨b, forced⟩ | b | txid | bdevs
  · exact fsStep_write bc hN hfuel hsid hu ⟨bh2bio (txSync reqSync) bh, rfl, rfl⟩ true
  · exact fsStep_write bc hN hfuel hsid hu b forced
  · obtain ⟨H, F, T, hcur, -⟩ := id hu
    obtain ⟨o₁, b', h₁, halloc⟩ :=
      allocJournalBlock_spec bc b 1 hcur.inRing.head_lt hcur.inRing.flushed_lt
    have hstep := fsStep_alloc hu halloc
    refine ⟨submitBio o₁ b', ?_, hstep.trans (fsStep_submitBio hstep.own b')⟩
    simp only [runFsOp, h₁, Option.map_some]
  · exact ⟨_, rfl, fsStep_commit hu txid⟩
  · exact ⟨_, rfl, fsStep_flush hsid hu bdevs⟩

/-! ### Whole runs -/

/-- **Every interleaving of the protocol** returns, leaves no END tag in any
stream it uses, does not touch the others, and writes no buffer back. -/
theorem fs_run (hN : 2 ≤ P.nrOmeta) (hfuel : 2 ≤ fuel)
    {ops : List (ℕ × BufferCache × FsOp)}
    (hops : ∀ x ∈ ops, x.1 < P.nrStreams ∧ Unclosed P o x.1) :
    ∃ o', runFsOps P fuel o ops = some o' ∧
      (∀ i, Unclosed P o i → Unclosed P o' i) ∧
      (∀ i, (∀ x ∈ ops, i ≠ x.1) → o'.stream i = o.stream i) ∧
      SendsNoBuffer o o' := by
  induction ops generalizing o with
  | nil => exact ⟨o, rfl, fun _ h => h, fun _ _ => rfl, .of_eq rfl⟩
  | cons x ops ih =>
      obtain ⟨sid, bc, op⟩ := x
      obtain ⟨hsid, hu⟩ := hops _ List.mem_cons_self
      obtain ⟨o₁, h₁, hstep⟩ := fsStep_runFsOp hN hfuel hsid hu bc op
      obtain ⟨o₂, h₂, hkeep, hframe, hquiet⟩ := ih fun y hy =>
        ⟨(hops y (List.mem_cons_of_mem _ hy)).1,
          hstep.unclosed (hops y (List.mem_cons_of_mem _ hy)).2⟩
      refine ⟨o₂, Run.run_cons_eq_some.mpr ⟨o₁, h₁, h₂⟩, fun i hi => hkeep i (hstep.unclosed hi),
        fun i hi => ?_, hstep.quiet.trans hquiet⟩
      rw [hframe i fun y hy => hi y (List.mem_cons_of_mem _ hy),
        hstep.others i (hi _ List.mem_cons_self)]

/-! ### A crash after `fsync` -/

/-- The device, first block and length of a write. -/
structure WriteTarget where
  deviceId : ℕ
  lba : ℕ
  length : ℕ
  deriving DecidableEq, Repr

def Ometa.target (e : Ometa) : WriteTarget := ⟨e.deviceId, e.lba, e.length⟩

/-- The target of a write, as the fields of a queue entry hold it. -/
def Bio.target (b : Bio) : WriteTarget :=
  ⟨b.dev.diskMinor % 2 ^ 8, horaeGetLba b % 2 ^ 64, horaeGetSecs b % 2 ^ 16⟩

/-- One call of `ext4_sync_file` on a file system mounted with barriers. -/
structure FsyncTx where
  writes : List TxBio
  writes_ne : writes ≠ []
  descriptor : Bio
  txid : ℕ
  bdev : BlockDevice

/-- The steps of one call. -/
def FsyncTx.ops (sid : ℕ) (bc : BufferCache) (t : FsyncTx) : List (ℕ × BufferCache × FsOp) :=
  t.writes.map (fun b => (sid, bc, FsOp.write b true))
    ++ [(sid, bc, FsOp.descriptor t.descriptor), (sid, bc, FsOp.commit t.txid),
      (sid, bc, FsOp.flush [t.bdev])]

/-- Calls of `ext4_sync_file` on stream `sid`, one after another. -/
def ext4SyncFiles (P : Params) (bc : BufferCache) (fuel : ℕ) (o : Olayer) (sid : ℕ)
    (txs : List FsyncTx) : Option Olayer :=
  runFsOps P fuel o (txs.flatMap (FsyncTx.ops sid bc))

/-- The writes of stream `sid` that a recovery plan replays, in order. -/
def replayedWrites (o : Olayer) (plan : List (ℕ × Segment)) (sid : ℕ) : List WriteTarget :=
  ((entriesOf plan).filter (·.1 = sid)).map fun p => ((o.stream p.1).ometa p.2).target

theorem FsyncTx.mem_ops {sid : ℕ} {bc : BufferCache} {txs : List FsyncTx}
    {x : ℕ × BufferCache × FsOp} (h : x ∈ txs.flatMap (FsyncTx.ops sid bc)) : x.1 = sid := by
  obtain ⟨t, -, hx⟩ := List.mem_flatMap.mp h
  rcases List.mem_append.mp hx with hx | hx
  · obtain ⟨b, -, rfl⟩ := List.mem_map.mp hx
    rfl
  · simp only [List.mem_cons, List.not_mem_nil, or_false] at hx
    rcases hx with rfl | rfl | rfl <;> rfl

/-- Recovery replays nothing from a stream without END tags. -/
theorem replayedWrites_of_unclosed (hu : Unclosed P o sid) (q : Option ℕ) (is : List ℕ) :
    replayedWrites o (planFrom P (crashView P o) q is) sid = [] := by
  obtain ⟨H, F, T, hcur, hend⟩ := hu
  have hno : ∀ x ∈ (crashView P o sid).slots P, ((crashView P o sid).tags x).isEnd = false := by
    intro x hx
    obtain ⟨i, h₁, h₂, rfl⟩ := hcur.mem_flushed_iff.mp hx
    exact (hend i h₁ (h₂.trans_le hcur.flushed_le)).2
  rw [replayedWrites, List.map_eq_nil_iff, List.filter_eq_nil_iff]
  rintro ⟨i, k⟩ hmem
  simp only [decide_eq_true_eq]
  rintro rfl
  obtain ⟨-, q', hk⟩ := mem_entriesOf_planFrom hmem
  rw [RingView.handed_of_no_end hno] at hk
  exact absurd hk List.not_mem_nil

/-- **Crash after `fsync`.**  Run any list of `ext4_sync_file` calls on an idle
stream, whatever the other streams and the rings hold, and crash: recovery
replays the writes of all of them exactly when there were none.  No bound on
the size of the ring or of the journal is needed. -/
theorem crash_after_fsync_replays_iff (P : Params) (hN : 2 ≤ P.nrOmeta) {fuel : ℕ}
    (hfuel : 2 ≤ fuel) {sid : ℕ} (hsid : sid < P.nrStreams) (bc : BufferCache) (o : Olayer)
    (hidle : Idle P (o.stream sid)) (hring : ∀ i < P.nrStreams, (o.stream i).InRing P)
    (txs : List FsyncTx) :
    ∃ o' plan, ext4SyncFiles P bc fuel o sid txs = some o' ∧
      olayerCrashRecovery P o' = some plan ∧
      (replayedWrites o' plan sid = (txs.flatMap FsyncTx.writes).map (·.target)
        ↔ txs = []) := by
  have hops : ∀ x ∈ txs.flatMap (FsyncTx.ops sid bc),
      x.1 < P.nrStreams ∧ Unclosed P o x.1 := by
    intro x hx
    rw [FsyncTx.mem_ops hx]
    exact ⟨hsid, hidle.unclosed⟩
  obtain ⟨o', hrun, hkeep, hframe, -⟩ := fs_run hN hfuel hops
  have hu := hkeep sid hidle.unclosed
  -- the scan of every stream returns: `sid` has its cursors in order, the others are as before
  have hview : ∀ i < P.nrStreams, (crashView P o' i).InRing P := by
    intro i hi
    by_cases his : i = sid
    · obtain ⟨H, F, T, hcur, -⟩ := hu
      exact his ▸ ⟨hcur.inRing.head_lt, hcur.inRing.flushed_lt⟩
    · have hs := hframe i fun x hx => by rwa [FsyncTx.mem_ops hx]
      have hr := hring i hi
      rw [← hs] at hr
      exact ⟨hr.head_lt, hr.flushed_lt⟩
  refine ⟨o', _, hrun, olayerCrashRecovery_eq hview, ?_⟩
  -- nothing of `sid` is replayed, and every transaction has a write
  rw [replayedWrites_of_unclosed hu]
  constructor
  · intro h
    rcases txs with - | ⟨t, txs⟩
    · rfl
    · have hnil := (List.append_eq_nil_iff.mp (List.map_eq_nil_iff.mp h.symm)).1
      exact absurd hnil t.writes_ne
  · rintro rfl
    rfl

/-- A one-page `REQ_TX` write of block `lba` on disk 0. -/
def onePage (lba : ℕ) : TxBio := ⟨⟨⟨0, 1⟩, lba * 8, 4096, txSync 0⟩, rfl, rfl⟩

/-- An `fsync` of blocks 10 and 11. -/
def twoBlockFsync : FsyncTx where
  writes := [onePage 10, onePage 11]
  writes_ne := by decide
  descriptor := ⟨⟨0, 1⟩, 0, 4096, { txSync 0 with tx := false }⟩
  txid := 1
  bdev := ⟨0, 1⟩

/-- One `fsync` fits the ring and the journal partition of stream 5: both entries
are live and flushed, nothing was retired, three journal blocks are used.
Recovery replays none of its two writes. -/
theorem crash_after_fsync_replays_nothing :
    ((ext4SyncFiles Params.tiny (fun _ _ => .unlocked) 2 tinyLoaded 5 [twoBlockFsync]).bind fun o =>
      (olayerCrashRecovery Params.tiny o).map fun plan =>
        ((o.stream 5).head, (o.stream 5).flushed, (o.stream 5).tail, (o.stream 5).jWritePtr,
          replayedWrites o plan 5))
      = some (0, 2, 2, Params.tiny.offInJournal 5 + 3, []) ∧
    ([twoBlockFsync].flatMap FsyncTx.writes).map (·.target) = [⟨0, 10, 1⟩, ⟨0, 11, 1⟩] := by
  decide +kernel

theorem tinyLoaded_idle (i : ℕ) : Idle Params.tiny (tinyLoaded.stream i) :=
  ⟨nrOmeta_pos, rfl, rfl, rfl⟩

theorem crash_after_fsync_replays_iff_tiny :
    ∃ o' plan, ext4SyncFiles Params.tiny (fun _ _ => .unlocked) 2 tinyLoaded 5 [twoBlockFsync]
        = some o' ∧
      olayerCrashRecovery Params.tiny o' = some plan ∧
      (replayedWrites o' plan 5 = ([twoBlockFsync].flatMap FsyncTx.writes).map (·.target)
        ↔ [twoBlockFsync] = []) :=
  crash_after_fsync_replays_iff Params.tiny (by decide) le_rfl (by decide) _ tinyLoaded
    (tinyLoaded_idle 5) (fun i _ => tinyLoaded_inRing i) [twoBlockFsync]

end CcNvme

/-
CcNvme/Submit.lean

The producer side of `ccnvme/horae.c` and the flush of `ccnvme/flush.c`, as
sequential code: one call at a time on a stream.  A retry loop carries fuel;
`none` stands for a call that does not return.

The tag of an entry is decided here.  A write with `HORAE_TX` that follows a
commit opens a transaction (BEGIN); every other write stores the bit of its
own flag; and `stream_commit_tx` stores the END bit in the slot *at* `tail`,
without moving `tail` and without copying the slot to controller memory.
-/
import CcNvme.Checkpoint
import Mathlib.Data.Nat.Log

namespace CcNvme

/-- The arguments of `stream_submit_bio_core`. -/
structure SubmitArgs where
  lba : ℕ
  nrPages : ℕ
  deviceId : ℕ
  plba : ℕ
  flags : HoraeFlag
  deriving DecidableEq, Repr

/-- The tag stored by a submit. -/
def submitTag (committed : Bool) (flags : HoraeFlag) : BitVec 3 :=
  if flags = .tx ∧ committed then HoraeFlag.txBegin.bit else flags.bit

/-- `stream->committed` after a submit. -/
def submitCommitted (committed : Bool) (flags : HoraeFlag) : Bool :=
  if flags = .tx ∧ committed then false else committed

/-- The slot after a submit has filled it, each field cut to its width; `txid`
is not written. -/
def fillOmeta (old : Ometa) (committed : Bool) (a : SubmitArgs) : Ometa :=
  { old with
    deviceId := a.deviceId % 2 ^ 8
    lba := a.lba % 2 ^ 64
    length := a.nrPages % 2 ^ 16
    plba := a.plba % 2 ^ 32
    tag := submitTag committed a.flags }

/-- `if (sid >= nr_streams) sid = 0` -/
def clampSid (P : Params) (sid : ℕ) : ℕ := if sid ≥ P.nrStreams then 0 else sid

variable (P : Params)

/-- The slot of controller memory that mirrors slot `idx` of stream `sid`. -/
def cmbSlot (sid idx : ℕ) : ℕ := sid * P.nrOmeta + idx

/-- Fill slot `slot`, mirror it and publish it by moving `tail`. -/
def publish (o : Olayer) (sid : ℕ) (a : SubmitArgs) (slot next : ℕ) : Olayer :=
  let s := o.stream sid
  let e := fillOmeta (s.ometa slot) s.committed a
  { o.setStream sid
      { s with
        tailWatermark := next
        tail := next
        committed := submitCommitted s.committed a.flags
        ometa := Function.update s.ometa slot e } with
    cmb := Function.update o.cmb (cmbSlot P sid slot) e }

/-- `stream_submit_bio_core`, with fuel for its `retry` loop. -/
def streamSubmitBioCore (bc : BufferCache) (sid : ℕ) (a : SubmitArgs) :
    ℕ → Olayer → Option (Olayer × ℕ)
  | 0, _ => none
  | fuel + 1, o =>
      let s := o.stream sid
      let tailOld := s.tailWatermark % 2 ^ 32
      if horaeRingSpace s.head tailOld P.nrOmeta < 1 then
        (streamDoCheckpoint P bc o sid 1).bind (streamSubmitBioCore bc sid a fuel)
      else if s.tailWatermark = tailOld then
        -- the second cmpxchg spins until `tail` has reached the reserved slot
        if s.tail = tailOld then
          some (publish P o sid a tailOld ((tailOld + 1) % 2 ^ 32 % P.nrOmeta), tailOld)
        else none
      else streamSubmitBioCore bc sid a fuel o

/-- `writel(tail, dev_addr)`: the low half of the first field of the first slot. -/
def doorbell (cmb : ℕ → Ometa) (tail : ℕ) : ℕ → Ometa :=
  Function.update cmb 0
    { cmb 0 with lba := (cmb 0).lba / 2 ^ 32 * 2 ^ 32 + tail % 2 ^ 32 }

/-- `stream_tx_commit_core`; neither `flags` nor `txid` is used. -/
def streamTxCommitCore (o : Olayer) (sid : ℕ) (_txid : ℕ) : Olayer :=
  let s := o.stream sid
  { o.setStream sid
      { s with
        ometa := Function.update s.ometa s.tail
          { s.ometa s.tail with tag := HoraeFlag.txEnd.bit }
        committed := true
        lastQueueFlushed := s.tail } with
    cmb := doorbell o.cmb s.tail }

/-- `stream_commit_tx` -/
def streamCommitTx (o : Olayer) (sid txid : ℕ) : Olayer := streamTxCommitCore o sid txid

/-- `stream_blkdev_issue_flush`; the results of the device flushes are not used. -/
def streamBlkdevIssueFlush (o : Olayer) (bdevs : List BlockDevice) (sid : ℕ) : Olayer :=
  let sid := clampSid P sid
  let s := o.stream sid
  if bdevs.length = 0 ∨ horaeCount s.head s.tail P.nrOmeta = 0 then o
  else
    { o.setStream sid { s with flushed := s.tail % 2 ^ 32 } with
      io := o.io ++ bdevs.map .flush }

/-- `stream_blkdev_issue_flush_noop`: `head` moves to `tail`, and `flushed` stays. -/
def streamBlkdevIssueFlushNoop (o : Olayer) (sid : ℕ) : Olayer :=
  let sid := clampSid P sid
  let s := o.stream sid
  if horaeCount s.head s.tail P.nrOmeta = 0 then o
  else o.setStream sid { s with head := s.tail % 2 ^ 32 }

/-! ### The bio and buffer-head entry points -/

/-- `submit_bio` -/
def submitBio (o : Olayer) (b : Bio) : Olayer := { o with io := o.io ++ [.bio b] }

/-- The flags left in `bi_opf` by the two flag tests of `stream_submit_bio_ipu`. -/
def ipuOpf (f : ReqFlags) : ReqFlags :=
  let f₁ := if opIsOrderedWrite f then { f with ordered := false } else f
  if opIsBarrierWrite f then { f₁ with barrier := false, preflush := false, fua := false }
  else f₁

/-- The `flag` local of the entry points; an ordered write keeps its initial 0. -/
def txFlag (f : ReqFlags) : HoraeFlag :=
  if f.txCommit then .txEnd else if f.tx then .tx else .txBegin

/-- `horae_path` -/
def horaePath (f : ReqFlags) : Bool :=
  opIsOrderedWrite f || opIsBarrierWrite f || f.tx || f.txCommit

/-- `stream_submit_bio_ipu` -/
def streamSubmitBioIpu (bc : BufferCache) (fuel : ℕ) (o : Olayer) (b : Bio) (sid : ℕ)
    (forced : Bool) : Option Olayer :=
  let sid := clampSid P sid
  let b' := { b with opf := ipuOpf b.opf }
  if !horaePath b.opf then some (submitBio o b')
  else if P.versionConsistency || forced then
    (journalWriteAlloc P bc o sid b').bind fun r =>
      -- `plba` is a `u32`: the test for a refused allocation never succeeds
      if r.2.2 < 0 then some (submitBio r.1 r.2.1)
      else
        (streamSubmitBioCore P bc sid
          ⟨horaeGetLba b, horaeGetSecs b, b.dev.diskMinor, r.2.2, txFlag b.opf⟩ fuel r.1).map
          fun q => submitBio q.1 r.2.1
  else some (submitBio o b')

/-- The flags left in `bi_opf` by `stream_submit_bio`. -/
def submitOpf (f : ReqFlags) : ReqFlags :=
  { ipuOpf f with tx := false, txCommit := false }

/-- `stream_submit_bio`: the write stays in place, its entry has `plba` 0. -/
def streamSubmitBio (bc : BufferCache) (fuel : ℕ) (o : Olayer) (b : Bio) (sid : ℕ) :
    Option Olayer :=
  let sid := clampSid P sid
  let b' := { b with opf := submitOpf b.opf }
  if !horaePath b.opf then some (submitBio o b')
  else
    (streamSubmitBioCore P bc sid
      ⟨horaeGetLba b, horaeGetSecs b, b.dev.diskMinor, 0, txFlag b.opf⟩ fuel o).map
      fun q => submitBio q.1 b'

/-- A write `struct buffer_head`: device, block number, bytes, and the `REQ_META` and `REQ_PRIO`
that `buffer_meta` and `buffer_prio` ask for. -/
structure BufferHead where
  dev : BlockDevice
  blocknr : ℕ
  size : ℕ
  stateFlags : ℕ
  deriving DecidableEq, Repr

/-- `bh2bio` -/
def bh2bio (opf : ReqFlags) (bh : BufferHead) : Bio :=
  ⟨bh.dev, bh.blocknr * (bh.size / 512), bh.size,
    { opf with others := opf.others ||| bh.stateFlags }⟩

/-- `stream_submit_bh_force_IPU` -/
def streamSubmitBhForceIpu (bc : BufferCache) (fuel : ℕ) (o : Olayer) (bh : BufferHead)
    (opf : ReqFlags) (sid : ℕ) : Option Olayer :=
  if !(opIsOrderedWrite opf || opIsBarrierWrite opf || opf.tx) then
    some (submitBio o (bh2bio opf bh))
  else streamSubmitBioIpu P bc fuel o (bh2bio opf bh) sid true

/-- `REQ_TX | REQ_SYNC` -/
def txSync (reqSync : ℕ) : ReqFlags :=
  { ordered := false, barrier := false, tx := true, txCommit := false, preflush := false,
    fua := false, others := reqSync }

/-- A `REQ_TX` write of `n` pages at block `lba`. -/
def pages (lba n : ℕ) : Bio := ⟨⟨0, 1⟩, lba * 8, n * 4096, txSync 0⟩

/-! ### Setting streams up -/

/-- The stream set up by `init_streams`: the ring and `last_txid` are whatever
`kmalloc` returned. -/
def initStream (mem : ℕ → Ometa) (lastTxid sid : ℕ) : Stream :=
  { head := 0, tail := 0, tailWatermark := 0, flushed := 0, lastTxid := lastTxid,
    committed := false, lastQueueFlushed := 0, ometa := mem,
    jWritePtr := P.offInJournal sid }

/-- `init_streams` -/
def initStreams (mem : ℕ → ℕ → Ometa) (lastTxid : ℕ → ℕ) (cmb : ℕ → Ometa) : Olayer :=
  { stream := fun sid => initStream P (mem sid) (lastTxid sid) sid
    cmb := cmb
    blocksPerGroup := 1
    ipuTree := fun _ _ => none
    registeredList := []
    io := [] }

/-- `olayer_reset_stream`; the journal pointer is left where it is. -/
def olayerResetStream (o : Olayer) (sid : ℕ) : Olayer :=
  let sid := clampSid P sid
  o.setStream sid
    { o.stream sid with
      head := 0
      tail := 0
      tailWatermark := 0
      flushed := 0
      committed := false
      lastQueueFlushed := 0
      ometa := fun _ => Ometa.zero }

/-- The part of `struct init_param` that outlives the call. -/
structure InitParam where
  /-- `device_ids` and `sbs` -/
  devs : List RegisterdDev
  pareaPartitionHint : ℕ

/-- The device loop of `olayer_register_streams`: a device that is in the list already is
left alone, a new one goes to its front. -/
def registerDevs (list : List RegisterdDev) (devs : List RegisterdDev) : List RegisterdDev :=
  devs.foldl (fun list d => if list.any (·.devId = d.devId) then list else d :: list) list

/-- `olayer_register_streams` on the module and the queue of free stream ids: returned are
also the ids handed out. -/
def olayerRegisterStreams (o : Olayer) (freeStreamQ : List ℕ) (nr : ℕ) (param : InitParam) :
    Olayer × List ℕ × List ℕ :=
  let nr := if nr > P.nrStreams then P.nrStreams else nr
  ({ o with
      registeredList := registerDevs o.registeredList param.devs
      blocksPerGroup := param.pareaPartitionHint % 2 ^ 32 },
    freeStreamQ.drop nr, freeStreamQ.take nr)

/-- The number of ids `free_stream_q` has room for. -/
def Params.freeStreamRoom : ℕ := 2 ^ Nat.clog 2 P.nrStreams * 4

/-- `olayer_unregister_streams`: the devices leave the list, the ids go to the end of the
queue as far as there is room, and their streams are reset. -/
def olayerUnregisterStreams (o : Olayer) (freeStreamQ : List ℕ) (nr : ℕ) (strs : List ℕ)
    (devs : List DevT) : Olayer × List ℕ :=
  let o := { o with
    registeredList := devs.foldl (fun list d => list.eraseP (·.devId = d)) o.registeredList }
  let unregistered := (strs.take nr).take (P.freeStreamRoom - freeStreamQ.length)
  (unregistered.foldl (olayerResetStream P) o, freeStreamQ ++ unregistered)

/-- The small controller, just loaded. -/
def tinyLoaded : Olayer :=
  initStreams Params.tiny (fun _ _ => Ometa.zero) (fun _ => 0) fun _ => Ometa.zero

/-- The one with sixteen entries per stream. -/
def roomyLoaded : Olayer :=
  initStreams Params.roomy (fun _ _ => Ometa.zero) (fun _ => 0) fun _ => Ometa.zero

/-- The small controller with a file system on minor 0 registered, whose super block is 7. -/
def tinyMounted : Olayer := { tinyLoaded with registeredList := [⟨⟨0, 0⟩, 7⟩] }

theorem tinyLoaded_inRing (i : ℕ) : (tinyLoaded.stream i).InRing Params.tiny :=
  ⟨nrOmeta_pos, nrOmeta_pos, nrOmeta_pos, nrOmeta_pos⟩

end CcNvme

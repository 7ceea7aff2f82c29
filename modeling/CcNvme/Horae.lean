/-
CcNvme/Horae.lean

The data model of `ccnvme/horae.h`: the queue entry `nvme_rw_command_`, the
per-core `stream`, the module state `olayer_info`, and the requests that
leave the module for the block layer.

Machine integers are natural numbers, reduced modulo their width where the
source stores them; the 3-bit `tag` is a `BitVec 3`.  The sizes fixed at load
time are gathered in `Params` together with what loading guarantees about
them, so that no later statement has to assume it again.
-/
import Mathlib.Logic.Function.Basic
import CcNvme.Lib.Circular

namespace CcNvme

/-! ### Ring arithmetic of the macros -/

/-- `a - b` in `u64`. -/
def subU64 (a b : ℕ) : ℕ := (a + 2 ^ 64 - b) % 2 ^ 64

/-- `horae_ring_space(head, tail, size)`, every operation in `u64`. -/
def horaeRingSpace (head tail size : ℕ) : ℕ :=
  subU64 (subU64 ((size + head) % 2 ^ 64) tail) 1 % size

/-- `horae_count(head, tail, size)`, every operation in `u64`. -/
def horaeCount (head tail size : ℕ) : ℕ :=
  subU64 ((size + tail) % 2 ^ 64) head % size

theorem subU64_eq {a b : ℕ} (hba : b ≤ a) (ha : a < 2 ^ 64) : subU64 a b = a - b := by
  unfold subU64
  rw [show a + 2 ^ 64 - b = 2 ^ 64 + (a - b) by omega, Nat.add_mod_left,
    Nat.mod_eq_of_lt (by omega)]

/-- Between two slots the macro counts the steps from `head` to `tail`. -/
theorem horaeCount_eq {head tail size : ℕ} (hh : head < size) (ht : tail < size)
    (hs : size ≤ 2 ^ 63) : horaeCount head tail size = Circular.dist size head tail := by
  have hadd : (size + tail) % 2 ^ 64 = size + tail := Nat.mod_eq_of_lt (by omega)
  unfold horaeCount
  rw [hadd, subU64_eq (by omega) (by omega)]
  rfl

/-- One slot is never used, so that a full ring differs from an empty one. -/
theorem horaeRingSpace_eq {head tail size : ℕ} (hh : head < size) (ht : tail < size)
    (hs : size ≤ 2 ^ 63) :
    horaeRingSpace head tail size = size - 1 - Circular.dist size head tail := by
  have hadd : (size + head) % 2 ^ 64 = size + head := Nat.mod_eq_of_lt (by omega)
  have htail : subU64 (size + head) tail = size + head - tail :=
    subU64_eq (by omega) (by omega)
  unfold horaeRingSpace
  rw [hadd, htail, subU64_eq (by omega) (by omega), Circular.dist_eq hh ht]
  split_ifs with h
  · rw [Nat.mod_eq_of_lt (by omega)]
    omega
  · rw [show size + head - tail - 1 = size + (head - tail - 1) by omega, Nat.add_mod_left,
      Nat.mod_eq_of_lt (by omega)]
    omega

/-! ### Load-time parameters -/

/-- A partition of a disk.  The module names a disk by its minor number only. -/
structure BlockDevice where
  diskMinor : ℕ
  partno : ℕ
  deriving DecidableEq, Repr

/-- Module parameters and the sizes probed by `init_cmb` and `init_streams`. -/
structure Params where
  /-- `olog_size`, the bytes of controller memory. -/
  ologSize : ℕ
  nrStreams : ℕ
  /-- `journal_size`, in MB. -/
  journalSize : ℕ
  /-- `NR_IPU_TREE`, the number of online CPUs. -/
  nrIpuTree : ℕ
  versionConsistency : Bool
  cpDev : BlockDevice
  nrStreams_pos : 0 < nrStreams
  nrIpuTree_pos : 0 < nrIpuTree
  nrOmeta_pos : 0 < ologSize / 64 / nrStreams
  -- `init_olayer` takes the read buffers of `olog_size` bytes from `kmalloc`,
  -- whose largest request is a few MB: all the `int` and `u32` byte offsets fit
  ologSize_lt : ologSize < 2 ^ 31

namespace Params

variable (P : Params)

/-- `nr_ometa`, the number of queue entries of one stream. -/
def nrOmeta : ℕ := P.ologSize / 64 / P.nrStreams

/-- `NR_JOURNAL_REGION_BLOCK(journal_size)`, a product of `unsigned int`s. -/
def nrJournalRegionBlock : ℕ := (256 * P.journalSize) % 2 ^ 32

/-- `nr_journal_block`, set by `stream_init_journal`. -/
def nrJournalBlock : ℕ := P.nrJournalRegionBlock / P.nrStreams

/-- `off_in_journal` of stream `sid`. -/
def offInJournal (sid : ℕ) : ℕ := sid * P.nrJournalBlock

theorem nrOmeta_lt : P.nrOmeta < 2 ^ 31 := by
  have h1 := Nat.div_le_self (P.ologSize / 64) P.nrStreams
  have h2 := Nat.div_le_self P.ologSize 64
  have := P.ologSize_lt
  unfold nrOmeta
  omega

/-- A partition lies inside the journal region. -/
theorem offInJournal_add_le {sid : ℕ} (h : sid < P.nrStreams) :
    P.offInJournal sid + P.nrJournalBlock ≤ P.nrJournalRegionBlock := by
  have hle : (sid + 1) * P.nrJournalBlock ≤ P.nrStreams * P.nrJournalBlock :=
    Nat.mul_le_mul_right _ h
  have hdiv : P.nrStreams * P.nrJournalBlock ≤ P.nrJournalRegionBlock :=
    Nat.mul_div_le _ _
  unfold offInJournal
  rw [Nat.succ_mul] at hle
  omega

/-- The region is a whole number of megabytes, so its end is never the last `u32`. -/
theorem nrJournalRegionBlock_lt : P.nrJournalRegionBlock < 2 ^ 32 - 1 := by
  unfold nrJournalRegionBlock
  omega

/-- The right boundary of a partition fits the `uint` it is computed in. -/
theorem offInJournal_add_lt {sid : ℕ} (h : sid < P.nrStreams) :
    P.offInJournal sid + P.nrJournalBlock < 2 ^ 32 := by
  have := P.offInJournal_add_le h
  have := P.nrJournalRegionBlock_lt
  omega

/-- A small controller, on which the concrete runs of this development are
evaluated: 64 streams with four queue entries and four journal blocks each. -/
def tiny : Params where
  ologSize := 16384
  nrStreams := 64
  journalSize := 1
  nrIpuTree := 2
  versionConsistency := true
  cpDev := ⟨1, 0⟩
  nrStreams_pos := by decide
  nrIpuTree_pos := by decide
  nrOmeta_pos := by decide
  ologSize_lt := by decide

/-- The small controller with sixteen queue entries per stream. -/
def roomy : Params :=
  { tiny with
    ologSize := 65536
    nrOmeta_pos := by decide
    ologSize_lt := by decide }

end Params

/-! ### Queue entries -/

/-- The anonymous `enum` of transaction marks; the values are bit positions. -/
inductive HoraeFlag where
  | txBegin
  | tx
  | txEnd
  deriving DecidableEq, Repr

/-- The value of the enumerator. -/
def HoraeFlag.val : HoraeFlag → ℕ
  | .txBegin => 0
  | .tx => 1
  | .txEnd => 2

/-- `1 << flag`. -/
def HoraeFlag.bit (f : HoraeFlag) : BitVec 3 := 1#3 <<< f.val

/-- `struct nvme_rw_command_`, one 64-byte queue entry, without its padding. -/
structure Ometa where
  lba : ℕ
  length : ℕ
  txid : ℕ
  tag : BitVec 3
  deviceId : ℕ
  plba : ℕ
  deriving DecidableEq, Repr

/-- `o->tag & (1 << HORAE_TX_BEGIN)` -/
def Ometa.isBegin (o : Ometa) : Bool := (o.tag &&& HoraeFlag.txBegin.bit) != 0#3

/-- `o->tag & (1 << HORAE_TX_END)` -/
def Ometa.isEnd (o : Ometa) : Bool := (o.tag &&& HoraeFlag.txEnd.bit) != 0#3

/-- The entry left by `memset(…, 0, …)`. -/
def Ometa.zero : Ometa := ⟨0, 0, 0, 0#3, 0, 0⟩

/-! ### Streams and the module state -/

/-- The mutable part of `struct stream`; the sizes and offsets are in `Params`. -/
structure Stream where
  head : ℕ
  tail : ℕ
  tailWatermark : ℕ
  flushed : ℕ
  lastTxid : ℕ
  committed : Bool
  lastQueueFlushed : ℕ
  /-- The host copy of the ring, `ometa_start[…]`. -/
  ometa : ℕ → Ometa
  jWritePtr : ℕ

/-- `struct ipu_entry` -/
structure IpuEntry where
  lba : ℕ
  plba : ℕ
  txid : ℕ
  deriving DecidableEq, Repr

/-- `dev_t` -/
structure DevT where
  major : ℕ
  minor : ℕ
  deriving DecidableEq, Repr

/-- `struct registerd_dev`; super blocks are named by a number. -/
structure RegisterdDev where
  devId : DevT
  sb : ℕ
  deriving DecidableEq, Repr

/-- The bits of `bi_opf` the module looks at, and all the others. -/
structure ReqFlags where
  ordered : Bool
  barrier : Bool
  tx : Bool
  txCommit : Bool
  preflush : Bool
  fua : Bool
  others : ℕ
  deriving DecidableEq, Repr

/-- A write `struct bio`: target, first sector, bytes, flags. -/
structure Bio where
  dev : BlockDevice
  sector : ℕ
  size : ℕ
  opf : ReqFlags
  deriving DecidableEq, Repr

/-- What the module passes down to the block layer. -/
inductive Request where
  /-- `submit_bio(bio)` -/
  | bio (b : Bio)
  /-- `submit_bh(REQ_OP_WRITE, REQ_SYNC, sb_getblk(sb, lba))` -/
  | bh (sb lba : ℕ)
  /-- `submit_bio_wait` on a write of pages into which the entries `saved` were copied -/
  | pages (dev : BlockDevice) (sector nrPages : ℕ) (saved : List Ometa)
  /-- `blkdev_issue_flush`, in its synchronous or asynchronous form -/
  | flush (bdev : BlockDevice)
  deriving DecidableEq, Repr

/-- Whether the request writes a buffer back to its home location. -/
def Request.isBh : Request → Bool
  | .bh _ _ => true
  | _ => false

/-- `struct olayer_info`, the controller memory and the requests sent so far. -/
structure Olayer where
  stream : ℕ → Stream
  /-- Controller memory in units of one queue entry. -/
  cmb : ℕ → Ometa
  blocksPerGroup : ℕ
  ipuTree : ℕ → ℕ → Option IpuEntry
  registeredList : List RegisterdDev
  io : List Request

/-- Replace the state of stream `sid`. -/
def Olayer.setStream (o : Olayer) (sid : ℕ) (s : Stream) : Olayer :=
  { o with stream := Function.update o.stream sid s }

@[simp] theorem Olayer.setStream_self (o : Olayer) (sid : ℕ) (s : Stream) :
    (o.setStream sid s).stream sid = s := by
  simp [Olayer.setStream]

@[simp] theorem Olayer.setStream_of_ne {o : Olayer} {sid i : ℕ} (s : Stream) (h : i ≠ sid) :
    (o.setStream sid s).stream i = o.stream i := by
  simp [Olayer.setStream, h]

@[simp] theorem Olayer.setStream_cmb (o : Olayer) (sid : ℕ) (s : Stream) :
    (o.setStream sid s).cmb = o.cmb := rfl

@[simp] theorem Olayer.setStream_io (o : Olayer) (sid : ℕ) (s : Stream) :
    (o.setStream sid s).io = o.io := rfl

@[simp] theorem Olayer.setStream_ipuTree (o : Olayer) (sid : ℕ) (s : Stream) :
    (o.setStream sid s).ipuTree = o.ipuTree := rfl

@[simp] theorem Olayer.setStream_registeredList (o : Olayer) (sid : ℕ) (s : Stream) :
    (o.setStream sid s).registeredList = o.registeredList := rfl

@[simp] theorem Olayer.setStream_blocksPerGroup (o : Olayer) (sid : ℕ) (s : Stream) :
    (o.setStream sid s).blocksPerGroup = o.blocksPerGroup := rfl

/-- `stream_ometa_at(s, idx)` -/
def streamOmetaAt (s : Stream) (idx : ℕ) : Ometa := s.ometa idx

/-- The cursors of a stream are slots of its ring. -/
structure Stream.InRing (P : Params) (s : Stream) : Prop where
  head_lt : s.head < P.nrOmeta
  tail_lt : s.tail < P.nrOmeta
  tailWatermark_lt : s.tailWatermark < P.nrOmeta
  flushed_lt : s.flushed < P.nrOmeta

/-! ### Requests -/

/-- `op_is_barrier_write` -/
def opIsBarrierWrite (f : ReqFlags) : Bool := f.barrier || f.fua

/-- `op_is_ordered_write` -/
def opIsOrderedWrite (f : ReqFlags) : Bool := f.ordered || opIsBarrierWrite f

/-- `horae_get_lba` -/
def horaeGetLba (b : Bio) : ℕ := b.sector / 8

/-- `horae_get_secs` -/
def horaeGetSecs (b : Bio) : ℕ := b.size / 4096

end CcNvme

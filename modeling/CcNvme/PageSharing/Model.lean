/-
CcNvme/PageSharing/Model.lean

Sharing of inode-table blocks.  A block of the inode table holds several inodes, and calls of
`fsync` for different inodes write it at the same time.  The first one claims the buffer:
`ext4_write_inode` puts it on the inode's `inodemeta_pending_list`, sets `b_assoc_map` and sends
the buffer itself.  Who finds `b_assoc_map` set copies the block out (`copy_out_bh`), puts the
copy on its own `copyout_inode_list` and sends that.  `tx_write_wait_inode_buffer` takes the
buffers off the two lists, waits for each and frees the copies.

A world is the inode-table buffers, the bios sent so far, the copies and the calls, each at its
own place in the code.  Raw inodes are represented by the number of changes made to them.
`ext4_do_update_inode` changes the raw inode and only then marks the buffer dirty, without the
buffer lock, so a device that reads the buffer and a `memcpy` out of it see one inode earlier and
another later: they take one inode at a time.
-/
import Mathlib.Data.Fintype.Basic
import CcNvme.Lib.Run
import CcNvme.Lib.Table
import CcNvme.Lib.Snapshot
import CcNvme.BufferPasses

namespace CcNvme.PageSharing

/-! ### Buffer heads -/

/-- What the buffer lock is held for: a bio that is in flight, or the copy that a call makes. -/
inductive Holder
  | io (k : ℕ)
  | copy (t : ℕ)
  deriving DecidableEq, Repr

/-- The state bits of a `buffer_head`. -/
structure Head where
  dirty : Bool
  lock : Option Holder
  uptodate : Bool
  /-- `BH_Req`: it has been submitted before -/
  req : Bool
  /-- `BH_Write_EIO` -/
  ioError : Bool
  deriving DecidableEq, Repr

namespace Head

/-- A block that has been read. -/
def loaded : Head := ⟨false, none, true, false, false⟩

/-- `alloc_buffer_head`, then `set_buffer_dirty`. -/
def copied : Head := ⟨true, none, false, false, false⟩

/-- `test_clear_buffer_dirty` and `bh2bio`: a write error is forgotten when a buffer is written
again. -/
def bh2bio (h : Head) (k : ℕ) : Head :=
  { h with dirty := false, lock := some (.io k), req := true, ioError := !h.req && h.ioError }

def endBufferWriteSync (h : Head) (failed : Bool) : Head :=
  { h with lock := none, uptodate := !failed, ioError := h.ioError || failed }

/-- `if (buffer_req(bh) && !buffer_uptodate(bh)) err = -EIO` -/
def eio (h : Head) (err : ℤ) : ℤ := BufferPasses.eioUnless (!h.req || h.uptodate) err

end Head

/-! ### The world -/

variable {ι β : Type}

/-- A write of an inode-table block.  `source` is the copy it is sent from, if it is not sent
from the buffer itself; `stream` is missing if the write is not part of a transaction; `taken`
is what the device has read of each inode so far. -/
structure Bio (ι β : Type) where
  block : β
  source : Option ℕ
  stream : Option ℕ
  taken : ι → Option ℕ
  done : Bool
  failed : Bool

/-- `local_bh` and its page. -/
structure Copy (ι β : Type) where
  block : β
  owner : ι
  data : ι → ℕ
  head : Head
  freed : Bool

/-- Where a call is: in `ext4_write_inode` up to `written`, then in
`tx_write_wait_inode_buffer`. -/
inductive Stage (ι β : Type)
  /-- before `spin_lock(&buffer_mapping->private_lock)` -/
  | enter
  /-- on the pending list, before `tx_write_dirty_buffer(iloc.bh)` -/
  | claimed
  /-- `b_assoc_map` was set, before `mqfs_alloc` -/
  | shared
  /-- before `lock_buffer(bh_in)` -/
  | lockCopy
  /-- in `memcpy` -/
  | copying (got : ι → Option ℕ)
  /-- on the list of copies, before `tx_write_dirty_buffer(local_bh)` -/
  | listed (c : ℕ)
  /-- before `buffer_req(iloc.bh) && !buffer_uptodate(iloc.bh)` -/
  | check
  | written
  | drain
  | waitBuf (b : β)
  | drainCopies
  | waitCopy (c : ℕ)
  | done (waited : Bool)

/-- A call for an inode.  `since` is the last change that had been marked when it came, `werr`
is what `ext4_write_inode` returned and `err` what `tx_write_wait_inode_buffer` returns. -/
structure Call (ι β : Type) where
  inode : ι
  stream : ℕ
  since : ℕ
  werr : ℤ
  err : ℤ
  stage : Stage ι β

def Stage.isDone : Stage ι β → Bool
  | .done _ => true
  | _ => false

structure World (ι β : Type) where
  /-- the raw inodes in the buffers -/
  data : ι → ℕ
  /-- the last change of each for which the buffer was marked dirty -/
  marked : ι → ℕ
  heads : β → Head
  /-- `b_assoc_map` -/
  assoc : β → Option ι
  /-- `inodemeta_pending_list` -/
  pending : ι → List β
  /-- `copyout_inode_list` -/
  copyouts : ι → List ℕ
  /-- `i_mapping->private_data` is set -/
  privateData : ι → Bool
  bios : List (Bio ι β)
  copies : List (Copy ι β)
  calls : List (Call ι β)
  /-- a freed copy has been used, or a null pointer followed -/
  bug : Bool

inductive Act (ι β : Type)
  /-- `__ext4_get_inode_loc` by anybody -/
  | look (b : β)
  /-- `ext4_do_update_inode` writes the raw inode -/
  | fill (i : ι)
  /-- `mark_buffer_dirty` -/
  | mark (i : ι)
  /-- writeback of the block device -/
  | flush (b : β)
  /-- the device reads the inode for the bio -/
  | fetch (k : ℕ) (j : ι)
  | complete (k : ℕ) (failed : Bool)
  /-- a call for the inode enters `ext4_write_inode` -/
  | enter (i : ι) (stream : ℕ)
  /-- the next step of the call -/
  | go (t : ℕ)
  /-- `mqfs_alloc` -/
  | alloc (t : ℕ) (ok : Bool)
  /-- `memcpy` comes to the inode -/
  | copySlot (t : ℕ) (j : ι)
  /-- the call returns without waiting, as in `ext4_atomic_file` -/
  | leave (t : ℕ)

/-! ### Steps -/

variable [DecidableEq ι] [DecidableEq β]

namespace World

def setHead (w : World ι β) (b : β) (h : Head) : World ι β :=
  { w with heads := Function.update w.heads b h }

def setCall (w : World ι β) (t : ℕ) (c : Call ι β) : World ι β :=
  { w with calls := w.calls.set t c }

def setCopy (w : World ι β) (c : ℕ) (y : Copy ι β) : World ι β :=
  { w with copies := w.copies.set c y }

def fault (w : World ι β) : World ι β := { w with bug := true }

/-- `__ext4_get_inode_loc` for a block in the cache: after a failed write it is taken to be up
to date.  A block that is not up to date for another reason would be read again. -/
def getInodeLoc (w : World ι β) (b : β) : Option (World ι β) :=
  if (w.heads b).uptodate then some w
  else if (w.heads b).lock.isSome then none
  else if (w.heads b).ioError then some (w.setHead b { w.heads b with uptodate := true })
  else some w.fault

/-- `tx_write_dirty_buffer` for an inode-table buffer. -/
def txWriteDirtyBuffer (w : World ι β) (b : β) (stream : Option ℕ) : Option (World ι β) :=
  if (w.heads b).lock.isSome then none
  else if (w.heads b).dirty then
    some { w.setHead b ((w.heads b).bh2bio w.bios.length) with
      bios := w.bios ++ [⟨b, none, stream, fun _ => none, false, false⟩] }
  else some w

/-- `tx_write_dirty_buffer` for a copy. -/
def txWriteDirtyCopy (w : World ι β) (c : ℕ) (y : Copy ι β) (stream : ℕ) : Option (World ι β) :=
  if y.freed then some w.fault
  else if y.head.lock.isSome then none
  else if y.head.dirty then
    some { w.setCopy c { y with head := y.head.bh2bio w.bios.length } with
      bios := w.bios ++ [⟨y.block, some c, some stream, fun j => some (y.data j), false, false⟩] }
  else some w

/-- The branches of `ext4_write_inode` under `private_lock`. -/
def claim (blk : ι → β) (w : World ι β) (t : ℕ) (c : Call ι β) : World ι β :=
  if (w.assoc (blk c.inode)).isSome then w.setCall t { c with stage := .shared }
  else
    { w.setCall t { c with stage := .claimed } with
      pending := Function.update w.pending c.inode (blk c.inode :: w.pending c.inode)
      assoc := Function.update w.assoc (blk c.inode) (some c.inode)
      privateData := Function.update w.privateData c.inode true }

/-- The end of `copy_out_bh`, and the copy is put on the list. -/
def addCopy (blk : ι → β) (w : World ι β) (t : ℕ) (c : Call ι β) (got : ι → Option ℕ) :
    World ι β :=
  { (w.setHead (blk c.inode) { w.heads (blk c.inode) with lock := none }).setCall t
      { c with stage := .listed w.copies.length } with
    copies := w.copies ++
      [⟨blk c.inode, c.inode, fun j => (got j).getD 0, Head.copied, false⟩]
    copyouts := Function.update w.copyouts c.inode (w.copies.length :: w.copyouts c.inode) }

/-- The first loop of `tx_write_wait_inode_buffer`, under `private_lock`. -/
def drain (w : World ι β) (t : ℕ) (c : Call ι β) : World ι β :=
  match (w.pending c.inode).getLast? with
  | none => w.setCall t { c with stage := .drainCopies }
  | some b =>
      if w.privateData c.inode then
        { w.setCall t { c with stage := .waitBuf b } with
          pending := Function.update w.pending c.inode (w.pending c.inode).dropLast
          assoc := Function.update w.assoc b none }
      else w.fault

/-- The head of the second loop. -/
def drainCopies (w : World ι β) (t : ℕ) (c : Call ι β) : World ι β :=
  match (w.copyouts c.inode).getLast? with
  | none => w.setCall t { c with stage := .done true }
  | some k =>
      { w.setCall t { c with stage := .waitCopy k } with
        copyouts := Function.update w.copyouts c.inode (w.copyouts c.inode).dropLast }

/-- `wait_on_buffer` for a copy, and `release_copy_out_bh`. -/
def waitCopy (w : World ι β) (t : ℕ) (c : Call ι β) (k : ℕ) (y : Copy ι β) :
    Option (World ι β) :=
  if y.freed then some w.fault
  else if y.head.lock.isSome then none
  else
    some ((w.setCopy k { y with freed := true }).setCall t
      { c with err := y.head.eio c.err, stage := .drainCopies })

end World

/-- The next step of a call. -/
def goStep [Fintype ι] (blk : ι → β) (w : World ι β) (t : ℕ) (c : Call ι β) :
    Option (World ι β) :=
  match c.stage with
  | .enter => some (w.claim blk t c)
  | .claimed =>
      (w.txWriteDirtyBuffer (blk c.inode) (some c.stream)).map fun w' =>
        w'.setCall t { c with stage := .check }
  | .lockCopy =>
      if (w.heads (blk c.inode)).lock.isSome then none
      else
        let w₁ := w.setHead (blk c.inode) { w.heads (blk c.inode) with lock := some (.copy t) }
        some (w₁.setCall t { c with stage := .copying fun _ => none })
  | .copying got =>
      if ∀ j, blk j = blk c.inode → (got j).isSome then some (w.addCopy blk t c got) else none
  | .listed k =>
      (w.copies[k]?).bind fun y =>
        (w.txWriteDirtyCopy k y c.stream).map fun w' => w'.setCall t { c with stage := .check }
  | .check =>
      some (w.setCall t { c with werr := (w.heads (blk c.inode)).eio 0, stage := .written })
  | .written => some (w.setCall t { c with stage := .drain })
  | .drain => some (w.drain t c)
  | .waitBuf b =>
      if (w.heads b).lock.isSome then none
      else some (w.setCall t { c with err := (w.heads b).eio c.err, stage := .drain })
  | .drainCopies => some (w.drainCopies t c)
  | .waitCopy k => (w.copies[k]?).bind fun y => w.waitCopy t c k y
  | .shared | .done _ => none

/-- `end_buffer_write_sync` at the end of a bio. -/
def completeStep [Fintype ι] (blk : ι → β) (w : World ι β) (k : ℕ) (x : Bio ι β)
    (failed : Bool) : Option (World ι β) :=
  if x.done = false ∧ ∀ j, blk j = x.block → (x.taken j).isSome then
    let w' := { w with bios := w.bios.set k { x with done := true, failed := failed } }
    match x.source with
    | none => some (w'.setHead x.block ((w.heads x.block).endBufferWriteSync failed))
    | some c =>
        (w.copies[c]?).map fun y =>
          if y.freed then w.fault
          else w'.setCopy c { y with head := y.head.endBufferWriteSync failed }
  else none

def step [Fintype ι] (blk : ι → β) (w : World ι β) (a : Act ι β) : Option (World ι β) :=
  if w.bug then none
  else
    match a with
    | .look b => w.getInodeLoc b
    | .fill i => some { w with data := Function.update w.data i (w.data i + 1) }
    | .mark i =>
        some { w.setHead (blk i) { w.heads (blk i) with dirty := true } with
          marked := Function.update w.marked i (w.data i) }
    | .flush b => w.txWriteDirtyBuffer b none
    | .fetch k j =>
        (w.bios[k]?).bind fun x =>
          if x.done = false ∧ x.taken j = none then
            some { w with bios := w.bios.set k { x with taken := Snapshot.take w.data x.taken j } }
          else none
    | .complete k failed => (w.bios[k]?).bind fun x => completeStep blk w k x failed
    | .enter i stream =>
        (w.getInodeLoc (blk i)).map fun w' =>
          { w' with calls := w'.calls ++ [⟨i, stream, w'.marked i, 0, 0, .enter⟩] }
    | .go t => (w.calls[t]?).bind fun c => goStep blk w t c
    | .alloc t ok =>
        (w.calls[t]?).bind fun c =>
          match c.stage, ok with
          | .shared, true => some (w.setCall t { c with stage := .lockCopy })
          -- -ENOMEM
          | .shared, false => some (w.setCall t { c with werr := -12, stage := .written })
          | _, _ => none
    | .copySlot t j =>
        (w.calls[t]?).bind fun c =>
          match c.stage with
          | .copying got =>
              if got j = none ∧ blk j = blk c.inode then
                some (w.setCall t { c with stage := .copying (Snapshot.take w.data got j) })
              else none
          | _ => none
    | .leave t =>
        (w.calls[t]?).bind fun c =>
          match c.stage with
          | .written => some (w.setCall t { c with stage := .done false })
          | _ => none

/-- Nothing has been changed, sent or claimed yet. -/
def World.init : World ι β :=
  ⟨fun _ => 0, fun _ => 0, fun _ => Head.loaded, fun _ => none, fun _ => [], fun _ => [],
    fun _ => false, [], [], [], false⟩

/-- The inode lock: a call for an inode comes when no other call for it is under way. -/
def Act.exclusive (w : World ι β) : Act ι β → Bool
  | .enter i _ => w.calls.all fun c => decide (c.inode ≠ i) || c.stage.isDone
  | _ => true

end CcNvme.PageSharing

/-
CcNvme/IoEnds/Model.lean

The life of an `ext4_io_end_t` (`mqfs/page-io.c`).  A writeback pass allocates it with one
reference, takes another one for every bio, and drops its own when it has submitted the bios;
`ext4_end_bio` drops the one of a bio.  Whoever drops the last one releases the `io_end`.

If the extent was unwritten, it has to be converted before the pages it was written from can end
their writeback.  So `ext4_end_bio` does not finish the bio, but links it to the `io_end`, and
the last reference hands the `io_end` over to `i_rsv_conversion_work`, which converts the extent
and finishes the bios that are linked.  If the conversion fails the bios are finished all the
same.

* A bio is linked by an exchange on `io_end->bio` followed by a store to `bi_private`; these are
  two steps here, and completions of other bios come between them.
* `i_rsv_conversion_work` is queued only if the list was empty; it takes the whole list.
* A step that a `BUG_ON` of the source forbids, that drops a reference which is not there, uses
  an `io_end` after it was freed, or follows a `bi_private` that is no bio, sets `bug`, and
  nothing happens after it.
-/
import CcNvme.Lib.Run
import CcNvme.Lib.Table
import CcNvme.Lib.Links
import Mathlib.Data.Int.Notation

namespace CcNvme.IoEnds

/-- `bio->bi_private` -/
inductive Private where
  | ioEnd (e : ℕ)
  | bio (next : Option ℕ)
  deriving DecidableEq, Repr

/-- How far a bio has come; from `linking` on, in `ext4_end_bio`. -/
inductive Place where
  | opened
  | sent
  /-- `EXT4_IO_END_UNWRITTEN` was set. -/
  | linking
  /-- Between the exchange and the store. -/
  | storing (old : Option ℕ)
  | linked
  /-- Linked, and the reference is dropped. -/
  | waiting
  /-- `EXT4_IO_END_UNWRITTEN` was not set. -/
  | dropping
  | finishing
  /-- `ext4_finish_bio` has been called. -/
  | finished
  deriving DecidableEq, Repr

/-- A bio and the `io_end` it was allocated for.  `deferred` records whether the extent was
marked as unwritten when the bio was submitted. -/
structure EndBio where
  ioEnd : ℕ
  priv : Private
  place : Place
  deferred : Bool
  deriving DecidableEq, Repr

/-- `ext4_io_end_t`.  `held`: the reference of the writeback pass; `result` records what
`ext4_convert_unwritten_extents` returned, if it was called. -/
structure IoEnd where
  count : ℕ
  size : ℕ
  unwritten : Bool
  head : Option ℕ
  held : Bool
  freed : Bool
  result : Option ℤ
  deriving DecidableEq, Repr

/-- `i_rsv_conversion_work`, when it runs. -/
inductive Worker where
  | idle
  | started
  /-- The local list `unwritten` of `ext4_do_flush_completed_IO`. -/
  | working (unwritten : List ℕ)
  deriving DecidableEq, Repr

/-- An inode: its `io_end`s and bios, `i_rsv_conversion_list`, whether the work is queued,
the work, and `i_unwritten`. -/
structure World where
  ends : List IoEnd
  bios : List EndBio
  convList : List ℕ
  queued : Bool
  worker : Worker
  nrUnwritten : ℕ
  bug : Bool
  deriving DecidableEq, Repr

/-- `io_end->list` -/
def Worker.list : Worker → List ℕ
  | .working unwritten => unwritten
  | _ => []

/-- How often the `io_end` is on a list. -/
def World.listed (w : World) (e : ℕ) : ℕ := w.convList.count e + w.worker.list.count e

def World.fault (w : World) : World := { w with bug := true }

def World.setEnd (w : World) (e : ℕ) (x : IoEnd) : World := { w with ends := w.ends.set e x }

def World.setBio (w : World) (b : ℕ) (x : EndBio) : World := { w with bios := w.bios.set b x }

/-- `bio->bi_private`, read as a bio. -/
def nextBio (bios : List EndBio) (b : ℕ) : Option (Option ℕ) :=
  (bios[b]?).bind fun x =>
    match x.priv with
    | .bio next => some next
    | .ioEnd _ => none

/-- `ext4_finish_bio` is called for the bios of a list. -/
def finishAll (l : List ℕ) (bios : List EndBio) : List EndBio :=
  bios.mapIdx fun b x => if b ∈ l then { x with place := .finished } else x

/-- `ext4_release_io_end` -/
def release (w : World) (e : ℕ) (x : IoEnd) : World :=
  if w.listed e ≠ 0 || x.unwritten then w.fault
  else
    match Links.walk (nextBio w.bios) w.bios.length x.head with
    | none => w.fault
    | some l =>
        { w with ends := w.ends.set e { x with freed := true }, bios := finishAll l w.bios }

/-- `ext4_convert_unwritten_extents`, which returns `err`, and `ext4_clear_io_unwritten_flag` -/
def convert (w : World) (x : IoEnd) (err : ℤ) : World × IoEnd :=
  ({ w with nrUnwritten := w.nrUnwritten - 1 }, { x with unwritten := false, result := some err })

/-- `ext4_add_complete_io` -/
def addCompleteIo (w : World) (e : ℕ) (x : IoEnd) : World :=
  { w.setEnd e x with
    queued := w.queued || w.convList.isEmpty
    convList := w.convList ++ [e] }

/-- `ext4_put_io_end_defer`, for an `io_end` that is there -/
def putDefer (w : World) (e : ℕ) (x : IoEnd) : World :=
  let x₁ := { x with count := x.count - 1 }
  if x.freed || decide (x.count = 0) then w.fault
  else if x₁.count ≠ 0 then w.setEnd e x₁
  else if !x.unwritten || decide (x.size = 0) then release w e x₁
  else addCompleteIo w e x₁

/-- `ext4_put_io_end` -/
def putSync (w : World) (e : ℕ) (x : IoEnd) (err : ℤ) : World :=
  let x₁ := { x with count := x.count - 1 }
  if x.freed || decide (x.count = 0) then w.fault
  else if x₁.count ≠ 0 then w.setEnd e x₁
  else if x.unwritten then release (convert w x₁ err).1 e (convert w x₁ err).2
  else release w e x₁

/-- `ext4_end_io`, for an `io_end` that `ext4_do_flush_completed_IO` has taken off its list -/
def endIo (w : World) (e : ℕ) (x : IoEnd) (err : ℤ) : World :=
  if x.freed || !x.unwritten then w.fault
  -- an error is logged, and the `io_end` released as without one
  else release (convert w x err).1 e (convert w x err).2

inductive Act where
  /-- `ext4_init_io_end` -/
  | init
  /-- `ext4_set_io_unwritten_flag` -/
  | setUnwritten (e : ℕ)
  /-- `io_end->size += …` -/
  | grow (e n : ℕ)
  /-- `io_submit_init_bio`, with `ext4_get_io_end` -/
  | openBio (e : ℕ)
  /-- `ext4_io_submit` -/
  | send (b : ℕ)
  /-- The bio completes; `ext4_end_bio` reads the flag. -/
  | endBio (b : ℕ)
  | xchg (b : ℕ)
  | store (b : ℕ)
  /-- `ext4_put_io_end_defer` in `ext4_end_bio` -/
  | putBio (b : ℕ)
  /-- `ext4_finish_bio` in `ext4_end_bio` -/
  | finish (b : ℕ)
  /-- The writeback pass drops its reference, with `ext4_put_io_end` or
  `ext4_put_io_end_defer`; `err` is the result of the conversion, if the first makes one. -/
  | put (e : ℕ) (defer : Bool) (err : ℤ)
  | workStart
  /-- `list_replace_init` -/
  | workTake
  /-- `ext4_end_io`; `err` is the result of the conversion. -/
  | workOne (err : ℤ)
  | workEnd
  deriving DecidableEq, Repr

/-- What a conversion may return in this step. -/
def Act.result : Act → Option ℤ
  | .put _ false err | .workOne err => some err
  | _ => none

/-- The writeback pass works on an `io_end` it holds. -/
def World.holding (w : World) (e : ℕ) (f : IoEnd → World) : Option World :=
  (w.ends[e]?).bind fun x => if x.held then some (f x) else none

/-- The flag is tested, or the list changed, for the bio `x` with number `b`. -/
def endBioStep (w : World) (b : ℕ) (x : EndBio) (y : IoEnd) : World :=
  if y.freed then w.fault
  else w.setBio b { x with place := if y.unwritten then .linking else .dropping }

def xchgStep (w : World) (b : ℕ) (x : EndBio) (y : IoEnd) : World :=
  if y.freed then w.fault
  else (w.setEnd x.ioEnd { y with head := some b }).setBio b { x with place := .storing y.head }

/-- One step of the completion of a bio. -/
def bioStep (w : World) (b : ℕ) (x : EndBio) (y : IoEnd) : Act → Option World
  | .send _ =>
      if x.place = .opened then some (w.setBio b { x with place := .sent, deferred := y.unwritten })
      else none
  | .endBio _ => if x.place = .sent then some (endBioStep w b x y) else none
  | .xchg _ => if x.place = .linking then some (xchgStep w b x y) else none
  | .store _ =>
      match x.place with
      | .storing old => some (w.setBio b { x with priv := .bio old, place := .linked })
      | _ => none
  | .putBio _ =>
      match x.place with
      | .linked => some (putDefer (w.setBio b { x with place := .waiting }) x.ioEnd y)
      | .dropping => some (putDefer (w.setBio b { x with place := .finishing }) x.ioEnd y)
      | _ => none
  | .finish _ =>
      if x.place = .finishing then some (w.setBio b { x with place := .finished }) else none
  | _ => none

/-- The bio and its `io_end`. -/
def World.onBio (w : World) (b : ℕ) (a : Act) : Option World :=
  (w.bios[b]?).bind fun x => (w.ends[x.ioEnd]?).bind fun y => bioStep w b x y a

def workStep (w : World) : Act → Option World
  | .workStart =>
      if w.queued && decide (w.worker = .idle) then
        some { w with queued := false, worker := .started }
      else none
  | .workTake =>
      if w.worker = .started then
        some { w with convList := [], worker := .working w.convList }
      else none
  | .workOne err =>
      match w.worker with
      | .working (e :: rest) =>
          (w.ends[e]?).map fun x => endIo { w with worker := .working rest } e x err
      | _ => none
  | .workEnd =>
      if w.worker = .working [] then some { w with worker := .idle } else none
  | _ => none

/-- The writeback pass. -/
def passStep (w : World) : Act → Option World
  | .init => some { w with ends := w.ends ++ [⟨1, 0, false, none, true, false, none⟩] }
  | .setUnwritten e =>
      w.holding e fun x =>
        if x.unwritten then w
        else { w.setEnd e { x with unwritten := true } with nrUnwritten := w.nrUnwritten + 1 }
  | .grow e n => w.holding e fun x => w.setEnd e { x with size := x.size + n }
  | .openBio e =>
      w.holding e fun x =>
        { w.setEnd e { x with count := x.count + 1 } with
          bios := w.bios ++ [⟨e, .ioEnd e, .opened, false⟩] }
  | .put e defer err =>
      w.holding e fun x =>
        if defer then putDefer w e { x with held := false }
        else putSync w e { x with held := false } err
  | _ => none

def step (w : World) (a : Act) : Option World :=
  if w.bug then none
  else
    match a with
    | .send b | .endBio b | .xchg b | .store b | .putBio b | .finish b => w.onBio b a
    | .workStart | .workTake | .workOne _ | .workEnd => workStep w a
    | _ => passStep w a

def World.empty : World := ⟨[], [], [], false, .idle, 0, false⟩

end CcNvme.IoEnds

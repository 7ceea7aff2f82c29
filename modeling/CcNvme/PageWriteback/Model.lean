/-
CcNvme/PageWriteback/Model.lean

`ext4_bio_write_page` and `ext4_finish_bio` of `mqfs/page-io.c`: how the buffers of a page get
into bios, and who ends the writeback of the page.

A page under writeback has buffers in several bios, which complete in any order, on any
processor, while the call that submits them still runs.  The flag `BH_Async_Write` decides
between them: the first loop of `ext4_bio_write_page` sets it on every buffer that will be
written, before the first one is; a completion clears it on the buffers of a segment and, if it
finds it on no other buffer of the page, ends the writeback.  If nothing was submitted, the
submitting call ends it.

The model has any number of writeback passes (`κ`), each with its `struct ext4_io_submit`, and
any number of pages (`π`).  A step is one iteration of a loop, one call into the block layer, or
one critical section under `BH_Uptodate_Lock`; `end_page_writeback` comes after the critical
section and is a step of its own.  How a bio is routed when it is submitted is in `PageIo`.

* `Flight`: a page with a buffer in a bio is under writeback, and no writeback is ended twice.
* `Ends`: every writeback ends, except after a failed allocation that comes too late.
* `Exact`: a call submits the buffers that are to be written, once, and drops no dirty one.
-/
import CcNvme.Lib.Run
import CcNvme.Lib.Table
import Mathlib.Logic.Function.Basic
import Mathlib.Data.List.Range

namespace CcNvme.PageWriteback

/-- The buffers of a page: `nb` buffers of `bs` bytes. -/
structure Geometry where
  bs : ℕ
  nb : ℕ
  bs_pos : 0 < bs
  nb_pos : 0 < nb

/-- A `buffer_head` of a page: its block and the bits of `b_state` that are used here. -/
structure Buf where
  blocknr : ℕ
  dirty : Bool
  mapped : Bool
  delay : Bool
  unwritten : Bool
  new : Bool
  uptodate : Bool
  asyncWrite : Bool
  deriving DecidableEq, Repr

/-- A `bio_vec` -/
structure Seg (π : Type*) where
  page : π
  offset : ℕ
  len : ℕ
  deriving DecidableEq, Repr

/-- A bio: the segments that `ext4_finish_bio` has not looked at yet, whether it was submitted,
`bi_status` once it has completed, and the page whose writeback the last critical section has
decided to end. -/
structure Bio (π : Type*) where
  segs : List (Seg π)
  sent : Bool
  status : Option Bool
  ending : Option π

/-- Where a call of `ext4_bio_write_page` is. -/
inductive Phase where
  /-- the first loop -/
  | mark
  /-- `retry_encrypt` -/
  | encrypt
  /-- the second loop -/
  | submit
  /-- the loop after `out` -/
  | clean
  | unlock
  /-- `end_page_writeback` at the end -/
  | last
  deriving DecidableEq, Repr

/-- The arguments and variables of a call of `ext4_bio_write_page`.  `entry` and `put` are not
variables of the source: the buffers as the call found them, and the buffers it has put into
bios. -/
structure Job (κ : Type*) where
  owner : κ
  len : ℕ
  encrypted : Bool
  syncAll : Bool
  phase : Phase
  cur : ℕ
  toSubmit : ℕ
  submitted : ℕ
  ret : ℤ
  entry : ℕ → Buf
  put : List ℕ

/-- A page, with the call that is working on it. -/
structure Page (κ : Type*) where
  bufs : ℕ → Buf
  locked : Bool
  writeback : Bool
  error : Bool
  dirty : Bool
  job : Option (Job κ)

/-- `struct ext4_io_submit` of a writeback pass: the bio under construction, by its number, and
`io_next_block`; `busy` while the pass is in `ext4_bio_write_page`. -/
structure Pass where
  bio : Option ℕ
  nextBlock : ℕ
  busy : Bool

/-- `bug`: `end_page_writeback` was called for a page that is not under writeback. -/
structure World (π κ : Type*) where
  pages : π → Page κ
  bios : List (Bio π)
  passes : κ → Pass
  bug : Bool

section Model

variable {π κ : Type*} [DecidableEq π] [DecidableEq κ]

/-- The buffer lies in the segment: the test in `ext4_finish_bio`. -/
def Seg.covers (g : Geometry) (s : Seg π) (i : ℕ) : Bool :=
  !(decide (i * g.bs < s.offset) || decide (s.offset + s.len < i * g.bs + g.bs))

/-- `bio_add_page`, when it takes the buffer: the last segment grows or a new one is added. -/
def addSeg (segs : List (Seg π)) (p : π) (offset len : ℕ) : List (Seg π) :=
  match segs.getLast? with
  | none => [⟨p, offset, len⟩]
  | some s =>
      if s.page = p ∧ s.offset + s.len = offset then
        segs.dropLast ++ [{ s with len := s.len + len }]
      else segs ++ [⟨p, offset, len⟩]

/-- The buffer is not written: `!buffer_dirty(bh) || buffer_delay(bh) || …`. -/
def Buf.skipped (b : Buf) : Bool := !b.dirty || b.delay || !b.mapped || b.unwritten

/-- The buffer is to be written. -/
def eligible (g : Geometry) (len : ℕ) (bufs : ℕ → Buf) (i : ℕ) : Bool :=
  decide (i * g.bs < len) && !(bufs i).skipped

/-- What the first loop does to a buffer. -/
def Buf.mark (g : Geometry) (len i : ℕ) (b : Buf) : Buf :=
  if len ≤ i * g.bs then { b with dirty := false, uptodate := true }
  else if b.skipped then (if !b.mapped then { b with dirty := false } else b)
  else { b with new := false, asyncWrite := true }

namespace Page

variable (pg : Page κ)

def setBuf (i : ℕ) (f : Buf → Buf) : Page κ :=
  { pg with bufs := Function.update pg.bufs i (f (pg.bufs i)) }

def setJob (j : Option (Job κ)) : Page κ := { pg with job := j }

def async (i : ℕ) : Bool := (pg.bufs i).asyncWrite

/-- `under_io`, as the loop of `ext4_finish_bio` counts it. -/
def underIo (g : Geometry) (s : Seg π) : ℕ :=
  (List.range g.nb).countP fun i => !s.covers g i && pg.async i

/-- The buffers of the segment are no longer in flight. -/
def clearSeg (g : Geometry) (s : Seg π) : Page κ :=
  { pg with
    bufs := fun i =>
      if i < g.nb ∧ s.covers g i then { pg.bufs i with asyncWrite := false } else pg.bufs i }

end Page

namespace Job

/-- What follows the first loop. -/
def afterMark (j : Job κ) : Phase :=
  if j.encrypted && decide (0 < j.toSubmit) then .encrypt else .submit

/-- `bh = bh->b_this_page` in the first loop. -/
def nextMark (g : Geometry) (j : Job κ) : Job κ :=
  if j.cur + 1 < g.nb then { j with cur := j.cur + 1 }
  else { j with phase := j.afterMark, cur := 0 }

/-- `bh = bh->b_this_page` in the other two. -/
def next (g : Geometry) (j : Job κ) : Job κ :=
  if j.cur + 1 < g.nb then { j with cur := j.cur + 1 } else { j with phase := .unlock }

end Job

namespace World

variable (w : World π κ)

def setPage (p : π) (pg : Page κ) : World π κ := { w with pages := Function.update w.pages p pg }

def setPass (k : κ) (ps : Pass) : World π κ := { w with passes := Function.update w.passes k ps }

/-- `ext4_io_submit` -/
def send (k : κ) : World π κ :=
  match (w.passes k).bio with
  | none => w
  | some b =>
      { w.setPass k { w.passes k with bio := none } with
        bios := w.bios.modify b fun x => { x with sent := true } }

/-- `end_page_writeback` -/
def endPageWriteback (p : π) : World π κ :=
  { w.setPage p { w.pages p with writeback := false } with
    bug := w.bug || !(w.pages p).writeback }

end World

/-- What the block layer and the encryption layer answer, where they are asked. -/
inductive Answer where
  | ok
  /-- `bio_add_page` does not take the buffer. -/
  | refused
  | fail (err : ℤ)

/-- The first loop. -/
def markStep (g : Geometry) (w : World π κ) (p : π) (j : Job κ) : World π κ :=
  let pg := w.pages p
  let w₁ := if decide (j.cur * g.bs < j.len) && (pg.bufs j.cur).skipped then w.send j.owner else w
  let j₁ := { j with toSubmit := j.toSubmit + if eligible g j.len pg.bufs j.cur then 1 else 0 }
  w₁.setPage p ((pg.setBuf j.cur (Buf.mark g j.len j.cur)).setJob (some (j₁.nextMark g)))

/-- `out`: the page is dirty again, and the flags from `bh` on are cleared. -/
def fail (w : World π κ) (p : π) (j : Job κ) (cur : ℕ) (ret : ℤ) : World π κ :=
  w.setPage p
    (({ w.pages p with dirty := true } : Page κ).setJob
      (some { j with phase := .clean, cur := cur, ret := ret }))

/-- `fscrypt_encrypt_page`; with `WB_SYNC_ALL`, `-ENOMEM` is tried again. -/
def encryptStep (w : World π κ) (p : π) (j : Job κ) : Answer → Option (World π κ)
  | .fail err =>
      if 0 ≤ err then none
      else if err = -12 ∧ j.syncAll then some (w.send j.owner)
      else some (fail w p j 0 err)
  | _ => some (w.setPage p ((w.pages p).setJob (some { j with phase := .submit, cur := 0 })))

/-- `bio_add_page` takes the buffer. -/
def putBuf (g : Geometry) (w : World π κ) (p : π) (j : Job κ) (b : ℕ) (x : Bio π) : World π κ :=
  let ps := w.passes j.owner
  let j₁ := { j.next g with submitted := j.submitted + 1, put := j.put ++ [j.cur] }
  { (w.setPass j.owner { ps with nextBlock := ps.nextBlock + 1 }).setPage p
      (((w.pages p).setBuf j.cur fun bh => { bh with dirty := false }).setJob (some j₁)) with
    bios := w.bios.set b { x with segs := addSeg x.segs p (j.cur * g.bs) g.bs } }

/-- The second loop, with `io_submit_add_bh`: a bio that the buffer does not continue, or that
is full, is submitted; if there is none, one is allocated; the buffer is put into it. -/
def submitStep (g : Geometry) (w : World π κ) (p : π) (j : Job κ) (a : Answer) :
    Option (World π κ) :=
  let pg := w.pages p
  let ps := w.passes j.owner
  if pg.async j.cur = false then some (w.setPage p (pg.setJob (some (j.next g))))
  else
    match ps.bio, a with
    | none, .fail _ => some (fail w p j j.cur (-12))
    | none, _ =>
        some
          { w.setPass j.owner
              { ps with bio := some w.bios.length, nextBlock := (pg.bufs j.cur).blocknr } with
            bios := w.bios ++ [⟨[], false, none, none⟩] }
    | some _, .refused => some (w.send j.owner)
    | some b, _ =>
        if ps.nextBlock ≠ (pg.bufs j.cur).blocknr then some (w.send j.owner)
        else (w.bios[b]?).map (putBuf g w p j b)

/-- The loop after `out`. -/
def cleanStep (g : Geometry) (w : World π κ) (p : π) (j : Job κ) : World π κ :=
  w.setPage p
    (((w.pages p).setBuf j.cur fun b => { b with asyncWrite := false }).setJob (some (j.next g)))

/-- The call returns. -/
def leave (w : World π κ) (p : π) (j : Job κ) : World π κ :=
  (w.setPage p ((w.pages p).setJob none)).setPass j.owner
    { w.passes j.owner with busy := false }

/-- `unlock_page`; the call returns unless it has submitted nothing. -/
def unlockStep (w : World π κ) (p : π) (j : Job κ) : World π κ :=
  let w₁ := w.setPage p
    (({ w.pages p with locked := false } : Page κ).setJob (some { j with phase := .last }))
  if j.submitted = 0 then w₁ else leave w₁ p j

/-- One step of `ext4_bio_write_page`. -/
def jobStep (g : Geometry) (w : World π κ) (p : π) (j : Job κ) (a : Answer) :
    Option (World π κ) :=
  match j.phase with
  | .mark => some (markStep g w p j)
  | .encrypt => encryptStep w p j a
  | .submit => submitStep g w p j a
  | .clean => some (cleanStep g w p j)
  | .unlock => some (unlockStep w p j)
  | .last => some (leave (w.endPageWriteback p) p j)

/-- The call starts: the caller has locked the page and waited for its writeback. -/
def start (w : World π κ) (k : κ) (p : π) (len : ℕ) (encrypted syncAll : Bool) : World π κ :=
  let pg := w.pages p
  (w.setPage p
    { pg with
      locked := true
      writeback := true
      error := false
      job := some ⟨k, len, encrypted, syncAll, .mark, 0, 0, 0, 0, pg.bufs, []⟩ }).setPass k
    { w.passes k with busy := true }

/-- `ext4_finish_bio` for one segment, up to the end of the critical section. -/
def finishSeg (g : Geometry) (w : World π κ) (b : ℕ) (x : Bio π) (err : Bool) (s : Seg π)
    (rest : List (Seg π)) : World π κ :=
  let pg := w.pages s.page
  { w.setPage s.page { pg.clearSeg g s with error := pg.error || err } with
    bios := w.bios.set b
      { x with segs := rest, ending := if pg.underIo g s = 0 then some s.page else none } }

inductive Act (π κ : Type*) where
  /-- `ext4_bio_write_page` is called. -/
  | start (k : κ) (p : π) (len : ℕ) (encrypted syncAll : Bool)
  | job (p : π) (a : Answer)
  /-- `ext4_io_submit` in the caller -/
  | submit (k : κ)
  /-- The device completes a bio. -/
  | complete (b : ℕ) (err : Bool)
  | finish (b : ℕ)
  | endPage (b : ℕ)
  /-- Buffers of an unlocked page are dirtied, mapped and so on. -/
  | touch (p : π) (bufs : ℕ → Buf)

def step (g : Geometry) (w : World π κ) : Act π κ → Option (World π κ)
  | .start k p len encrypted syncAll =>
      if (w.pages p).locked || (w.pages p).writeback || (w.passes k).busy then none
      else some (start w k p len encrypted syncAll)
  | .job p a => (w.pages p).job.bind fun j => jobStep g w p j a
  | .submit k => if (w.passes k).busy then none else some (w.send k)
  | .complete b err =>
      (w.bios[b]?).bind fun x =>
        if x.sent && x.status.isNone then
          some { w with bios := w.bios.set b { x with status := some err } }
        else none
  | .finish b =>
      (w.bios[b]?).bind fun x =>
        match x.status, x.ending, x.segs with
        | some err, none, s :: rest => some (finishSeg g w b x err s rest)
        | _, _, _ => none
  | .endPage b =>
      (w.bios[b]?).bind fun x =>
        x.ending.map fun p =>
          { w.endPageWriteback p with bios := w.bios.set b { x with ending := none } }
  | .touch p bufs =>
      if (w.pages p).locked then none
      else
        some (w.setPage p
          { w.pages p with
            bufs := fun i => { bufs i with asyncWrite := (w.pages p).async i } })

/-- Nothing under writeback, no bio. -/
def init (bufs : π → ℕ → Buf) : World π κ where
  pages p := ⟨fun i => { bufs p i with asyncWrite := false }, false, false, false, false, none⟩
  bios := []
  passes _ := ⟨none, 0, false⟩
  bug := false

end Model

variable {π κ : Type*} {g : Geometry}

/-! ### Segments -/

section Segments

/-- The segment consists of whole buffers of its page. -/
def Seg.Aligned (g : Geometry) (s : Seg π) : Prop :=
  ∃ a n, 0 < n ∧ a + n ≤ g.nb ∧ s.offset = a * g.bs ∧ s.len = n * g.bs

/-- On whole buffers, the test in bytes is one on their numbers. -/
theorem covers_blocks (p : π) (a n i : ℕ) :
    Seg.covers g ⟨p, a * g.bs, n * g.bs⟩ i = true ↔ a ≤ i ∧ i < a + n := by
  have hlo : i * g.bs < a * g.bs ↔ i < a := Nat.mul_lt_mul_right g.bs_pos
  have hhi : a * g.bs + n * g.bs < i * g.bs + g.bs ↔ a + n < i + 1 := by
    rw [← Nat.add_mul, ← Nat.succ_mul]
    exact Nat.mul_lt_mul_right g.bs_pos
  simp only [Seg.covers, Bool.not_eq_true', Bool.or_eq_false_iff, decide_eq_false_iff_not,
    hlo, hhi]
  omega

theorem Seg.Aligned.covers_lt {s : Seg π} (h : s.Aligned g) {i : ℕ} (hi : s.covers g i = true) :
    i < g.nb := by
  obtain ⟨a, n, -, hle, hoff, hlen⟩ := h
  obtain ⟨q, off, len⟩ := s
  obtain rfl : off = a * g.bs := hoff
  obtain rfl : len = n * g.bs := hlen
  have := (covers_blocks q a n i).mp hi
  omega

/-- A segment is not empty. -/
theorem Seg.Aligned.covers_some {s : Seg π} (h : s.Aligned g) : ∃ i, s.covers g i = true := by
  obtain ⟨a, n, hn, -, hoff, hlen⟩ := h
  obtain ⟨q, off, len⟩ := s
  obtain rfl : off = a * g.bs := hoff
  obtain rfl : len = n * g.bs := hlen
  exact ⟨a, (covers_blocks q a n a).mpr (by omega)⟩

variable [DecidableEq π]

/-- The segment covers buffer `i` of page `q`. -/
def Seg.on (g : Geometry) (q : π) (i : ℕ) (s : Seg π) : Bool := decide (s.page = q) && s.covers g i

/-- The segment of one buffer. -/
theorem countP_single (p q : π) (cur i : ℕ) :
    [(⟨p, cur * g.bs, g.bs⟩ : Seg π)].countP (Seg.on g q i) =
      if q = p ∧ i = cur then 1 else 0 := by
  have h := covers_blocks (g := g) p cur 1 i
  rw [Nat.one_mul] at h
  have hi : cur ≤ i ∧ i < cur + 1 ↔ i = cur := by omega
  simp only [List.countP_singleton, Seg.on, Bool.and_eq_true, decide_eq_true_eq, h, hi,
    eq_comm (a := p)]

/-- A segment that grows by the buffer after it. -/
theorem countP_grown {s : Seg π} (hs : s.Aligned g) {cur : ℕ}
    (hcur : s.offset + s.len = cur * g.bs) (q : π) (i : ℕ) :
    [{ s with len := s.len + g.bs }].countP (Seg.on g q i) =
      [s].countP (Seg.on g q i) + if q = s.page ∧ i = cur then 1 else 0 := by
  obtain ⟨a, n, hn, -, hoff, hlen⟩ := hs
  obtain ⟨r, off, len⟩ := s
  obtain rfl : off = a * g.bs := hoff
  obtain rfl : len = n * g.bs := hlen
  obtain rfl : a + n = cur := by
    rw [← Nat.add_mul] at hcur
    exact Nat.eq_of_mul_eq_mul_right g.bs_pos hcur
  have hgrown : Seg.covers g ⟨r, a * g.bs, n * g.bs + g.bs⟩ i = true ↔
      a ≤ i ∧ i < a + (n + 1) := by
    rw [← covers_blocks (g := g) r a (n + 1) i, Nat.succ_mul]
  simp only [List.countP_singleton, Seg.on, Bool.and_eq_true, decide_eq_true_eq,
    covers_blocks, hgrown, eq_comm (a := r)]
  by_cases hq : q = r
  · -- the old segment ends where the buffer begins
    simp only [hq, true_and]
    split_ifs <;> omega
  · simp [hq]

/-- Adding a buffer adds it once, and nothing else, whether the last segment grows or not. -/
theorem countP_addSeg {segs : List (Seg π)} (hsegs : ∀ s ∈ segs, s.Aligned g) (p q : π)
    (cur i : ℕ) :
    (addSeg segs p (cur * g.bs) g.bs).countP (Seg.on g q i) =
      segs.countP (Seg.on g q i) + if q = p ∧ i = cur then 1 else 0 := by
  rcases List.eq_nil_or_concat segs with rfl | ⟨init, s, rfl⟩
  · exact (countP_single p q cur i).trans (Nat.zero_add _).symm
  · simp only [addSeg, List.concat_eq_append, List.getLast?_concat, List.dropLast_concat]
    by_cases hmerge : s.page = p ∧ s.offset + s.len = cur * g.bs
    · obtain ⟨rfl, hcur⟩ := hmerge
      rw [if_pos ⟨rfl, hcur⟩, List.countP_append, List.countP_append,
        countP_grown (hsegs s (by simp)) hcur, Nat.add_assoc]
    · rw [if_neg hmerge, List.countP_append, countP_single]

theorem aligned_addSeg {segs : List (Seg π)} (hsegs : ∀ s ∈ segs, s.Aligned g) (p : π) {cur : ℕ}
    (hcur : cur < g.nb) : ∀ s ∈ addSeg segs p (cur * g.bs) g.bs, s.Aligned g := by
  have hnew : Seg.Aligned g (⟨p, cur * g.bs, g.bs⟩ : Seg π) :=
    ⟨cur, 1, Nat.one_pos, hcur, rfl, (Nat.one_mul _).symm⟩
  rcases List.eq_nil_or_concat segs with rfl | ⟨init, s, rfl⟩
  · exact List.forall_mem_singleton.mpr hnew
  · simp only [addSeg, List.concat_eq_append, List.getLast?_concat, List.dropLast_concat]
    have hs := hsegs s (by simp)
    by_cases hmerge : s.page = p ∧ s.offset + s.len = cur * g.bs
    · rw [if_pos hmerge]
      intro t ht
      rcases List.mem_append.mp ht with ht | ht
      · exact hsegs t (by simp [ht])
      · obtain rfl := List.mem_singleton.mp ht
        obtain ⟨a, n, hn, -, hoff, hlen⟩ := hs
        have hlast : a + n = cur := by
          have h := hmerge.2
          rw [hoff, hlen, ← Nat.add_mul] at h
          exact Nat.eq_of_mul_eq_mul_right g.bs_pos h
        refine ⟨a, n + 1, Nat.succ_pos n, by omega, hoff, ?_⟩
        show s.len + g.bs = (n + 1) * g.bs
        rw [hlen, Nat.succ_mul]
    · rw [if_neg hmerge]
      intro t ht
      rcases List.mem_append.mp ht with ht | ht
      · exact hsegs t (by simpa using ht)
      · obtain rfl := List.mem_singleton.mp ht
        exact hnew

end Segments

end CcNvme.PageWriteback

/-
CcNvme/PageIo.lean

`mqfs/page-io.c`: buffers are collected in a bio as long as their blocks follow one another
and the bio has space, and `ext4_io_submit` sends it, through `stream_submit_bio_ipu` if
`io->overwrite` is set and through `submit_bio` if not.  The flag is set when a buffer with
`buffer_overwrite` is looked at, before it is known to fit, and only `ext4_io_submit_init`
clears it.

So a bio is routed by all buffers looked at so far, and not by those it contains.  Which buffers
are looked at, which are taken and where a bio is sent follows from the calls and the results of
`bio_add_page` and `bio_alloc` alone: `pageEvents`.  `bio_routed_by_own_buffers_iff` says for
which of these sequences every bio is routed by its own buffers.
-/
import CcNvme.Lib.Bracket
import CcNvme.Submit
import CcNvme.Lib.Run

namespace CcNvme

/-- `wbc->sync_mode` -/
inductive WbSyncMode where
  | syncNone
  | syncAll
  | orderedAll
  | barrierAll
  | txWrite
  deriving DecidableEq, Repr

/-- A buffer of a page, and its `buffer_overwrite`. -/
structure PageBuffer extends BufferHead where
  overwrite : Bool
  deriving DecidableEq, Repr

/-- `io->io_bio` -/
structure OpenBio where
  dev : BlockDevice
  sector : ℕ
  bufs : List PageBuffer
  deriving DecidableEq, Repr

/-- A bio as it was sent, with the buffers it contains. -/
structure SentBio where
  bio : Bio
  viaIpu : Bool
  bufs : List PageBuffer
  deriving DecidableEq, Repr

/-- `struct ext4_io_submit`, and the bios sent. -/
structure IoSubmit where
  mode : WbSyncMode
  bio : Option OpenBio
  nextBlock : ℕ
  overwrite : Bool
  sent : List SentBio
  deriving DecidableEq, Repr

/-- Does a list of buffers contain one with `buffer_overwrite`? -/
def anyOverwrite (bufs : List PageBuffer) : Bool := bufs.any (·.overwrite)

/-- No flag but those of `REQ_SYNC`. -/
def plainFlags (others : ℕ) : ReqFlags :=
  ⟨false, false, false, false, false, false, others⟩

/-- `io_op_flags`; `reqSync` is the bit `REQ_SYNC`. -/
def ioOpFlags (reqSync : ℕ) (mode : WbSyncMode) (overwrite : Bool) : ReqFlags :=
  let f := plainFlags (if mode = .syncAll then reqSync else 0)
  if overwrite then
    match mode with
    | .txWrite => txSync reqSync
    | .orderedAll => { plainFlags reqSync with ordered := true }
    | .barrierAll => { plainFlags reqSync with barrier := true }
    | _ => f
  else f

namespace IoSubmit

/-- `ext4_io_submit_init` -/
def init (mode : WbSyncMode) : IoSubmit := ⟨mode, none, 0, false, []⟩

/-- `ext4_io_submit` -/
def submit (reqSync : ℕ) (io : IoSubmit) : IoSubmit :=
  match io.bio with
  | none => io
  | some b =>
      { io with
        bio := none
        sent := io.sent ++
          [⟨⟨b.dev, b.sector, (b.bufs.map (·.size)).sum, ioOpFlags reqSync io.mode io.overwrite⟩,
            io.overwrite, b.bufs⟩] }

/-- `io_submit_init_bio`, once `bio_alloc` has succeeded -/
def initBio (io : IoSubmit) (bh : PageBuffer) : IoSubmit :=
  { io with bio := some ⟨bh.dev, bh.blocknr * (bh.size / 512), []⟩, nextBlock := bh.blocknr }

/-- `if (io->io_bio == NULL)` -/
def openBio (io : IoSubmit) (bh : PageBuffer) : IoSubmit :=
  if io.bio.isNone then io.initBio bh else io

/-- `if (buffer_overwrite(bh)) io->overwrite = 1` -/
def look (io : IoSubmit) (bh : PageBuffer) : IoSubmit :=
  { io with overwrite := io.overwrite || bh.overwrite }

/-- `bio_add_page` has taken the buffer. -/
def push (io : IoSubmit) (bh : PageBuffer) : IoSubmit :=
  { io with
    bio := io.bio.map fun b => { b with bufs := b.bufs ++ [bh] }
    nextBlock := io.nextBlock + 1 }

end IoSubmit

/-- What one pass through `io_submit_add_bh` meets: whether `bio_alloc` returns a bio, if it
is called, and whether `bio_add_page` takes the buffer. -/
structure AddPass where
  alloc : Bool
  fits : Bool
  deriving DecidableEq, Repr

/-- `io_submit_add_bh` from `if (io->io_bio == NULL)` on, with the passes that
`goto submit_and_retry` makes; `none` when there are more of them. -/
def addPasses (reqSync : ℕ) (bh : PageBuffer) : List AddPass → IoSubmit → Option (IoSubmit × ℤ)
  | [], _ => none
  | a :: as, io =>
      -- -ENOMEM
      if io.bio.isNone && !a.alloc then some (io, -12)
      else
        let io₁ := (io.openBio bh).look bh
        if a.fits then some (io₁.push bh, 0) else addPasses reqSync bh as (io₁.submit reqSync)

/-- `io_submit_add_bh` -/
def ioSubmitAddBh (reqSync : ℕ) (io : IoSubmit) (bh : PageBuffer) (passes : List AddPass) :
    Option (IoSubmit × ℤ) :=
  addPasses reqSync bh passes
    (if io.bio.isSome && bh.blocknr ≠ io.nextBlock then io.submit reqSync else io)

/-- What a writeback pass does with its `ext4_io_submit`. -/
inductive PageIoOp where
  | add (bh : PageBuffer) (passes : List AddPass)
  /-- a hole, a full encryption pool, the end of the pass -/
  | submit

def PageIoOp.step (reqSync : ℕ) (io : IoSubmit) : PageIoOp → Option IoSubmit
  | .add bh passes => (ioSubmitAddBh reqSync io bh passes).map (·.1)
  | .submit => some (io.submit reqSync)

/-- The bio is routed as a bio with an overwritten buffer, or as one without. -/
def SentBio.RoutedAs (reqSync : ℕ) (mode : WbSyncMode) (s : SentBio) (overwrite : Bool) : Prop :=
  s.viaIpu = overwrite ∧ s.bio.opf = ioOpFlags reqSync mode overwrite

/-! ### What a sequence of calls does -/

/-- A buffer is looked at, the open bio takes one, or it is sent. -/
inductive PageEvent where
  | looked (bh : PageBuffer)
  | taken (bh : PageBuffer)
  | sent
  deriving DecidableEq, Repr

namespace PageEvent

/-- A buffer with `buffer_overwrite` is looked at. -/
def looksFlagged : PageEvent → Bool
  | .looked bh => bh.overwrite
  | _ => false

/-- The bio takes one. -/
def takesFlagged : PageEvent → Bool
  | .taken bh => bh.overwrite
  | _ => false

def isSent : PageEvent → Bool
  | .sent => true
  | _ => false

end PageEvent

/-- What the passes through `io_submit_add_bh` do, and whether a bio is open after them. -/
def passEvents (bh : PageBuffer) : Bool → List AddPass → List PageEvent × Bool
  | isOpen, [] => ([], isOpen)
  | isOpen, a :: as =>
      if !isOpen && !a.alloc then ([], false)
      else if a.fits then ([.looked bh, .taken bh], true)
      else
        let r := passEvents bh false as
        (.looked bh :: .sent :: r.1, r.2)

/-- What a sequence of calls does; `next` is the block that continues the open bio. -/
def pageEvents : Option ℕ → List PageIoOp → List PageEvent
  | _, [] => []
  | next, .submit :: ops => (if next.isSome then [.sent] else []) ++ pageEvents none ops
  | next, .add bh passes :: ops =>
      let r := passEvents bh (next = some bh.blocknr) passes
      (if next.isSome && next ≠ some bh.blocknr then [.sent] else []) ++ r.1 ++
        pageEvents (if r.2 then some (bh.blocknr + 1) else none) ops

/-- What has happened since a bio was sent. -/
def sinceSent (events : List PageEvent) : List PageEvent :=
  Bracket.sinceCloser PageEvent.isSent events

/-- Wherever a bio is sent after a buffer with `buffer_overwrite` has been looked at, be it one
that no longer fitted, the bio has taken such a buffer. -/
def OwnFlagged (events : List PageEvent) : Prop :=
  ∀ k, ∀ _ : k < events.length, events[k] = .sent →
    (events.take k).any PageEvent.looksFlagged = true →
    (sinceSent (events.take k)).any PageEvent.takesFlagged = true

instance decidableOwnFlagged (events : List PageEvent) : Decidable (OwnFlagged events) :=
  inferInstanceAs (Decidable (∀ k, ∀ _ : k < events.length, _))

variable {reqSync : ℕ} {mode : WbSyncMode} {io io' : IoSubmit} {events : List PageEvent}

/-- The condition is decided event by event. -/
theorem ownFlagged_concat (e : PageEvent) :
    OwnFlagged (events ++ [e]) ↔ OwnFlagged events ∧
      (e = .sent → events.any PageEvent.looksFlagged = true →
        (sinceSent events).any PageEvent.takesFlagged = true) := by
  constructor
  · intro h
    refine ⟨fun k hk hsent => ?_, fun hsent => ?_⟩
    · have hk' : k < (events ++ [e]).length := by
        rw [List.length_append]
        omega
      have hat := h k hk' (by rwa [List.getElem_append_left hk])
      rwa [List.take_append_of_le_length hk.le] at hat
    · have hlast := h events.length (by simp) (by simpa using hsent)
      rwa [List.take_left] at hlast
  · rintro ⟨hold, hlast⟩ k hk hsent
    rw [List.length_append, List.length_singleton] at hk
    rcases Nat.lt_succ_iff_lt_or_eq.mp hk with hlt | rfl
    · rw [List.take_append_of_le_length hlt.le]
      rw [List.getElem_append_left hlt] at hsent
      exact hold k hlt hsent
    · rw [List.take_left]
      exact hlast (by simpa using hsent)

theorem sinceSent_concat (e : PageEvent) :
    sinceSent (events ++ [e]) = if e.isSent then [] else e :: sinceSent events :=
  Bracket.sinceCloser_concat events e

/-! ### What routes a bio -/

/-- The block that continues the open bio. -/
def IoSubmit.next (io : IoSubmit) : Option ℕ := if io.bio.isSome then some io.nextBlock else none

/-- The events have led to this state: the flag tells of the buffers looked at, the open bio has
those taken since the last was sent, and the bios sent are routed by their own buffers exactly if
the condition holds. -/
structure Follows (reqSync : ℕ) (mode : WbSyncMode) (events : List PageEvent) (io : IoSubmit) :
    Prop where
  mode_eq : io.mode = mode
  overwrite : io.overwrite = events.any PageEvent.looksFlagged
  filled : (io.bio.elim false fun b => anyOverwrite b.bufs)
    = (sinceSent events).any PageEvent.takesFlagged
  looked : (sinceSent events).any PageEvent.takesFlagged = true →
    events.any PageEvent.looksFlagged = true
  sent : (∀ s ∈ io.sent, s.RoutedAs reqSync mode (anyOverwrite s.bufs)) ↔ OwnFlagged events

namespace Follows

theorem init (reqSync : ℕ) (mode : WbSyncMode) :
    Follows reqSync mode [] (IoSubmit.init mode) := by
  refine ⟨rfl, rfl, rfl, fun h => h, iff_of_true (fun s hs => ?_) fun k hk => ?_⟩
  · cases hs
  · cases hk

/-- The open bio is sent. -/
theorem submit (h : Follows reqSync mode events io) (hbio : io.bio.isSome = true) :
    Follows reqSync mode (events ++ [.sent]) (io.submit reqSync) := by
  obtain ⟨b, hb⟩ := Option.isSome_iff_exists.mp hbio
  have hfilled := h.filled
  rw [hb, Option.elim_some] at hfilled
  unfold IoSubmit.submit
  rw [hb]
  refine ⟨h.mode_eq, ?_, ?_, ?_, ?_⟩
  · simpa [PageEvent.looksFlagged] using h.overwrite
  · rw [sinceSent_concat]
    rfl
  · rw [sinceSent_concat]
    intro htaken
    cases htaken
  · -- the flag routes the bio: it must not be set by other buffers
    have hrouted : SentBio.RoutedAs reqSync mode
        ⟨⟨b.dev, b.sector, (b.bufs.map (·.size)).sum, ioOpFlags reqSync io.mode io.overwrite⟩,
          io.overwrite, b.bufs⟩ (anyOverwrite b.bufs) ↔
        (events.any PageEvent.looksFlagged = true →
          (sinceSent events).any PageEvent.takesFlagged = true) := by
      rw [SentBio.RoutedAs, h.mode_eq, h.overwrite, hfilled]
      constructor
      · rintro ⟨heq, -⟩ hlooked
        exact heq ▸ hlooked
      · intro himp
        have heq : events.any PageEvent.looksFlagged
            = (sinceSent events).any PageEvent.takesFlagged :=
          Bool.eq_iff_iff.mpr ⟨himp, h.looked⟩
        exact ⟨heq, by rw [heq]⟩
    rw [ownFlagged_concat, ← h.sent, List.forall_mem_append, List.forall_mem_singleton, hrouted]
    exact and_congr_right fun _ => ⟨fun himp _ => himp, fun himp => himp rfl⟩

theorem openBio (h : Follows reqSync mode events io) (bh : PageBuffer) :
    Follows reqSync mode events (io.openBio bh) := by
  unfold IoSubmit.openBio
  rcases hb : io.bio with - | b
  · refine ⟨h.mode_eq, h.overwrite, ?_, h.looked, h.sent⟩
    have hfilled := h.filled
    rw [hb] at hfilled
    exact hfilled
  · exact h

theorem look (h : Follows reqSync mode events io) (bh : PageBuffer) :
    Follows reqSync mode (events ++ [.looked bh]) (io.look bh) := by
  have hsince : (sinceSent (events ++ [.looked bh])).any PageEvent.takesFlagged
      = (sinceSent events).any PageEvent.takesFlagged := by
    rw [sinceSent_concat]
    rfl
  have hany : (events ++ [PageEvent.looked bh]).any PageEvent.looksFlagged
      = (events.any PageEvent.looksFlagged || bh.overwrite) := by
    simp [PageEvent.looksFlagged]
  refine ⟨h.mode_eq, ?_, h.filled.trans hsince.symm, fun htaken => ?_, ?_⟩
  · rw [hany, ← h.overwrite]
    rfl
  · rw [hany, h.looked (hsince ▸ htaken), Bool.true_or]
  · rw [ownFlagged_concat, ← h.sent]
    exact ⟨fun hs => ⟨hs, fun hne => by cases hne⟩, fun hs => hs.1⟩

/-- The open bio takes a buffer that has been looked at. -/
theorem push (h : Follows reqSync mode events io) {bh : PageBuffer} (hbio : io.bio.isSome = true)
    (hlooked : bh.overwrite = true → events.any PageEvent.looksFlagged = true) :
    Follows reqSync mode (events ++ [.taken bh]) (io.push bh) := by
  obtain ⟨b, hb⟩ := Option.isSome_iff_exists.mp hbio
  have hfilled := h.filled
  rw [hb, Option.elim_some] at hfilled
  have hsince : (sinceSent (events ++ [.taken bh])).any PageEvent.takesFlagged
      = (bh.overwrite || (sinceSent events).any PageEvent.takesFlagged) := by
    rw [sinceSent_concat]
    rfl
  have hany : (events ++ [PageEvent.taken bh]).any PageEvent.looksFlagged
      = events.any PageEvent.looksFlagged := by
    simp [PageEvent.looksFlagged]
  refine ⟨h.mode_eq, h.overwrite.trans hany.symm, ?_, fun htaken => ?_, ?_⟩
  · rw [hsince, ← hfilled]
    show ((io.bio.map fun b => { b with bufs := b.bufs ++ [bh] }).elim false
      fun b => anyOverwrite b.bufs) = _
    rw [hb, Option.map_some, Option.elim_some, anyOverwrite, List.any_append, Bool.or_comm]
    simp [anyOverwrite]
  · rw [hsince, Bool.or_eq_true] at htaken
    rw [hany]
    exact htaken.elim hlooked h.looked
  · rw [ownFlagged_concat, ← h.sent]
    exact ⟨fun hs => ⟨hs, fun hne => by cases hne⟩, fun hs => hs.1⟩

end Follows

theorem IoSubmit.isSome_openBio (io : IoSubmit) (bh : PageBuffer) :
    (io.openBio bh).bio.isSome = true := by
  unfold IoSubmit.openBio
  split_ifs with hnone
  · rfl
  · exact Option.isSome_iff_ne_none.mpr fun hnil => hnone (by rw [hnil]; rfl)

theorem IoSubmit.nextBlock_openBio {io : IoSubmit} {bh : PageBuffer}
    (hnext : io.bio.isSome = true → io.nextBlock = bh.blocknr) :
    (io.openBio bh).nextBlock = bh.blocknr := by
  unfold IoSubmit.openBio
  split_ifs with hnone
  · rfl
  · exact hnext (Option.isSome_iff_ne_none.mpr fun hnil => hnone (by rw [hnil]; rfl))

theorem IoSubmit.submit_bio (reqSync : ℕ) (io : IoSubmit) : (io.submit reqSync).bio = none := by
  unfold IoSubmit.submit
  rcases hb : io.bio with - | b
  · exact hb
  · rfl

theorem IoSubmit.next_of_none {io : IoSubmit} (hb : io.bio = none) : io.next = none := by
  rw [IoSubmit.next, hb]
  rfl

theorem IoSubmit.next_of_some {io : IoSubmit} {b : OpenBio} (hb : io.bio = some b) :
    io.next = some io.nextBlock := by
  rw [IoSubmit.next, hb]
  rfl

/-- **The passes** of one call, and where they leave the open bio. -/
theorem Follows.addPasses (h : Follows reqSync mode events io) {bh : PageBuffer}
    {passes : List AddPass} {r : IoSubmit × ℤ}
    (hnext : io.bio.isSome = true → io.nextBlock = bh.blocknr)
    (hr : addPasses reqSync bh passes io = some r) :
    Follows reqSync mode (events ++ (passEvents bh io.bio.isSome passes).1) r.1 ∧
      r.1.next
        = if (passEvents bh io.bio.isSome passes).2 then some (bh.blocknr + 1) else none := by
  -- induction on the passes: the next one starts from what this one has sent
  induction passes generalizing io events with
  | nil => cases hr
  | cons a as ih =>
      have hlook := (h.openBio bh).look bh
      have hopen := io.isSome_openBio bh
      unfold CcNvme.addPasses at hr
      dsimp only at hr
      have hnone : io.bio.isNone = !io.bio.isSome := by
        rw [Option.not_isSome]
      rw [hnone] at hr
      rw [passEvents]
      by_cases hmem : (!io.bio.isSome && !a.alloc) = true
      · rw [if_pos hmem] at hr ⊢
        obtain rfl := Option.some.inj hr
        have hclosed : io.bio.isSome = false := by
          simpa using (Bool.and_eq_true_iff.mp hmem).1
        refine ⟨by rwa [List.append_nil], ?_⟩
        rw [IoSubmit.next, hclosed]
        rfl
      rw [if_neg hmem] at hr ⊢
      by_cases hfits : a.fits = true
      · rw [if_pos hfits] at hr ⊢
        obtain rfl := Option.some.inj hr
        have hlooked : bh.overwrite = true →
            (events ++ [PageEvent.looked bh]).any PageEvent.looksFlagged = true := fun hover => by
          simp [PageEvent.looksFlagged, hover]
        have hpush := hlook.push hopen hlooked
        rw [List.append_assoc] at hpush
        refine ⟨hpush, ?_⟩
        have hsome : (((io.openBio bh).look bh).push bh).bio.isSome = true := by
          show ((io.openBio bh).bio.map _).isSome = true
          rw [Option.isSome_map, hopen]
        rw [IoSubmit.next, if_pos hsome, if_pos rfl]
        show some ((io.openBio bh).nextBlock + 1) = _
        rw [IoSubmit.nextBlock_openBio hnext]
      · rw [if_neg hfits] at hr ⊢
        have hsent := hlook.submit hopen
        have hbio := ((io.openBio bh).look bh).submit_bio reqSync
        have hrest := ih hsent (by rw [hbio]; intro hc; cases hc) hr
        rw [hbio, List.append_assoc, List.append_assoc] at hrest
        exact hrest

/-- **One call** does what the events say. -/
theorem Follows.step (h : Follows reqSync mode events io) {op : PageIoOp}
    (hop : op.step reqSync io = some io') (ops : List PageIoOp) :
    ∃ new, pageEvents io.next (op :: ops) = new ++ pageEvents io'.next ops ∧
      Follows reqSync mode (events ++ new) io' := by
  cases op with
  | submit =>
      obtain rfl := Option.some.inj hop
      rw [pageEvents, IoSubmit.next_of_none (io.submit_bio reqSync)]
      refine ⟨_, rfl, ?_⟩
      rcases hb : io.bio with - | b
      · have hsame : io.submit reqSync = io := by
          rw [IoSubmit.submit, hb]
        rw [hsame, IoSubmit.next_of_none hb]
        simpa using h
      · rw [IoSubmit.next_of_some hb]
        exact h.submit (by rw [hb]; rfl)
  | add bh passes =>
      obtain ⟨r, hr, rfl⟩ := Option.map_eq_some_iff.mp hop
      rw [ioSubmitAddBh] at hr
      rw [pageEvents]
      rcases hb : io.bio with - | b
      · -- no bio is open
        rw [hb] at hr
        have hpasses := h.addPasses (by rw [hb]; intro hc; cases hc) hr
        rw [hb] at hpasses
        rw [IoSubmit.next_of_none hb, hpasses.2]
        exact ⟨_, rfl, by simpa using hpasses.1⟩
      · have hopen := IoSubmit.next_of_some hb
        by_cases hgap : bh.blocknr = io.nextBlock
        · -- the buffer continues it
          rw [hb, if_neg (by simp [hgap])] at hr
          have hpasses := h.addPasses (fun _ => hgap.symm) hr
          rw [hb] at hpasses
          rw [hopen, hpasses.2, hgap, decide_eq_true (rfl : some io.nextBlock = some io.nextBlock)]
          refine ⟨_, rfl, ?_⟩
          simpa using hpasses.1
        · -- a gap: it is sent
          rw [hb, if_pos (by simp [hgap])] at hr
          have hbio := io.submit_bio reqSync
          have hsent := h.submit (by rw [hb]; rfl)
          have hpasses := hsent.addPasses (by rw [hbio]; intro hc; cases hc) hr
          rw [hbio] at hpasses
          have hne : ¬ (some io.nextBlock = some bh.blocknr) := fun heq =>
            hgap (Option.some.inj heq).symm
          rw [hopen, hpasses.2, decide_eq_false hne]
          refine ⟨_, rfl, ?_⟩
          simpa [hne, List.append_assoc] using hpasses.1

/-- **A run** does what the events say. -/
theorem Follows.run (h : Follows reqSync mode events io) (ops : List PageIoOp)
    (hrun : Run.run (PageIoOp.step reqSync) io ops = some io') :
    Follows reqSync mode (events ++ pageEvents io.next ops) io' := by
  induction ops generalizing io events with
  | nil =>
      obtain rfl := Option.some.inj hrun
      rwa [pageEvents, List.append_nil]
  | cons op ops ih =>
      obtain ⟨io₁, h₁, hrest⟩ := Run.run_cons_eq_some.mp hrun
      obtain ⟨new, heq, hnew⟩ := h.step h₁ ops
      rw [heq, ← List.append_assoc]
      exact ih hnew hrest

/-- A call returns when `bio_add_page` takes the buffer at last. -/
theorem addPasses_isSome (reqSync : ℕ) (bh : PageBuffer) {passes : List AddPass}
    (hfits : ∃ a ∈ passes, a.fits = true) (io : IoSubmit) :
    ∃ r, addPasses reqSync bh passes io = some r := by
  induction passes generalizing io with
  | nil => simp at hfits
  | cons a as ih =>
      unfold addPasses
      dsimp only
      by_cases hmem : (io.bio.isNone && !a.alloc) = true
      · rw [if_pos hmem]
        exact ⟨_, rfl⟩
      · rw [if_neg hmem]
        by_cases ha : a.fits = true
        · rw [if_pos ha]
          exact ⟨_, rfl⟩
        · rw [if_neg ha]
          obtain ⟨a', ha', hfits'⟩ := hfits
          rcases List.mem_cons.mp ha' with rfl | ha'
          · exact absurd hfits' ha
          · exact ih ⟨a', ha', hfits'⟩ _

/-- **Which bios are routed by their own buffers.**  After any calls: every bio sent went
through `stream_submit_bio_ipu`, with the flags of the mode, if and only if it contains an
overwritten buffer, exactly when in the sequence of events that the calls and the results of
`bio_add_page` and `bio_alloc` make, no bio is sent that has taken no overwritten buffer after
one has been looked at. -/
theorem bio_routed_by_own_buffers_iff (reqSync : ℕ) (mode : WbSyncMode) {ops : List PageIoOp}
    (hrun : Run.run (PageIoOp.step reqSync) (IoSubmit.init mode) ops
      = some io) :
    (∀ s ∈ io.sent, s.RoutedAs reqSync mode (anyOverwrite s.bufs)) ↔
      OwnFlagged (pageEvents none ops) :=
  ((Follows.init reqSync mode).run ops hrun).sent

/-- A page-sized buffer of block `n`. -/
def pageBuffer (n : ℕ) (overwrite : Bool) : PageBuffer := ⟨⟨⟨0, 1⟩, n, 4096, 0⟩, overwrite⟩

/-- The buffer fits. -/
def takes (n : ℕ) (overwrite : Bool) : PageIoOp := .add (pageBuffer n overwrite) [⟨true, true⟩]

/-- A fresh block and, elsewhere, an overwritten one. -/
def freshFirst : List PageIoOp := [takes 10 false, takes 20 true, .submit]

theorem fresh_first_routed :
    ∃ io, Run.run (PageIoOp.step 0) (IoSubmit.init .txWrite) freshFirst
        = some io ∧ io.sent.length = 2 ∧
      ∀ s ∈ io.sent, s.RoutedAs 0 .txWrite (anyOverwrite s.bufs) := by
  obtain ⟨io, hio⟩ : ∃ io, Run.run (PageIoOp.step 0) (IoSubmit.init .txWrite)
      freshFirst = some io := ⟨_, rfl⟩
  refine ⟨io, hio, ?_, (bio_routed_by_own_buffers_iff 0 .txWrite hio).mpr ?_⟩
  · obtain rfl := Option.some.inj hio
    decide
  · obtain rfl := Option.some.inj hio
    decide

/-- An overwritten block and, elsewhere, a fresh one: the bio of the fresh block goes through
`stream_submit_bio_ipu` as a transaction's write.  So does the bio of a fresh block that is
full when an overwritten one follows. -/
theorem fresh_block_routed_as_overwritten :
    ((Run.run (PageIoOp.step 0) (IoSubmit.init .txWrite)
        [takes 10 true, takes 20 false, .submit]).map fun io =>
          io.sent.map fun s => (s.viaIpu, s.bio.opf, anyOverwrite s.bufs))
      = some [(true, txSync 0, true), (true, txSync 0, false)] ∧
    ((Run.run (PageIoOp.step 0) (IoSubmit.init .txWrite)
        [takes 10 false, .add (pageBuffer 11 true) [⟨true, false⟩, ⟨true, true⟩], .submit]).map
          fun io => io.sent.map fun s => (s.viaIpu, s.bio.opf, anyOverwrite s.bufs))
      = some [(true, txSync 0, false), (true, txSync 0, true)] := by
  decide +kernel

end CcNvme

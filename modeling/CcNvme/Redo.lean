/-
CcNvme/Redo.lean

The journal as a redo log.  `stream_submit_bio_ipu` sends a write to the journal
instead of its target and remembers the target in the ring; after a crash
`crash_recovery_commit_write` copies the journal blocks to the target that the
entry names.  `redo_reproduces_writes` says that the two compose to the write
that was asked for: replaying the entries recorded for a list of writes leaves the
home device as the writes themselves would have.

Devices are block stores.  A write is recorded together with the request that
was really sent, so that what stands in the journal is derived from that request
and not assumed.  Between the allocation of the journal blocks and the insertion
of the entry, and between two writes, other operations of the stream may run.
-/
import Mathlib.Data.List.Pairwise
import CcNvme.RingLog
import CcNvme.Recovery
import CcNvme.Lib.Overlay
import CcNvme.Lib.Bump

namespace CcNvme

open Bump (Extent)

/-! ### A stream in use -/

/-- What every operation of a stream keeps: its cursors, and a journal pointer inside
the partition. -/
structure Usable (P : Params) (sid : ℕ) (s : Stream) : Prop where
  cursors : ∃ H F T, Cursors P s H F T
  le_end : s.jWritePtr ≤ P.offInJournal sid + P.nrJournalBlock

variable {P : Params} {fuel sid : ℕ}

theorem usable_init (mem : ℕ → Ometa) (lastTxid : ℕ) :
    Usable P sid (initStream P mem lastTxid sid) :=
  ⟨⟨0, 0, 0, cursors_zero rfl rfl rfl rfl⟩, Nat.le_add_right _ _⟩

theorem Usable.retire {s : Stream} (h : Usable P sid s) : Usable P sid (s.retire P sid) := by
  obtain ⟨H, F, T, hcur⟩ := h.cursors
  exact ⟨⟨F, F, T, hcur.retire sid⟩, Nat.le_add_right _ _⟩

theorem Usable.makeRoom {s : Stream} (h : Usable P sid s) : Usable P sid (s.makeRoom P sid) := by
  unfold Stream.makeRoom
  split_ifs
  · exact h
  · obtain ⟨H, F, T, hcur⟩ := h.cursors
    exact ⟨⟨T, T, T, hcur.retireAll⟩, h.le_end⟩
  · exact h.retire

/-- An accepted allocation takes blocks of the partition. -/
theorem Usable.alloc {s : Stream} (h : Usable P sid s) (hsid : sid < P.nrStreams) {nr : ℕ}
    (hnr : nr ≤ P.nrJournalBlock) :
    (s.allocRoom P sid nr).jWritePtr + nr ≤ P.offInJournal sid + P.nrJournalBlock ∧
      Usable P sid (s.alloc P sid nr) := by
  have hfit := s.allocRoom_add_le hsid hnr
  obtain ⟨H, F, T, hcur⟩ := h.cursors
  obtain ⟨H', -, hcur'⟩ := hcur.alloc sid nr
  refine ⟨hfit, ⟨H', F, T, hcur'⟩, ?_⟩
  rw [Stream.alloc, if_neg (by omega)]
  exact hfit

/-- A submit returns the slot it has filled. -/
theorem Usable.submit {o : Olayer} (h : Usable P sid (o.stream sid)) (hN : 2 ≤ P.nrOmeta)
    (hfuel : 2 ≤ fuel) (bc : BufferCache) (a : SubmitArgs) :
    ∃ o' slot old committed, streamSubmitBioCore P bc sid a fuel o = some (o', slot) ∧
      (o'.stream sid).ometa slot = fillOmeta old committed a ∧ Usable P sid (o'.stream sid) := by
  obtain ⟨H, F, T, hcur⟩ := h.cursors
  obtain ⟨o₁, hck, hcore⟩ := streamSubmitBioCore_spec bc hN hfuel a hcur
  have hroom : Cursors P (o₁.stream sid) _ _ T := hck.self ▸ hcur.makeRoom sid
  have hspace := roomCounters_window hN hcur.head_le hcur.window
  have hptr : (o₁.stream sid).jWritePtr ≤ P.offInJournal sid + P.nrJournalBlock :=
    hck.self ▸ h.makeRoom.le_end
  refine ⟨_, _, (o₁.stream sid).ometa (T % P.nrOmeta), (o₁.stream sid).committed, hcore, ?_,
    ⟨_, _, _, hroom.publish a hspace⟩, ?_⟩
  · rw [publish_stream]
    exact Function.update_self ..
  · rw [publish_stream]
    exact hptr

/-- **Every operation of the stream returns and keeps it usable.** -/
theorem Usable.runOp {o : Olayer} (h : Usable P sid (o.stream sid)) (hN : 2 ≤ P.nrOmeta)
    (hfuel : 2 ≤ fuel) (hsid : sid < P.nrStreams) (op : RingOp) :
    ∃ o', runOp P fuel sid o op = some o' ∧ Usable P sid (o'.stream sid) := by
  obtain ⟨H, F, T, hcur⟩ := h.cursors
  cases op with
  | submit bc a =>
      obtain ⟨o', slot, -, -, hcore, -, h'⟩ := h.submit hN hfuel bc a
      exact ⟨o', by rw [CcNvme.runOp, hcore, Option.map_some], h'⟩
  | commitTx txid =>
      refine ⟨_, rfl, ⟨H, F, T, hcur.commitTx txid⟩, ?_⟩
      rw [streamCommitTx_stream]
      exact h.le_end
  | flush bdevs =>
      obtain ⟨F', hcur'⟩ := hcur.flush_any hsid bdevs
      refine ⟨_, rfl, ⟨H, F', T, hcur'⟩, ?_⟩
      rw [(flush_stream o hsid bdevs).2.2]
      exact h.le_end
  | wrap bc =>
      obtain ⟨o₁, -, -, hwrap⟩ := journalWrap_spec bc hcur.inRing.head_lt hcur.inRing.flushed_lt
      refine ⟨_, hwrap, ?_⟩
      rw [Olayer.setStream_self]
      exact h.retire
  | reset =>
      refine ⟨_, rfl, ?_⟩
      rw [olayerResetStream, clampSid_of_lt hsid, Olayer.setStream_self]
      exact ⟨⟨0, 0, 0, cursors_zero rfl rfl rfl rfl⟩, h.le_end⟩

theorem Usable.runOps {o : Olayer} (h : Usable P sid (o.stream sid)) (hN : 2 ≤ P.nrOmeta)
    (hfuel : 2 ≤ fuel) (hsid : sid < P.nrStreams) (ops : List RingOp) :
    ∃ o', runOps P fuel sid o ops = some o' ∧ Usable P sid (o'.stream sid) :=
  Run.run_simulation (R := fun (o : Olayer) (_ : Unit) => Usable P sid (o.stream sid))
    (f := fun t _ => t) (t := ()) (fun _ _ op h => h.runOp hN hfuel hsid op) h ops

/-! ### One journaled write -/

/-- `stream_submit_bio_ipu` for a write that takes the journal: the allocation, then the
operations `between` of other threads, then the insertion of the entry and the request.
Returned are the request sent and the entry recorded as well. -/
def journaledWrite (P : Params) (fuel sid : ℕ) (bc bc' : BufferCache) (o : Olayer) (b : Bio)
    (between : List RingOp) : Option (Olayer × Bio × Ometa) :=
  (journalWriteAlloc P bc o sid { b with opf := ipuOpf b.opf }).bind fun r =>
    (runOps P fuel sid r.1 between).bind fun o₁ =>
      (streamSubmitBioCore P bc' sid
        ⟨horaeGetLba b, horaeGetSecs b, b.dev.diskMinor, r.2.2, txFlag b.opf⟩ fuel o₁).map
        fun q => (submitBio q.1 r.2.1, r.2.1, (q.1.stream sid).ometa q.2)

/-- Without operations of others it is the source's function. -/
theorem streamSubmitBioIpu_eq_journaledWrite (bc : BufferCache) (hsid : sid < P.nrStreams)
    (o : Olayer) {b : Bio} (hb : horaePath b.opf = true) :
    streamSubmitBioIpu P bc fuel o b sid true
      = (journaledWrite P fuel sid bc bc o b []).map (·.1) := by
  simp only [streamSubmitBioIpu, clampSid_of_lt hsid, hb, Bool.not_true, Bool.false_eq_true,
    if_false, Bool.or_true, if_true, Nat.not_lt_zero, journaledWrite, runOps, Run.run_nil,
    Option.bind_some]
  rcases journalWriteAlloc P bc o sid { b with opf := ipuOpf b.opf } with - | r
  · rfl
  · simp only [Option.bind_some, Option.map_map]
    rfl

/-- An accepted allocation redirects the request to the blocks it returns. -/
theorem journalWriteAlloc_accepted (bc : BufferCache) {o : Olayer} (b : Bio)
    (h : Usable P sid (o.stream sid)) (hnr : horaeGetSecs b ≤ P.nrJournalBlock) :
    ∃ o', journalWriteAlloc P bc o sid b
        = some (o', redirect P b ((o.stream sid).allocRoom P sid (horaeGetSecs b)).jWritePtr,
            ((o.stream sid).allocRoom P sid (horaeGetSecs b)).jWritePtr % 2 ^ 32) ∧
      o'.stream sid = (o.stream sid).alloc P sid (horaeGetSecs b) := by
  obtain ⟨H, F, T, hcur⟩ := h.cursors
  obtain ⟨o', h', hof⟩ := allocSpace_spec bc hcur.inRing.head_lt hcur.inRing.flushed_lt
    (Nat.not_lt.mpr hnr)
  have hidx := sameQueues_indexBlocks (P := P) (o'.stream sid).lastTxid (horaeGetSecs b)
    (horaeGetLba b) ((o.stream sid).allocRoom P sid (horaeGetSecs b)).jWritePtr o'
  unfold journalWriteAlloc
  simp only [if_neg (Nat.not_lt.mpr hnr), h', Option.map_some]
  exact ⟨_, rfl, (congrFun hidx.stream sid).trans hof.self⟩

/-- **A journaled write** records its target, and is sent to the journal blocks that the
entry names. -/
theorem journaledWrite_spec (bc bc' : BufferCache) {o : Olayer} {b : Bio}
    (h : Usable P sid (o.stream sid)) (hN : 2 ≤ P.nrOmeta) (hfuel : 2 ≤ fuel)
    (hsid : sid < P.nrStreams) (hnr : horaeGetSecs b ≤ P.nrJournalBlock)
    (between : List RingOp) :
    ∃ o' e, journaledWrite P fuel sid bc bc' o b between
        = some (o', redirect P { b with opf := ipuOpf b.opf } e.plba, e) ∧
      e.lba = horaeGetLba b % 2 ^ 64 ∧ e.length = horaeGetSecs b % 2 ^ 16 ∧
      Usable P sid (o'.stream sid) := by
  obtain ⟨hfit, hu⟩ := h.alloc hsid hnr
  obtain ⟨o₁, halloc, hs₁⟩ :=
    journalWriteAlloc_accepted bc { b with opf := ipuOpf b.opf } h hnr
  have hsecs : horaeGetSecs { b with opf := ipuOpf b.opf } = horaeGetSecs b := rfl
  rw [hsecs] at halloc hs₁
  rw [← hs₁] at hu
  obtain ⟨o₂, hbetween, hu₂⟩ := hu.runOps hN hfuel hsid between
  have hlt := P.offInJournal_add_lt hsid
  generalize ((o.stream sid).allocRoom P sid (horaeGetSecs b)).jWritePtr = ptr at halloc hfit
  have hptr : ptr % 2 ^ 32 = ptr := Nat.mod_eq_of_lt (by omega)
  obtain ⟨o₃, slot, old, committed, hcore, hslot, hu₃⟩ := hu₂.submit hN hfuel bc'
    ⟨horaeGetLba b, horaeGetSecs b, b.dev.diskMinor, ptr % 2 ^ 32, txFlag b.opf⟩
  refine ⟨submitBio o₃ (redirect P { b with opf := ipuOpf b.opf } ptr),
    (o₃.stream sid).ometa slot, ?_, ?_, ?_, hu₃⟩
  · have hplba : ((o₃.stream sid).ometa slot).plba = ptr := by
      rw [hslot]
      simp only [fillOmeta, hptr]
    rw [journaledWrite, halloc, Option.bind_some, hbetween, Option.bind_some, hcore,
      Option.map_some, hplba]
  · rw [hslot, fillOmeta]
  · rw [hslot, fillOmeta]

/-! ### Devices -/

/-- The blocks of every device. -/
abbrev Disks (α : Type*) := BlockDevice → ℕ → α

variable {α : Type*}

/-- The blocks of the request `b`. -/
def Bio.extent (b : Bio) : Extent := ⟨horaeGetLba b, horaeGetSecs b⟩

/-- The request `b` carried out: its `i`-th block gets the contents `data i`. -/
def Bio.apply (b : Bio) (data : ℕ → α) (d : Disks α) : Disks α :=
  Function.update d b.dev fun k =>
    if b.extent.start ≤ k ∧ k < b.extent.start + b.extent.length then data (k - b.extent.start)
    else d b.dev k

/-- `crash_recovery_commit_write(e, bd)` on the devices. -/
def replayEntry (P : Params) (bd : BlockDevice) (d : Disks α) (e : Ometa) : Disks α :=
  Function.update d bd (crashRecoveryCommitWrite (d P.cpDev) (d bd) e)

/-- A write, the request sent for it and the entry recorded for it. -/
structure JournaledWrite (α : Type*) where
  bio : Bio
  data : ℕ → α
  sent : Bio
  entry : Ometa

/-- The journal extent recorded for the write. -/
def JournaledWrite.extent (w : JournaledWrite α) : Extent := ⟨w.entry.plba, w.entry.length⟩

/-- The devices after the requests `f w` of all writes. -/
def image (f : JournaledWrite α → Bio) (d : Disks α) (ws : List (JournaledWrite α)) : Disks α :=
  ws.foldl (fun d w => (f w).apply w.data d) d

/-- A write to whole blocks of the device `bd`, 1 to 256 of them, that takes the journal
path and fits the stream's partition. -/
structure Bio.Journalable (P : Params) (bd : BlockDevice) (b : Bio) : Prop where
  dev_eq : b.dev = bd
  aligned : b.sector % 8 = 0
  sector_lt : b.sector < 2 ^ 64
  whole : b.size % 4096 = 0
  pos : 1 ≤ horaeGetSecs b
  le_max : horaeGetSecs b ≤ 256
  path : horaePath b.opf = true
  accepted : horaeGetSecs b ≤ P.nrJournalBlock

/-- The entry names the target of the write and the journal blocks it was sent to. -/
structure JournaledWrite.Ok (P : Params) (bd : BlockDevice) (w : JournaledWrite α) : Prop where
  journalable : w.bio.Journalable P bd
  lba_eq : w.entry.lba = horaeGetLba w.bio
  length_eq : w.entry.length = horaeGetSecs w.bio
  sent_dev : w.sent.dev = P.cpDev
  sent_extent : w.sent.extent = w.extent

/-- Nothing has overwritten the journal blocks of the writes: their extents are disjoint
and hold on `d` what they held when all requests were carried out from `d₀`; and if the
target is the journal device, replaying does not reach them either. -/
structure JournalIntact (P : Params) (bd : BlockDevice) (d₀ d : Disks α)
    (ws : List (JournaledWrite α)) : Prop where
  disjoint : ws.Pairwise fun w w' => w.extent.Disjoint w'.extent
  kept : ∀ w ∈ ws, ∀ k, w.extent.Covers k →
    d P.cpDev k = image JournaledWrite.sent d₀ ws P.cpDev k
  apart : bd = P.cpDev → ∀ w ∈ ws, ∀ w' ∈ ws, w.bio.extent.Disjoint w'.extent

/-! ### What stands in the journal -/

theorem image_dev {f : JournaledWrite α → Bio} {dev : BlockDevice} {ws : List (JournaledWrite α)}
    (h : ∀ w ∈ ws, (f w).dev = dev) (d : Disks α) :
    image f d ws dev = ws.foldl (Overlay.write
      (fun w k => decide ((f w).extent.start ≤ k ∧ k < (f w).extent.start + (f w).extent.length))
      fun w k => w.data (k - (f w).extent.start)) (d dev) := by
  induction ws generalizing d with
  | nil => rfl
  | cons w ws ih =>
      have hw := h w List.mem_cons_self
      have ih' := ih (fun w' hw' => h w' (List.mem_cons_of_mem _ hw')) ((f w).apply w.data d)
      rw [List.foldl_cons]
      refine ih'.trans (congrArg (List.foldl _ · ws) ?_)
      funext k
      rw [Bio.apply, hw, Function.update_self, Overlay.write]
      simp only [decide_eq_true_eq]

/-- Disjoint requests all leave their contents. -/
theorem image_sent {bd : BlockDevice} {ws : List (JournaledWrite α)}
    (hok : ∀ w ∈ ws, w.Ok P bd) (hdisj : ws.Pairwise fun w w' => w.extent.Disjoint w'.extent)
    (d : Disks α) {w : JournaledWrite α} (hw : w ∈ ws) {k : ℕ} (hk : w.extent.Covers k) :
    image JournaledWrite.sent d ws P.cpDev k = w.data (k - w.extent.start) := by
  rw [image_dev fun w' hw' => (hok w' hw').sent_dev]
  have hcov : ∀ w' ∈ ws, decide (w'.sent.extent.start ≤ k ∧
      k < w'.sent.extent.start + w'.sent.extent.length) = true ↔ w'.extent.Covers k := by
    intro w' hw'
    rw [(hok w' hw').sent_extent, decide_eq_true_eq]
    rfl
  rw [Overlay.foldl_write_of_only _ _ hw ((hcov w hw).mpr hk), (hok w hw).sent_extent]
  intro w' hw' hk'
  by_contra hne
  have : Std.Symm fun w w' : JournaledWrite α => w.extent.Disjoint w'.extent :=
    ⟨fun _ _ h => h.symm⟩
  exact hdisj.forall hw' hw hne k ⟨(hcov w' hw').mp hk', hk⟩

/-! ### Replaying -/

/-- An entry whose journal blocks hold the contents of its write is replayed as the
write itself. -/
theorem replayEntry_eq {bd : BlockDevice} {w : JournaledWrite α} (hok : w.Ok P bd)
    (hbelow : w.extent.start + w.extent.length ≤ 2 ^ 29) {d d' : Disks α} (hd : d bd = d' bd)
    (hdata : ∀ k, w.extent.Covers k → d P.cpDev k = w.data (k - w.extent.start)) :
    replayEntry P bd d w.entry bd = w.bio.apply w.data d' bd := by
  have hb := hok.journalable
  have halign := hb.aligned
  have hlt := hb.sector_lt
  have hmax := hb.le_max
  -- the three conversions lose nothing
  have hdst : w.entry.lba * 8 % 2 ^ 64 / 8 = w.bio.extent.start := by
    rw [hok.lba_eq]
    show w.bio.sector / 8 * 8 % 2 ^ 64 / 8 = w.bio.sector / 8
    omega
  have hlen : min w.entry.length 256 = w.bio.extent.length := by
    rw [hok.length_eq]
    exact Nat.min_eq_left hmax
  have hext : w.extent.length = w.bio.extent.length := hok.length_eq
  have hsrc : w.entry.plba * 8 % 2 ^ 32 / 8 = w.extent.start := by
    have hpos : 1 ≤ w.bio.extent.length := hb.pos
    show w.entry.plba * 8 % 2 ^ 32 / 8 = w.entry.plba
    have hstart : w.extent.start = w.entry.plba := rfl
    omega
  funext k
  rw [replayEntry, Function.update_self, Bio.apply, hb.dev_eq, Function.update_self,
    crashRecoveryCommitWrite, hdst, hlen, hsrc]
  dsimp only
  split_ifs with hk
  · rw [hdata _ ⟨Nat.le_add_right _ _, by omega⟩, Nat.add_sub_cancel_left]
  · rw [hd]

/-- Replaying one entry leaves the journal blocks of the others alone. -/
theorem replayEntry_journal {bd : BlockDevice} {w : JournaledWrite α} (hok : w.Ok P bd)
    (d : Disks α) {k : ℕ} (hk : bd = P.cpDev → ¬ w.bio.extent.Covers k) :
    replayEntry P bd d w.entry P.cpDev k = d P.cpDev k := by
  have halign := hok.journalable.aligned
  have hlt := hok.journalable.sector_lt
  have hmax := hok.journalable.le_max
  unfold replayEntry
  by_cases hbd : P.cpDev = bd
  · rw [← hbd, Function.update_self, crashRecoveryCommitWrite, hok.lba_eq, hok.length_eq]
    dsimp only
    rw [if_neg]
    intro hc
    refine hk hbd.symm ⟨?_, ?_⟩
    · show w.bio.sector / 8 ≤ k
      have : horaeGetLba w.bio = w.bio.sector / 8 := rfl
      omega
    · show k < w.bio.sector / 8 + horaeGetSecs w.bio
      have : horaeGetLba w.bio = w.bio.sector / 8 := rfl
      omega
  · rw [Function.update_of_ne hbd]

/-- By induction on the entries still to be replayed: the home devices agree, and the
journal blocks of these entries still hold their contents. -/
theorem replay_eq_image {bd : BlockDevice} {ws : List (JournaledWrite α)}
    (hok : ∀ w ∈ ws, w.Ok P bd) (hbelow : ∀ w ∈ ws, w.extent.start + w.extent.length ≤ 2 ^ 29)
    (hapart : bd = P.cpDev → ∀ w ∈ ws, ∀ w' ∈ ws, w.bio.extent.Disjoint w'.extent)
    {d d' : Disks α} (hd : d bd = d' bd)
    (hdata : ∀ w ∈ ws, ∀ k, w.extent.Covers k → d P.cpDev k = w.data (k - w.extent.start)) :
    (ws.map JournaledWrite.entry).foldl (replayEntry P bd) d bd
      = image JournaledWrite.bio d' ws bd := by
  induction ws generalizing d d' with
  | nil => exact hd
  | cons w ws ih =>
      have hw := List.mem_cons_self (a := w) (l := ws)
      have hmem : ∀ w' ∈ ws, w' ∈ w :: ws := fun _ h => List.mem_cons_of_mem _ h
      refine ih (fun w' h => hok w' (hmem w' h)) (fun w' h => hbelow w' (hmem w' h))
        (fun hbd w₁ h₁ w₂ h₂ => hapart hbd w₁ (hmem w₁ h₁) w₂ (hmem w₂ h₂))
        (replayEntry_eq (hok w hw) (hbelow w hw) hd (hdata w hw)) fun w' hw' k hk => ?_
      rw [replayEntry_journal (hok w hw) d fun hbd hc =>
        hapart hbd w hw w' (hmem w' hw') k ⟨hc, hk⟩]
      exact hdata w' (hmem w' hw') k hk

/-! ### Whole runs -/

/-- The module, and the writes journaled so far. -/
structure RedoState (α : Type*) where
  o : Olayer
  log : List (JournaledWrite α)

inductive RedoOp (α : Type*) where
  /-- any other operation of the stream -/
  | ring (op : RingOp)
  /-- a write, with what other threads do between its allocation and its insertion -/
  | write (bc bc' : BufferCache) (b : Bio) (data : ℕ → α) (between : List RingOp)

def RedoState.step (P : Params) (fuel sid : ℕ) (st : RedoState α) :
    RedoOp α → Option (RedoState α)
  | .ring op => (runOp P fuel sid st.o op).map fun o => { st with o := o }
  | .write bc bc' b data between =>
      (journaledWrite P fuel sid bc bc' st.o b between).map fun r =>
        ⟨r.1, st.log ++ [⟨b, data, r.2.1, r.2.2⟩]⟩

/-- The writes of a run. -/
def RedoOp.write? : RedoOp α → Option (Bio × (ℕ → α))
  | .ring _ => none
  | .write _ _ b data _ => some (b, data)

structure RedoInv (P : Params) (sid : ℕ) (bd : BlockDevice) (st : RedoState α) : Prop where
  usable : Usable P sid (st.o.stream sid)
  ok : ∀ w ∈ st.log, w.Ok P bd

/-- **One operation** returns, and a write is recorded as it was asked for. -/
theorem redo_step {bd : BlockDevice} {st : RedoState α} (h : RedoInv P sid bd st)
    (hN : 2 ≤ P.nrOmeta) (hfuel : 2 ≤ fuel) (hsid : sid < P.nrStreams) {op : RedoOp α}
    (hop : ∀ w ∈ op.write?, w.1.Journalable P bd) :
    ∃ st', st.step P fuel sid op = some st' ∧ RedoInv P sid bd st' ∧
      st'.log.map (fun w => (w.bio, w.data))
        = st.log.map (fun w => (w.bio, w.data)) ++ op.write?.toList := by
  cases op with
  | ring op =>
      obtain ⟨o', hrun, hu⟩ := h.usable.runOp hN hfuel hsid op
      refine ⟨{ st with o := o' }, ?_, ⟨hu, h.ok⟩, (List.append_nil _).symm⟩
      rw [RedoState.step, hrun, Option.map_some]
  | write bc bc' b data between =>
      have hb : b.Journalable P bd := hop (b, data) rfl
      obtain ⟨o', e, hwrite, hlba, hlen, hu⟩ :=
        journaledWrite_spec bc bc' h.usable hN hfuel hsid hb.accepted between
      refine ⟨⟨o', st.log ++ [⟨b, data, redirect P { b with opf := ipuOpf b.opf } e.plba, e⟩]⟩,
        ?_, ⟨hu, ?_⟩, List.map_append⟩
      · rw [RedoState.step, hwrite, Option.map_some]
      · intro w hw
        rcases List.mem_append.mp hw with hw | hw
        · exact h.ok w hw
        · obtain rfl := List.mem_singleton.mp hw
          have hlt : horaeGetLba b < 2 ^ 64 :=
            (Nat.div_le_self _ _).trans_lt hb.sector_lt
          have hmax := hb.le_max
          rw [Nat.mod_eq_of_lt hlt] at hlba
          rw [Nat.mod_eq_of_lt (by omega)] at hlen
          refine ⟨hb, hlba, hlen, rfl, ?_⟩
          show Extent.mk (e.plba * 8 / 8) (horaeGetSecs b) = ⟨e.plba, e.length⟩
          rw [Nat.mul_div_cancel _ (by decide), hlen]

theorem redo_run {bd : BlockDevice} {st : RedoState α} (h : RedoInv P sid bd st)
    (hN : 2 ≤ P.nrOmeta) (hfuel : 2 ≤ fuel) (hsid : sid < P.nrStreams) {ops : List (RedoOp α)}
    (hops : ∀ w ∈ ops.filterMap RedoOp.write?, w.1.Journalable P bd) :
    ∃ st', Run.run (RedoState.step P fuel sid) st ops = some st' ∧ RedoInv P sid bd st' ∧
      st'.log.map (fun w => (w.bio, w.data))
        = st.log.map (fun w => (w.bio, w.data)) ++ ops.filterMap RedoOp.write? := by
  induction ops generalizing st with
  | nil => exact ⟨st, rfl, h, (List.append_nil _).symm⟩
  | cons op ops ih =>
      have hcons : (op :: ops).filterMap RedoOp.write?
          = op.write?.toList ++ ops.filterMap RedoOp.write? := by
        rcases e : op.write? with - | w
        · rw [List.filterMap_cons_none e]
          rfl
        · rw [List.filterMap_cons_some e]
          rfl
      rw [hcons] at hops ⊢
      obtain ⟨st₁, hstep, h₁, hlog₁⟩ := redo_step h hN hfuel hsid
        fun w hw => hops w (List.mem_append_left _ (Option.mem_toList.mpr hw))
      obtain ⟨st₂, hrun, h₂, hlog₂⟩ := ih h₁ fun w hw => hops w (List.mem_append_right _ hw)
      refine ⟨st₂, Run.run_cons_eq_some.mpr ⟨st₁, hstep, hrun⟩, h₂, ?_⟩
      rw [hlog₂, hlog₁, List.append_assoc]

/-- **Redo reproduces the writes.**  Whatever else happens on the stream, every write is
recorded; and when the journal blocks recorded for the writes are disjoint, intact and
below `2 ^ 29`, replaying the recorded entries in order leaves the home device as the
writes themselves would have. -/
theorem redo_reproduces_writes (P : Params) {fuel sid : ℕ} (hN : 2 ≤ P.nrOmeta)
    (hfuel : 2 ≤ fuel) (hsid : sid < P.nrStreams) (bd : BlockDevice) {o : Olayer}
    (ho : Usable P sid (o.stream sid)) (ops : List (RedoOp α))
    (hops : ∀ w ∈ ops.filterMap RedoOp.write?, w.1.Journalable P bd) :
    ∃ st, Run.run (RedoState.step P fuel sid) ⟨o, []⟩ ops = some st ∧
      st.log.map (fun w => (w.bio, w.data)) = ops.filterMap RedoOp.write? ∧
      ∀ d₀ d : Disks α, JournalIntact P bd d₀ d st.log →
        (∀ w ∈ st.log, w.extent.start + w.extent.length ≤ 2 ^ 29) →
        (st.log.map JournaledWrite.entry).foldl (replayEntry P bd) d bd
          = image JournaledWrite.bio d st.log bd := by
  have hinit : RedoInv P sid bd (⟨o, []⟩ : RedoState α) :=
    ⟨ho, fun w hw => absurd hw List.not_mem_nil⟩
  obtain ⟨st, hrun, hinv, hlog⟩ := redo_run hinit hN hfuel hsid hops
  refine ⟨st, hrun, hlog, fun d₀ d hint hbelow => ?_⟩
  refine replay_eq_image hinv.ok hbelow hint.apart rfl fun w hw k hk => ?_
  rw [hint.kept w hw k hk, image_sent hinv.ok hint.disjoint d₀ hw hk]

/-- Two writes of stream 5 that overlap in block 11, with a flush before the second and a
commit between its allocation and its insertion. -/
def overlappingWrites : List (RedoOp ℕ) :=
  [.write (fun _ _ => .noMem) (fun _ _ => .noMem) (pages 10 2) (fun i => 100 + i) [],
    .ring (.flush [⟨0, 1⟩]),
    .write (fun _ _ => .noMem) (fun _ _ => .noMem) (pages 11 1) (fun i => 200 + i) [.commitTx 1]]

theorem overlappingWrites_extents :
    (Run.run (RedoState.step Params.tiny 2 5) ⟨tinyLoaded, []⟩ overlappingWrites).map
      (fun st => st.log.map JournaledWrite.extent) = some [⟨20, 2⟩, ⟨22, 1⟩] := by
  decide +kernel

theorem redo_reproduces_writes_overlappingWrites :
    Usable Params.tiny 5 (tinyLoaded.stream 5) ∧
    ∃ st, Run.run (RedoState.step Params.tiny 2 5) ⟨tinyLoaded, []⟩ overlappingWrites = some st ∧
      ∀ d : Disks ℕ, JournalIntact Params.tiny ⟨0, 1⟩ d
          (image JournaledWrite.sent d st.log) st.log ∧
        (st.log.map JournaledWrite.entry).foldl (replayEntry Params.tiny ⟨0, 1⟩)
            (image JournaledWrite.sent d st.log) ⟨0, 1⟩
          = image JournaledWrite.bio (image JournaledWrite.sent d st.log) st.log ⟨0, 1⟩ := by
  have hu : Usable Params.tiny 5 (tinyLoaded.stream 5) := usable_init _ _
  have hops : ∀ w ∈ overlappingWrites.filterMap RedoOp.write?,
      w.1.Journalable Params.tiny ⟨0, 1⟩ := by
    intro w hw
    rcases List.mem_pair.mp hw with rfl | rfl
    all_goals exact ⟨by decide, by decide, by decide, by decide, by decide, by decide,
      by decide, by decide⟩
  obtain ⟨st, hrun, -, hredo⟩ := redo_reproduces_writes Params.tiny (by decide) le_rfl (by decide)
    ⟨0, 1⟩ hu overlappingWrites hops
  have hext : st.log.map JournaledWrite.extent = [⟨20, 2⟩, ⟨22, 1⟩] := by
    have h := overlappingWrites_extents
    rw [hrun, Option.map_some, Option.some.injEq] at h
    exact h
  have hint : ∀ d : Disks ℕ, JournalIntact Params.tiny ⟨0, 1⟩ d
      (image JournaledWrite.sent d st.log) st.log := by
    refine fun d => ⟨?_, fun _ _ _ _ => rfl, fun hbd => absurd hbd (by decide)⟩
    rw [← List.pairwise_map, hext]
    decide
  refine ⟨hu, st, hrun, fun d => ⟨hint d, hredo d _ (hint d) fun w hw => ?_⟩⟩
  have hw' := hext ▸ List.mem_map_of_mem (f := JournaledWrite.extent) hw
  rcases List.mem_pair.mp hw' with h | h
  all_goals rw [h]; decide

end CcNvme

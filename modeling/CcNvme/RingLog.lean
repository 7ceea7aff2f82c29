/-
CcNvme/RingLog.lean

The ring as an append-only log.  `QueueLog n` is what a stream is for, said
without slots: a list of records that only grows, and a window `[H, T)` of
live records with a flushed mark `F` inside it, never longer than `n - 1`.
The bounds are fields, so every operation of the log has to keep them.

`Refines` is the abstraction relation, `refines_step` the simulation of one
operation, and `ring_refines_append_only_log` the statement about whole runs
of one stream: every call returns, the circular cursors are the counters
modulo `nr_ometa`, and the live slots hold what the corresponding submits
wrote.
-/
import Mathlib.Data.List.Induction
import CcNvme.Cursors
import CcNvme.Lib.Run

namespace CcNvme

/-! ### The operations of one stream -/

/-- One sequential operation on a stream.  The write-backs inside it see the
buffer cache it carries. -/
inductive RingOp where
  | submit (bc : BufferCache) (a : SubmitArgs)
  | commitTx (txid : ℕ)
  | flush (bdevs : List BlockDevice)
  | wrap (bc : BufferCache)
  | reset

/-- Whether the operation is `olayer_reset_stream`. -/
def RingOp.isReset : RingOp → Bool
  | .reset => true
  | _ => false

/-- Run one operation on stream `sid`. -/
def runOp (P : Params) (fuel sid : ℕ) (o : Olayer) : RingOp → Option Olayer
  | .submit bc a => (streamSubmitBioCore P bc sid a fuel o).map Prod.fst
  | .commitTx txid => some (streamCommitTx o sid txid)
  | .flush bdevs => some (streamBlkdevIssueFlush P o bdevs sid)
  | .wrap bc => journalWrap P bc o sid
  | .reset => some (olayerResetStream P o sid)

/-- Run a list of operations on stream `sid`. -/
def runOps (P : Params) (fuel sid : ℕ) (o : Olayer) (ops : List RingOp) : Option Olayer :=
  Run.run (runOp P fuel sid) o ops

/-- What a submit stores in its slot, `txid` aside. -/
structure LogRecord where
  deviceId : ℕ
  lba : ℕ
  length : ℕ
  plba : ℕ
  tag : BitVec 3
  deriving DecidableEq, Repr

def Ometa.record (e : Ometa) : LogRecord := ⟨e.deviceId, e.lba, e.length, e.plba, e.tag⟩

/-- The record written by a submit that finds the given `committed` flag. -/
def SubmitArgs.record (committed : Bool) (a : SubmitArgs) : LogRecord :=
  ⟨a.deviceId % 2 ^ 8, a.lba % 2 ^ 64, a.nrPages % 2 ^ 16, a.plba % 2 ^ 32,
    submitTag committed a.flags⟩

/-- The `committed` flag and the records written since the last reset. -/
def written : List RingOp → Bool × List LogRecord :=
  List.foldl (fun w op =>
    match op with
    | .submit _ a => (submitCommitted w.1 a.flags, w.2 ++ [a.record w.1])
    | .commitTx _ => (true, w.2)
    | .reset => (false, [])
    | _ => w) (false, [])

/-! ### The append-only log -/

/-- An append-only log whose live window is shorter than `n`. -/
structure QueueLog (n : ℕ) where
  entries : List LogRecord
  committed : Bool
  H : ℕ
  F : ℕ
  head_le : H ≤ F
  flushed_le : F ≤ entries.length
  window : entries.length < H + n

namespace QueueLog

variable {n : ℕ}

/-- The number of records ever appended. -/
def T (g : QueueLog n) : ℕ := g.entries.length

/-- Nothing written yet. -/
def empty (hn : 2 ≤ n) : QueueLog n where
  entries := []
  committed := false
  H := 0
  F := 0
  head_le := le_rfl
  flushed_le := le_rfl
  window := by simp only [List.length_nil]; omega

/-- Append a record, giving up old ones when the window is full. -/
def append (hn : 2 ≤ n) (g : QueueLog n) (a : SubmitArgs) : QueueLog n where
  entries := g.entries ++ [a.record g.committed]
  committed := submitCommitted g.committed a.flags
  H := (roomCounters n g.H g.F g.T).1
  F := (roomCounters n g.H g.F g.T).2
  head_le := (roomCounters_le g.head_le g.flushed_le).2.2.1
  flushed_le := by
    have := (roomCounters_le (n := n) g.head_le g.flushed_le).2.2.2
    simp only [List.length_append, List.length_singleton]
    unfold T
    omega
  window := by
    have := roomCounters_window hn g.head_le g.window
    simp only [List.length_append, List.length_singleton]
    exact this

/-- Everything appended so far is flushed. -/
def flush (g : QueueLog n) : QueueLog n where
  entries := g.entries
  committed := g.committed
  H := g.H
  F := g.T
  head_le := g.head_le.trans g.flushed_le
  flushed_le := le_rfl
  window := g.window

/-- The flushed records are given up. -/
def truncate (g : QueueLog n) : QueueLog n where
  entries := g.entries
  committed := g.committed
  H := g.F
  F := g.F
  head_le := le_rfl
  flushed_le := g.flushed_le
  window := by have := g.window; have := g.head_le; omega

/-- The effect of one operation. -/
def step (hn : 2 ≤ n) (g : QueueLog n) : RingOp → QueueLog n
  | .submit _ a => g.append hn a
  | .commitTx _ => { g with committed := true }
  | .flush bdevs => if bdevs.length = 0 then g else g.flush
  | .wrap _ => g.truncate
  | .reset => empty hn

/-- The log after a list of operations. -/
def after (hn : 2 ≤ n) (ops : List RingOp) : QueueLog n := ops.foldl (step hn) (empty hn)

/-- Between resets the counters never go back. -/
theorem step_mono (hn : 2 ≤ n) (g : QueueLog n) {op : RingOp} (hop : op.isReset = false) :
    g.H ≤ (g.step hn op).H ∧ g.F ≤ (g.step hn op).F ∧ g.T ≤ (g.step hn op).T := by
  have hroom := roomCounters_le (n := n) g.head_le g.flushed_le
  rcases op with ⟨bc, a⟩ | txid | bdevs | bc | -
  · exact ⟨hroom.1, hroom.2.1, by simp [T, step, append]⟩
  · exact ⟨le_rfl, le_rfl, le_rfl⟩
  · by_cases hb : bdevs.length = 0
    · simp only [step, if_pos hb, le_refl, and_self]
    · simp only [step, if_neg hb, flush]
      exact ⟨le_rfl, g.flushed_le, le_rfl⟩
  · exact ⟨g.head_le, le_rfl, le_rfl⟩
  · cases hop

/-- The log's records are those written since the last reset. -/
theorem after_written (hn : 2 ≤ n) (ops : List RingOp) :
    ((after hn ops).committed, (after hn ops).entries) = written ops := by
  unfold after written
  induction ops using List.reverseRecOn with
  | nil => rfl
  | append_singleton ops op ih =>
      simp only [List.foldl_append, List.foldl_cons, List.foldl_nil, ← ih]
      rcases op with ⟨bc, a⟩ | txid | bdevs | bc | -
      · rfl
      · rfl
      · by_cases hb : bdevs.length = 0
        · simp only [step, if_pos hb]
        · simp only [step, if_neg hb]
          rfl
      · rfl
      · rfl

end QueueLog

/-! ### The abstraction relation -/

variable {P : Params}

/-- Stream `sid` holds the live window of the log in its ring. -/
structure Refines (P : Params) (s : Stream) (g : QueueLog P.nrOmeta) : Prop where
  cursors : Cursors P s g.H g.F g.T
  committed : s.committed = g.committed
  slots : ∀ i, g.H ≤ i → ∀ hi : i < g.T,
    (s.ometa (i % P.nrOmeta)).record = g.entries.get ⟨i, hi⟩

theorem record_fillOmeta (old : Ometa) (committed : Bool) (a : SubmitArgs) :
    (fillOmeta old committed a).record = a.record committed := rfl

/-- Publishing an entry, after the checkpoint it may need, appends its record. -/
theorem refines_publish {bc : BufferCache} {o o₁ : Olayer} {sid : ℕ} (hN : 2 ≤ P.nrOmeta)
    {g : QueueLog P.nrOmeta} (h : Refines P (o.stream sid) g) (a : SubmitArgs)
    (hck : CheckpointOf P bc sid o o₁) :
    Refines P ((publish P o₁ sid a (g.T % P.nrOmeta) ((g.T + 1) % P.nrOmeta)).stream sid)
      (g.append hN a) := by
  have hs₁ := hck.self
  have hcur₁ := hs₁ ▸ h.cursors.makeRoom sid
  have hroom := roomCounters_le (n := P.nrOmeta) g.head_le g.flushed_le
  have hwin := roomCounters_window hN g.head_le g.window
  have hT : (g.append hN a).T = g.T + 1 := by simp [QueueLog.T, QueueLog.append]
  refine ⟨?_, ?_, ?_⟩
  · rw [hT]
    exact hcur₁.publish a hwin
  · rw [publish_stream]
    simp only [hs₁, Stream.makeRoom_committed, h.committed]
    rfl
  · intro i hi hiT
    have hiH : g.H ≤ i := hroom.1.trans hi
    rw [publish_stream]
    simp only [hs₁, Stream.makeRoom_ometa, Stream.makeRoom_committed]
    by_cases hlast : i = g.T
    · -- the slot just filled
      subst hlast
      rw [Function.update_self, record_fillOmeta, h.committed]
      simp [QueueLog.append, QueueLog.T]
    · -- an older live slot keeps its record
      have hiT' : i < g.T := by omega
      rw [Function.update_of_ne (h.cursors.tail_not_live hiH hiT'), h.slots i hiH hiT']
      simp only [QueueLog.append, List.get_eq_getElem]
      exact (List.getElem_append_left hiT').symm

theorem refines_submit {bc : BufferCache} {o : Olayer} {sid fuel : ℕ} (hN : 2 ≤ P.nrOmeta)
    (hfuel : 2 ≤ fuel) {g : QueueLog P.nrOmeta} (h : Refines P (o.stream sid) g)
    (a : SubmitArgs) :
    ∃ o', runOp P fuel sid o (.submit bc a) = some o' ∧
      Refines P (o'.stream sid) (g.append hN a) := by
  obtain ⟨o₁, hck, hcore⟩ := streamSubmitBioCore_spec bc hN hfuel a h.cursors
  exact ⟨_, by rw [runOp, hcore, Option.map_some], refines_publish hN h a hck⟩

theorem refines_commitTx {o : Olayer} {sid : ℕ} {g : QueueLog P.nrOmeta}
    (h : Refines P (o.stream sid) g) (txid : ℕ) :
    Refines P ((streamCommitTx o sid txid).stream sid) { g with committed := true } := by
  refine ⟨h.cursors.commitTx txid, by rw [streamCommitTx_stream], fun i hi hiT => ?_⟩
  rw [h.cursors.commitTx_ometa txid hi hiT]
  exact h.slots i hi hiT

theorem refines_flush {o : Olayer} {sid : ℕ} (hsid : sid < P.nrStreams)
    {g : QueueLog P.nrOmeta} (h : Refines P (o.stream sid) g) (bdevs : List BlockDevice) :
    Refines P ((streamBlkdevIssueFlush P o bdevs sid).stream sid)
      (if bdevs.length = 0 then g else g.flush) := by
  obtain ⟨hometa, hcommitted, -⟩ := flush_stream o hsid bdevs
  by_cases hb : bdevs.length = 0
  · rw [if_pos hb]
    have : streamBlkdevIssueFlush P o bdevs sid = o := by
      simp [streamBlkdevIssueFlush, hb]
    rw [this]
    exact h
  · rw [if_neg hb]
    refine ⟨h.cursors.flush hsid hb, hcommitted.trans h.committed, ?_⟩
    intro i hi hiT
    rw [hometa]
    exact h.slots i hi hiT

theorem Refines.retire {s : Stream} {g : QueueLog P.nrOmeta} (h : Refines P s g) (sid : ℕ) :
    Refines P (s.retire P sid) g.truncate :=
  ⟨h.cursors.retire sid, h.committed, fun i hi hiT => h.slots i (g.head_le.trans hi) hiT⟩

/-- The journal pointer is not part of the ring. -/
theorem Refines.setPtr {s : Stream} {g : QueueLog P.nrOmeta} (h : Refines P s g) (j : ℕ) :
    Refines P { s with jWritePtr := j } g := by
  obtain ⟨⟨h1, h2, h3, h4, h5, h6, h7⟩, hc, hs⟩ := h
  exact ⟨⟨h1, h2, h3, h4, h5, h6, h7⟩, hc, hs⟩

theorem refines_wrap {bc : BufferCache} {o : Olayer} {sid : ℕ} {g : QueueLog P.nrOmeta}
    (h : Refines P (o.stream sid) g) :
    ∃ o', journalWrap P bc o sid = some o' ∧ Refines P (o'.stream sid) g.truncate := by
  obtain ⟨o₁, -, -, hwrap⟩ :=
    journalWrap_spec bc h.cursors.inRing.head_lt h.cursors.inRing.flushed_lt
  refine ⟨_, hwrap, ?_⟩
  rw [Olayer.setStream_self]
  exact h.retire sid

theorem refines_reset (o : Olayer) {sid : ℕ} (hsid : sid < P.nrStreams) (hN : 2 ≤ P.nrOmeta) :
    Refines P ((olayerResetStream P o sid).stream sid) (QueueLog.empty hN) := by
  unfold olayerResetStream
  simp only [clampSid_of_lt hsid, Olayer.setStream_self]
  exact ⟨cursors_zero rfl rfl rfl rfl, rfl, fun i _ hi => absurd hi (Nat.not_lt_zero i)⟩

/-- **Simulation of one operation.** -/
theorem refines_step {o : Olayer} {sid fuel : ℕ} (hN : 2 ≤ P.nrOmeta) (hfuel : 2 ≤ fuel)
    (hsid : sid < P.nrStreams) {g : QueueLog P.nrOmeta} (h : Refines P (o.stream sid) g)
    (op : RingOp) :
    ∃ o', runOp P fuel sid o op = some o' ∧ Refines P (o'.stream sid) (g.step hN op) := by
  rcases op with ⟨bc, a⟩ | txid | bdevs | bc | -
  · exact refines_submit hN hfuel h a
  · exact ⟨_, rfl, refines_commitTx h txid⟩
  · exact ⟨_, rfl, refines_flush hsid h bdevs⟩
  · exact refines_wrap h
  · exact ⟨_, rfl, refines_reset o hsid hN⟩

/-- **Simulation of a run.** -/
theorem refines_run {o : Olayer} {sid fuel : ℕ} (hN : 2 ≤ P.nrOmeta) (hfuel : 2 ≤ fuel)
    (hsid : sid < P.nrStreams) {g : QueueLog P.nrOmeta} (h : Refines P (o.stream sid) g)
    (ops : List RingOp) :
    ∃ o', runOps P fuel sid o ops = some o' ∧
      Refines P (o'.stream sid) (ops.foldl (QueueLog.step hN) g) :=
  Run.run_simulation (R := fun (o : Olayer) g => Refines P (o.stream sid) g)
    (fun _ _ op hr => refines_step hN hfuel hsid hr op) h ops

/-- The live slots, in ring order, hold the live records of the log. -/
theorem Refines.live_records {s : Stream} {g : QueueLog P.nrOmeta} (h : Refines P s g) :
    (slotsOf P s.head s.tail).map (fun x => (s.ometa x).record) = g.entries.drop g.H := by
  have hHT : g.H ≤ g.T := g.head_le.trans g.flushed_le
  rw [h.cursors.head_eq, h.cursors.tail_eq, slotsOf_mod hHT h.cursors.window, List.map_map]
  refine List.ext_getElem (by simp [QueueLog.T]) fun j h₁ h₂ => ?_
  have hj : g.H + j < g.T := by simp at h₁; omega
  simp only [List.getElem_map, List.getElem_range, Function.comp_apply, List.getElem_drop]
  exact h.slots _ (Nat.le_add_right _ _) hj

/-! ### The refinement theorem -/

/-- What a stream shows of an append-only log with counters `H ≤ F ≤ T` and
records `es`. -/
structure LogView (P : Params) (s : Stream) (H F T : ℕ) (es : List LogRecord) : Prop where
  order : H ≤ F ∧ F ≤ T
  window : T - H ≤ P.nrOmeta - 1
  head_eq : s.head = H % P.nrOmeta
  flushed_eq : s.flushed = F % P.nrOmeta
  tail_eq : s.tail = T % P.nrOmeta
  watermark_eq : s.tailWatermark = T % P.nrOmeta
  records : es.length = T
  slots : ∀ i, H ≤ i → i < T → es[i]? = some (s.ometa (i % P.nrOmeta)).record
  count_eq : horaeCount s.head s.tail P.nrOmeta = T - H
  space_eq : horaeRingSpace s.head s.tail P.nrOmeta = P.nrOmeta - 1 - (T - H)
  /-- `size + tail - head` stays inside `u64`. -/
  count_no_wrap : s.head ≤ P.nrOmeta + s.tail ∧ P.nrOmeta + s.tail < 2 ^ 64
  /-- `size + head - tail - 1` stays inside `u64`. -/
  space_no_wrap : s.tail + 1 ≤ P.nrOmeta + s.head ∧ P.nrOmeta + s.head < 2 ^ 64

theorem Refines.logView {s : Stream} {g : QueueLog P.nrOmeta} (h : Refines P s g) :
    LogView P s g.H g.F g.T g.entries := by
  have hring := h.cursors.inRing
  have hlt := P.nrOmeta_lt
  have hh := hring.head_lt
  have ht := hring.tail_lt
  have hw := h.cursors.window
  exact
    { order := ⟨g.head_le, g.flushed_le⟩
      window := by omega
      head_eq := h.cursors.head_eq
      flushed_eq := h.cursors.flushed_eq
      tail_eq := h.cursors.tail_eq
      watermark_eq := h.cursors.watermark_eq
      records := rfl
      slots := fun i hi hiT => by
        rw [h.slots i hi hiT, List.get_eq_getElem]
        exact List.getElem?_eq_getElem hiT
      count_eq := h.cursors.count_eq
      space_eq := h.cursors.space_eq
      count_no_wrap := ⟨by omega, by omega⟩
      space_no_wrap := ⟨by omega, by omega⟩ }

/-- **The ring refines an append-only log.**  From a freshly initialised stream
of at least two slots, every run of operations returns; there are counters,
non-decreasing between resets, under which every state of the run shows the
records written since the last reset. -/
theorem ring_refines_append_only_log (P : Params) (hN : 2 ≤ P.nrOmeta) {sid : ℕ}
    (hsid : sid < P.nrStreams) {fuel : ℕ} (hfuel : 2 ≤ fuel) (o : Olayer) (mem : ℕ → Ometa)
    (lastTxid : ℕ) (ho : o.stream sid = initStream P mem lastTxid sid) (ops : List RingOp) :
    ∃ H F T : ℕ → ℕ,
      (∀ k ≤ ops.length, ∃ o', runOps P fuel sid o (ops.take k) = some o' ∧
        LogView P (o'.stream sid) (H k) (F k) (T k) (written (ops.take k)).2) ∧
      ∀ k, ∀ hk : k < ops.length, (ops.get ⟨k, hk⟩).isReset = false →
        H k ≤ H (k + 1) ∧ F k ≤ F (k + 1) ∧ T k ≤ T (k + 1) := by
  have hinit : Refines P (o.stream sid) (QueueLog.empty hN) := by
    rw [ho]
    exact ⟨cursors_zero rfl rfl rfl rfl, rfl, fun i _ hi => absurd hi (Nat.not_lt_zero i)⟩
  -- the counters are those of the log after `k` operations
  refine ⟨fun k => (QueueLog.after hN (ops.take k)).H, fun k => (QueueLog.after hN (ops.take k)).F,
    fun k => (QueueLog.after hN (ops.take k)).T, ?_, ?_⟩
  · intro k _
    obtain ⟨o', ho', hr⟩ := refines_run hN hfuel hsid hinit (ops.take k)
    refine ⟨o', ho', ?_⟩
    have hes : (written (ops.take k)).2 = (QueueLog.after hN (ops.take k)).entries := by
      rw [← QueueLog.after_written hN]
    rw [hes]
    exact hr.logView
  · intro k hk hop
    have hstep : QueueLog.after hN (ops.take (k + 1))
        = (QueueLog.after hN (ops.take k)).step hN (ops.get ⟨k, hk⟩) := by
      unfold QueueLog.after
      rw [List.take_succ_eq_append_getElem hk, List.foldl_append]
      rfl
    dsimp only
    rw [hstep]
    exact QueueLog.step_mono hN _ hop

/-- A run that fills the ring of the small controller, commits, flushes, and
goes on through a checkpoint, a journal wrap and a reset. -/
def wrappingRun : List RingOp :=
  let bc : BufferCache := fun _ _ => .unlocked
  [.submit bc ⟨10, 1, 0, 0, .tx⟩, .submit bc ⟨11, 1, 0, 1, .tx⟩, .commitTx 7,
    .flush [⟨0, 0⟩], .submit bc ⟨12, 1, 0, 2, .tx⟩, .submit bc ⟨13, 1, 0, 3, .txEnd⟩,
    .wrap bc, .reset, .submit bc ⟨14, 1, 0, 0, .tx⟩]

theorem ring_refines_append_only_log_wrappingRun :
    (2 ≤ Params.tiny.nrOmeta ∧ 5 < Params.tiny.nrStreams) ∧
    ∃ H F T : ℕ → ℕ,
      (∀ k ≤ wrappingRun.length, ∃ o',
        runOps Params.tiny 2 5 (initStreams Params.tiny (fun _ _ => Ometa.zero) (fun _ => 0)
          (fun _ => Ometa.zero)) (wrappingRun.take k) = some o' ∧
        LogView Params.tiny (o'.stream 5) (H k) (F k) (T k) (written (wrappingRun.take k)).2) ∧
      ∀ k, ∀ hk : k < wrappingRun.length, (wrappingRun.get ⟨k, hk⟩).isReset = false →
        H k ≤ H (k + 1) ∧ F k ≤ F (k + 1) ∧ T k ≤ T (k + 1) :=
  ⟨by decide, ring_refines_append_only_log Params.tiny (by decide) (by decide) le_rfl _
    (fun _ => Ometa.zero) 0 rfl wrappingRun⟩

end CcNvme

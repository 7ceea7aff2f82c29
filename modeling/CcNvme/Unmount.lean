/-
CcNvme/Unmount.lean

A clean unmount after `fsync`.  `tx_write_dirty_buffer` sends metadata to the
journal only and leaves its buffer clean, so nobody but the module writes it
home: `commit_write` during the run, or `graceful_shutdown` when the file
system is unmounted.  Both look for a BEGIN and an END tag in `[head, flushed)`,
and the protocol leaves no END tag there (`Fsync`), with or without barriers.
`unmount_submits_iff` draws the conclusion.
-/
import CcNvme.Fsync

namespace CcNvme

/-! ### What the run journals -/

/-- The home blocks a step sends to the journal.  A write that is larger than the
partition is refused and stays in place. -/
def FsOp.journaled (P : Params) : FsOp → List ℕ
  | .buffer reqSync bh => blocks (bh2bio (txSync reqSync) bh)
  | .write b forced => if P.versionConsistency || forced then blocks b.toBio else []
  | _ => []
where
  blocks (b : Bio) : List ℕ :=
    if horaeGetSecs b ≤ P.nrJournalBlock then
      (List.range (horaeGetSecs b)).map (horaeGetLba b + ·)
    else []

/-- The blocks journaled by the open transaction of each stream, and those of the
committed transactions. -/
structure JournaledBlocks where
  pending : ℕ → List ℕ
  committed : List ℕ

def JournaledBlocks.step (P : Params) (g : JournaledBlocks) :
    ℕ × BufferCache × FsOp → JournaledBlocks
  | (sid, _, .commit _) =>
      ⟨Function.update g.pending sid [], g.committed ++ g.pending sid⟩
  | (sid, _, op) =>
      { g with pending := Function.update g.pending sid (g.pending sid ++ op.journaled P) }

/-- The blocks journaled by the committed transactions of a run. -/
def committedBlocks (P : Params) (ops : List (ℕ × BufferCache × FsOp)) : List ℕ :=
  (ops.foldl (JournaledBlocks.step P) ⟨fun _ => [], []⟩).committed

/-! ### The unmount -/

variable {P : Params} {o : Olayer}

/-- `graceful_shutdown` finds nothing to write back in streams without END tags. -/
theorem gracefulShutdown_of_unclosed (bc : BufferCache) {sids : List ℕ} (sb : ℕ)
    (h : ∀ i ∈ sids, Unclosed P o i) : gracefulShutdown P bc o sids sb = some o := by
  have hmem : ∀ i ∈ sids.filter (· < P.nrStreams), i ∈ sids := fun i hi => (List.mem_filter.mp hi).1
  have hplan : gracefulPlan P o sids
      = some (planFrom P (hostView o) none (sids.filter (· < P.nrStreams))) := by
    refine scanStreams_eq (fun i hi => ?_) ScanState.init
    obtain ⟨H, F, T, hcur, -⟩ := h i (hmem i hi)
    exact ⟨hcur.inRing.head_lt, hcur.inRing.flushed_lt⟩
  have hnone : entriesOf (planFrom P (hostView o) none (sids.filter (· < P.nrStreams))) = [] := by
    apply List.eq_nil_iff_forall_not_mem.mpr
    intro p hp
    obtain ⟨hi, q, hk⟩ := mem_entriesOf_planFrom (i := p.1) (k := p.2) hp
    obtain ⟨H, F, T, hcur, hend⟩ := h p.1 (hmem _ hi)
    have hno : ∀ x ∈ (hostView o p.1).slots P, ((hostView o p.1).tags x).isEnd = false := by
      intro x hx
      obtain ⟨i, h₁, h₂, rfl⟩ := hcur.mem_flushed_iff.mp hx
      exact (hend i h₁ (h₂.trans_le hcur.flushed_le)).1
    rw [RingView.handed_of_no_end hno] at hk
    exact absurd hk List.not_mem_nil
  rw [gracefulShutdown, hplan, Option.bind_some, hnone]
  rfl

/-- **Clean unmount.**  Run `fsync` transactions on any number of idle streams, in any
interleaving, with or without flushes, and shut down: every block journaled by a
committed transaction has been submitted to its home location exactly when there is
no such block. -/
theorem unmount_submits_iff (P : Params) (hN : 2 ≤ P.nrOmeta) {fuel : ℕ} (hfuel : 2 ≤ fuel)
    (o : Olayer) (sids : List ℕ) (hsids : ∀ i ∈ sids, i < P.nrStreams ∧ Idle P (o.stream i))
    (ops : List (ℕ × BufferCache × FsOp)) (hops : ∀ x ∈ ops, x.1 ∈ sids) (bc : BufferCache)
    (sb : ℕ) :
    ∃ o' o'', runFsOps P fuel o ops = some o' ∧ gracefulShutdown P bc o' sids sb = some o'' ∧
      ((∀ b ∈ committedBlocks P ops, Request.bh sb b ∈ o''.io.drop o.io.length)
        ↔ committedBlocks P ops = []) := by
  have hstart : ∀ x ∈ ops, x.1 < P.nrStreams ∧ Unclosed P o x.1 := by
    intro x hx
    obtain ⟨hlt, hidle⟩ := hsids _ (hops x hx)
    exact ⟨hlt, hidle.unclosed⟩
  obtain ⟨o', hrun, hkeep, -, new, hio, hnew⟩ := fs_run hN hfuel hstart
  refine ⟨o', o', hrun, gracefulShutdown_of_unclosed bc sb fun i hi =>
    hkeep i (hsids i hi).2.unclosed, ?_⟩
  -- no buffer has been sent, neither by a checkpoint of the run nor by the shutdown
  rw [hio, List.drop_left]
  constructor
  · intro hall
    apply List.eq_nil_iff_forall_not_mem.mpr
    intro b hb
    have := hnew _ (hall b hb)
    cases this
  · intro hnil b hb
    rw [hnil] at hb
    cases hb

/-- An `fsync` of one metadata block on a file system mounted with barriers. -/
def metadataFsync : List (ℕ × BufferCache × FsOp) :=
  let bc : BufferCache := fun _ _ => .unlocked
  [(5, bc, .buffer 0 ⟨⟨0, 1⟩, 10, 4096, 0⟩),
    (5, bc, .descriptor ⟨⟨0, 1⟩, 0, 4096, { txSync 0 with tx := false }⟩), (5, bc, .commit 1),
    (5, bc, .flush [⟨0, 1⟩])]

/-- Block 10 is journaled, committed and flushed; the unmount sends no buffer at all. -/
theorem unmount_submits_nothing :
    committedBlocks Params.tiny metadataFsync = [10] ∧
      (((runFsOps Params.tiny 2 tinyMounted metadataFsync).bind fun o =>
        gracefulShutdown Params.tiny (fun _ _ => .unlocked) o [5] 7).map fun o =>
          o.io.filter Request.isBh) = some [] := by
  decide +kernel

theorem unmount_submits_iff_metadata :
    ∃ o' o'', runFsOps Params.tiny 2 tinyMounted metadataFsync = some o' ∧
      gracefulShutdown Params.tiny (fun _ _ => .unlocked) o' [5] 7 = some o'' ∧
      ((∀ b ∈ committedBlocks Params.tiny metadataFsync,
          Request.bh 7 b ∈ o''.io.drop tinyMounted.io.length)
        ↔ committedBlocks Params.tiny metadataFsync = []) :=
  unmount_submits_iff Params.tiny (by decide) le_rfl tinyMounted [5]
    (fun i hi => by
      obtain rfl := List.mem_singleton.mp hi
      exact ⟨by decide, tinyLoaded_idle 5⟩)
    metadataFsync (by simp [metadataFsync]) _ 7

end CcNvme

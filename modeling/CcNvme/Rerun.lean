/-
CcNvme/Rerun.lean

A recovery that is itself interrupted.  `crash_recovery_commit_write` copies the
blocks of one entry from the journal to the target device, so
`olayer_crash_recovery` as a whole is a list of block copies (`crashCopies`);
the plan of that list is read from the rings, which the copies do not change.
A run cut off after any number of them, followed by a complete run, leaves what
one complete run leaves (`recovery_rerun`): the second run writes again every
block that the first one reached.
-/
import CcNvme.Recovery
import CcNvme.Lib.Overlay

namespace CcNvme

open Overlay

/-! ### Block copies -/

/-- One block of a replay: journal block `src` is copied to block `dst`. -/
structure BlockCopy where
  dst : ℕ
  src : ℕ
  deriving DecidableEq, Repr

def BlockCopy.covers (c : BlockCopy) (b : ℕ) : Bool := c.dst = b

/-- What the copies `cs` make of the device `home`. -/
def copyBlocks {α : Type*} (journal home : ℕ → α) (cs : List BlockCopy) : ℕ → α :=
  cs.foldl (write BlockCopy.covers fun c _ => journal c.src) home

/-- The block copies of `crash_recovery_commit_write`, in ascending order. -/
def Ometa.copies (e : Ometa) : List BlockCopy :=
  (List.range (min e.length 256)).map fun i =>
    ⟨e.lba * 8 % 2 ^ 64 / 8 + i, e.plba * 8 % 2 ^ 32 / 8 + i⟩

variable {α : Type*} (journal home : ℕ → α)

theorem copyBlocks_append (cs ds : List BlockCopy) :
    copyBlocks journal home (cs ++ ds) = copyBlocks journal (copyBlocks journal home cs) ds :=
  List.foldl_append

theorem copyBlocks_singleton (c : BlockCopy) (b : ℕ) :
    copyBlocks journal home [c] b = if c.dst = b then journal c.src else home b := by
  simp [copyBlocks, write, BlockCopy.covers]

theorem copyBlocks_range (dst src n b : ℕ) :
    copyBlocks journal home ((List.range n).map fun i => ⟨dst + i, src + i⟩) b
      = if dst ≤ b ∧ b < dst + n then journal (src + (b - dst)) else home b := by
  induction n with
  | zero =>
      rw [if_neg (by omega)]
      rfl
  | succ n ih =>
      rw [List.range_succ, List.map_append, List.map_singleton, copyBlocks_append,
        copyBlocks_singleton, ih]
      -- the block just copied, or one of those before
      by_cases hb : dst + n = b
      · subst hb
        simp
      · have hiff : dst ≤ b ∧ b < dst + (n + 1) ↔ dst ≤ b ∧ b < dst + n := by omega
        simp only [hb, if_false, hiff]

/-- `crash_recovery_commit_write` makes its block copies. -/
theorem crashRecoveryCommitWrite_eq_copyBlocks (e : Ometa) :
    crashRecoveryCommitWrite journal home e = copyBlocks journal home e.copies := by
  funext b
  rw [Ometa.copies, copyBlocks_range]
  rfl

/-- All block copies of a plan, in the order `olayer_crash_recovery` makes them. -/
def crashCopies (o : Olayer) (plan : List (ℕ × Segment)) : List BlockCopy :=
  (entriesOf plan).flatMap fun p => ((o.stream p.1).ometa p.2).copies

variable (P : Params)

/-- The device when `olayer_crash_recovery` is stopped after `n` block copies. -/
def crashReplayUpTo (o : Olayer) (n : ℕ) : Option (ℕ → α) :=
  (olayerCrashRecovery P o).map fun plan => copyBlocks journal home ((crashCopies o plan).take n)

variable {P}

/-- The complete replay makes all the copies of its plan. -/
theorem crashReplay_eq_copyBlocks (o : Olayer) :
    crashReplay P journal home o
      = (olayerCrashRecovery P o).map fun plan =>
          copyBlocks journal home (crashCopies o plan) := by
  unfold crashReplay crashCopies copyBlocks
  congr 1
  funext plan
  rw [List.foldl_flatMap]
  congr 1
  funext home p
  exact crashRecoveryCommitWrite_eq_copyBlocks journal home _

/-- After some of the copies, making all of them leaves the same device. -/
theorem copyBlocks_take_copyBlocks (cs : List BlockCopy) (n : ℕ) :
    copyBlocks journal (copyBlocks journal home (cs.take n)) cs = copyBlocks journal home cs :=
  foldl_write_absorb _ home fun _ c hc hcov => ⟨c, List.mem_of_mem_take hc, hcov⟩

/-! ### Interrupted recovery -/

/-- **Recovery can be interrupted and rerun.**  Stopped after any number of block
copies and started again on the same rings, it leaves the device that one complete
run leaves; in particular a second complete run changes nothing. -/
theorem recovery_rerun {o : Olayer} (h : ∀ i < P.nrStreams, (crashView P o i).InRing P) :
    ∃ image, crashReplay P journal home o = some image ∧
      (∀ n, ∃ part, crashReplayUpTo journal home P o n = some part ∧
        crashReplay P journal part o = some image) ∧
      crashReplay P journal image o = some image := by
  simp only [crashReplay_eq_copyBlocks, crashReplayUpTo, olayerCrashRecovery_eq h,
    Option.map_some]
  generalize planFrom P (crashView P o) none (List.range P.nrStreams) = plan
  refine ⟨_, rfl, fun n => ⟨_, rfl, ?_⟩, ?_⟩
  · rw [copyBlocks_take_copyBlocks]
  · have htwice := copyBlocks_take_copyBlocks journal home (crashCopies o plan)
      (crashCopies o plan).length
    rw [List.take_length] at htwice
    rw [htwice]

/-- Two streams of the small controller, each with one committed write of two blocks;
the writes share block 11. -/
def overlappingRings : Olayer :=
  let ring (lba plba : ℕ) : ℕ → Ometa := fun
    | 0 => ⟨0, 0, 0, HoraeFlag.txBegin.bit, 0, 0⟩
    | 1 => ⟨lba, 2, 0, HoraeFlag.tx.bit, 0, plba⟩
    | 2 => ⟨0, 0, 0, HoraeFlag.txEnd.bit, 0, 0⟩
    | _ => Ometa.zero
  { tinyLoaded with
    stream := fun i => { tinyLoaded.stream i with
      flushed := if i < 2 then 3 else 0, ometa := ring (10 + i) (20 + 2 * i) }
    cmb := fun c => ring 10 20 (c % 4) }

theorem overlappingRings_inRing (i : ℕ) :
    (crashView Params.tiny overlappingRings i).InRing Params.tiny where
  head_lt := nrOmeta_pos
  flushed_lt := by
    show (if i < 2 then 3 else 0) < 4
    split_ifs <;> decide

theorem recovery_rerun_overlappingRings :
    (∀ i < Params.tiny.nrStreams, (crashView Params.tiny overlappingRings i).InRing Params.tiny) ∧
    ∃ image, crashReplay Params.tiny id (fun _ => 0) overlappingRings = some image ∧
      (∀ n, ∃ part, crashReplayUpTo id (fun _ => 0) Params.tiny overlappingRings n = some part ∧
        crashReplay Params.tiny id part overlappingRings = some image) ∧
      crashReplay Params.tiny id image overlappingRings = some image :=
  ⟨fun i _ => overlappingRings_inRing i,
    recovery_rerun id _ fun i _ => overlappingRings_inRing i⟩

example : (crashReplayUpTo id (fun _ => 0) Params.tiny overlappingRings 3).map
    (fun d => [d 10, d 11, d 12]) = some [20, 22, 0] := by
  decide +kernel

end CcNvme

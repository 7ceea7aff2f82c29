/-
CcNvme/SubmitReturns.lean

Submissions return.  `stream_submit_bio_core` asks for a free slot at `tail_watermark` and
calls `stream_do_checkpoint` until there is one; `init_streams` does not check that the ring
has a slot to spare.

Between calls a stream is at rest (`Stream.AtRest`): whatever `head` and `flushed` have come
to, its cursors are slots of the ring and no slot is reserved.  Every call that the module
offers keeps all streams so (`AnyCall.step_atRest`), and from there one checkpoint makes
room through each of its exits (`CheckpointExit.room_at_watermark`).  With two or more slots
every submission therefore ends in its second round at the latest, after any calls
(`submission_terminates`); with one slot it never ends (`single_slot_never_returns`).
-/
import CcNvme.StoredEntries

namespace CcNvme

/-- A call of the module on one of its streams. -/
inductive AnyCall (P : Params) where
  | client (i : Fin P.nrStreams) (op : ClientOp)
  | submitBh (bc : BufferCache) (i : Fin P.nrStreams) (buf : BufferHead) (opf : ReqFlags)
  | submitBhForceIpu (bc : BufferCache) (i : Fin P.nrStreams) (buf : BufferHead) (opf : ReqFlags)
  /-- `olayer_reset_stream` -/
  | reset (i : Fin P.nrStreams)

namespace AnyCall

variable {P : Params}

def step (P : Params) (fuel : ℕ) (o : Olayer) : AnyCall P → Option Olayer
  | .client i op => runClientOp P fuel i o op
  | .submitBh bc i buf opf => streamSubmitBh P bc fuel o buf opf i
  | .submitBhForceIpu bc i buf opf => streamSubmitBhForceIpu P bc fuel o buf opf i
  | .reset i => some (olayerResetStream P o i)

end AnyCall

variable {P : Params} {fuel : ℕ} {o o' : Olayer}

/-- Every stream is at rest. -/
def AllAtRest (P : Params) (o : Olayer) : Prop := ∀ i < P.nrStreams, (o.stream i).AtRest P

theorem AllAtRest.of_only (h : AllAtRest P o) {i : ℕ} (hframe : OnlyStream i o o')
    (hi : (o'.stream i).AtRest P) : AllAtRest P o' := by
  intro j hj
  by_cases hji : j = i
  · rw [hji]
    exact hi
  · rw [hframe j hji]
    exact h j hj

theorem initStreams_atRest (mem : ℕ → ℕ → Ometa) (lastTxid : ℕ → ℕ) (cmb : ℕ → Ometa) :
    AllAtRest P (initStreams P mem lastTxid cmb) :=
  fun _ _ => ⟨⟨nrOmeta_pos, nrOmeta_pos, nrOmeta_pos, nrOmeta_pos⟩, rfl⟩

theorem Stream.AtRest.reset {i : ℕ} (hi : i < P.nrStreams) :
    ((olayerResetStream P o i).stream i).AtRest P := by
  simp only [olayerResetStream, clampSid_of_lt hi, Olayer.setStream_self]
  exact ⟨⟨nrOmeta_pos, nrOmeta_pos, nrOmeta_pos, nrOmeta_pos⟩, rfl⟩

/-- **One call** returns and leaves every stream at rest. -/
theorem AnyCall.step_atRest (hN : 2 ≤ P.nrOmeta) (hfuel : 2 ≤ fuel) (h : AllAtRest P o)
    (c : AnyCall P) : ∃ o', c.step P fuel o = some o' ∧ AllAtRest P o' := by
  cases c with
  | client i op =>
      obtain ⟨o', ho', hrest⟩ := runClientOp_atRest hN hfuel i.isLt (h i i.isLt) op
      exact ⟨o', ho', h.of_only (runClientOp_frame i.isLt ho') hrest⟩
  | submitBh bc i buf opf =>
      simp only [step, streamSubmitBh, clampSid_of_lt i.isLt]
      split_ifs
      · exact ⟨_, rfl, h⟩
      · obtain ⟨q, hq, hcore⟩ := streamSubmitBioCore_returns hN bc
          ⟨buf.blocknr, horaeGetBhSecs buf, buf.dev.diskMinor, 0, txFlag opf⟩ (h i i.isLt)
        have hframe := streamSubmitBioCore_frame (hcore fuel hfuel)
        rw [hcore fuel hfuel, Option.map_some]
        exact ⟨_, rfl, h.of_only hframe hq⟩
  | submitBhForceIpu bc i buf opf =>
      simp only [step, streamSubmitBhForceIpu]
      split_ifs
      · exact ⟨_, rfl, h⟩
      · -- the journaled path of the bio entry point
        have hcall := runClientOp_atRest hN hfuel i.isLt (h i i.isLt)
          (.submitBioIpu bc (bh2bio opf buf) true)
        obtain ⟨o', ho', hrest⟩ := hcall
        exact ⟨o', ho', h.of_only (runClientOp_frame i.isLt ho') hrest⟩
  | reset i =>
      refine ⟨_, rfl, h.of_only (i := i) ?_ (.reset i.isLt)⟩
      intro j hj
      simp only [olayerResetStream, clampSid_of_lt i.isLt]
      exact Olayer.setStream_of_ne _ hj

/-- **Submission terminates.**  With two or more slots a ring, any sequence of calls on a
module just loaded runs to its end.  In the state it ends in, one `stream_do_checkpoint`
returns through one of its exits with room at `tail_watermark`, so that a submission returns
in its second round at the latest. -/
theorem submission_terminates (hN : 2 ≤ P.nrOmeta) (hfuel : 2 ≤ fuel) (mem : ℕ → ℕ → Ometa)
    (lastTxid : ℕ → ℕ) (cmb : ℕ → Ometa) (calls : List (AnyCall P)) :
    ∃ o, Run.run (AnyCall.step P fuel) (initStreams P mem lastTxid cmb) calls = some o ∧
      ∀ sid < P.nrStreams, ∀ bc,
        (∃ o', streamDoCheckpoint P bc o sid 1 = some o' ∧ CheckpointExit P bc sid o o') ∧
        (∀ o', CheckpointExit P bc sid o o' →
          1 ≤ horaeRingSpace (o'.stream sid).head (o'.stream sid).tailWatermark P.nrOmeta) ∧
        ∀ a, ∃ q, ∀ rounds, 2 ≤ rounds → streamSubmitBioCore P bc sid a rounds o = some q := by
  have hany : Run.Along (AnyCall.step P fuel) (fun _ _ => True)
      (initStreams P mem lastTxid cmb) calls :=
    Run.along_of_keeps (I := fun _ => True) (fun _ _ h => h) (fun _ _ _ h _ => h) trivial
  obtain ⟨o, hrun, hrest⟩ := Run.run_invariant
    (fun o c ho _ => AnyCall.step_atRest hN hfuel ho c) (initStreams_atRest mem lastTxid cmb) hany
  refine ⟨o, hrun, fun sid hsid bc => ?_⟩
  have h := hrest sid hsid
  refine ⟨streamDoCheckpoint_exit bc h.inRing, fun o' hexit => ?_, fun a => ?_⟩
  · exact (hexit.room_at_watermark hN h).2
  · obtain ⟨q, -, hcore⟩ := streamSubmitBioCore_returns hN bc a h
    exact ⟨q, hcore⟩

/-- Three writes fill the ring of stream 0 on the small controller; a flush that only moves
`head` follows. -/
def fullThenNoop : List (AnyCall Params.tiny) :=
  [.client ⟨0, Params.tiny.nrStreams_pos⟩ (.submitBio (fun _ _ => .unlocked) (pages 10 1)),
    .client ⟨0, Params.tiny.nrStreams_pos⟩ (.submitBio (fun _ _ => .unlocked) (pages 11 1)),
    .client ⟨0, Params.tiny.nrStreams_pos⟩ (.submitBio (fun _ _ => .unlocked) (pages 12 1)),
    .client ⟨0, Params.tiny.nrStreams_pos⟩ .flushNoop]

/-- The next submission returns. -/
theorem submission_terminates_tiny :
    2 ≤ Params.tiny.nrOmeta ∧
      ∃ o, Run.run (AnyCall.step Params.tiny 2) tinyLoaded fullThenNoop = some o ∧
        ∃ q, streamSubmitBioCore Params.tiny (fun _ _ => .unlocked) 0 ⟨5, 1, 0, 0, .tx⟩ 2 o
          = some q := by
  obtain ⟨o, hrun, hreturns⟩ := submission_terminates (P := Params.tiny) (by decide)
    (le_refl 2) (fun _ _ => Ometa.zero) (fun _ => 0) (fun _ => Ometa.zero) fullThenNoop
  obtain ⟨q, hq⟩ := (hreturns 0 (by decide) fun _ _ => .unlocked).2.2 ⟨5, 1, 0, 0, .tx⟩
  exact ⟨by decide, o, hrun, q, hq 2 (by decide)⟩

/-- A ring of one slot is always full: no submission returns. -/
theorem single_slot_never_returns (hN : P.nrOmeta = 1) {sid : ℕ} (h : (o.stream sid).AtRest P)
    (bc : BufferCache) (a : SubmitArgs) (rounds : ℕ) :
    streamSubmitBioCore P bc sid a rounds o = none := by
  induction rounds generalizing o with
  | zero => rfl
  | succ rounds ih =>
      have hhead := h.inRing.head_lt
      have htail := h.inRing.tail_lt
      have hfull : horaeRingSpace (o.stream sid).head (o.stream sid).tail P.nrOmeta < 1 := by
        rw [horaeRingSpace_eq hhead htail nrOmeta_le]
        omega
      obtain ⟨o₁, h₁, -⟩ := streamDoCheckpoint_exit bc h.inRing
      rw [streamSubmitBioCore]
      simp only [h.published, h.tail_mod]
      rw [if_pos hfull, h₁, Option.bind_some]
      exact ih (h.retiring (streamDoCheckpoint_retiring h₁))

end CcNvme

/-
CcNvme/ForwardedFlags.lean

The flags of the request that a write leaves the module with.  `ReqFlags.forwarded` is what
they should be: none of the four private flags, no flush of its own for a barrier write, and
the rest as it was.  The four entry points compute them four times over
(`Submission.sentFlags`):

* `stream_submit_bio` clears every private flag in the bio;
* `stream_submit_bio_ipu` clears `REQ_TX` and `REQ_TX_COMMIT` in a local copy only;
* `stream_submit_bh` forgets that a barrier write loses `REQ_PREFLUSH` and `REQ_FUA`;
* `stream_submit_bh_force_IPU` hands the flags it was given to `stream_submit_bio_ipu`.

`forwarded_flags_iff` says for each entry point exactly which writes come out right.
-/
import CcNvme.SubmitReturns

namespace CcNvme

/-- The flags a write should leave the module with. -/
def ReqFlags.forwarded (f : ReqFlags) : ReqFlags :=
  { f with
    ordered := false
    barrier := false
    tx := false
    txCommit := false
    preflush := f.preflush && !opIsBarrierWrite f
    fua := f.fua && !opIsBarrierWrite f }

/-! ### The flags that are sent -/

/-- `stream_submit_bio_ipu` leaves `REQ_TX` and `REQ_TX_COMMIT` in the bio. -/
theorem ipuOpf_eq (f : ReqFlags) :
    ipuOpf f = { f.forwarded with tx := f.tx, txCommit := f.txCommit } := by
  rcases f with ⟨ordered, barrier, tx, txCommit, preflush, fua, others⟩
  cases ordered <;> cases barrier <;> cases fua <;>
    simp [ipuOpf, ReqFlags.forwarded, opIsOrderedWrite, opIsBarrierWrite]

theorem submitOpf_eq (f : ReqFlags) : submitOpf f = f.forwarded := by
  rw [submitOpf, ipuOpf_eq]
  rfl

/-- `stream_submit_bh` leaves the two flush flags in the bio. -/
theorem bhOpf_eq (f : ReqFlags) :
    bhOpf f = { f.forwarded with preflush := f.preflush, fua := f.fua } := by
  rcases f with ⟨ordered, barrier, tx, txCommit, preflush, fua, others⟩
  cases ordered <;> cases barrier <;> cases fua <;>
    simp [bhOpf, ReqFlags.forwarded, opIsOrderedWrite, opIsBarrierWrite]

/-- A write through one of the four entry points. -/
inductive Submission where
  | stored (w : StoredWrite)
  | bhForceIpu (buf : BufferHead) (opf : ReqFlags)

namespace Submission

variable (P : Params)

def submit (bc : BufferCache) (fuel : ℕ) (o : Olayer) (sid : ℕ) : Submission → Option Olayer
  | .stored w => w.submit P bc fuel o sid
  | .bhForceIpu buf opf => streamSubmitBhForceIpu P bc fuel o buf opf sid

/-- The flags the call was given. -/
def flags : Submission → ReqFlags
  | .stored (.bio b) => b.opf
  | .stored (.ipu b _) => b.opf
  | .stored (.bh _ opf) => opf
  | .bhForceIpu _ opf => opf

/-- The flags of the request that the call passes down. -/
def sentFlags : Submission → ReqFlags
  | .stored (.bio b) => submitOpf b.opf
  | .stored (.ipu b _) => ipuOpf b.opf
  | .stored (.bh buf opf) => (bh2bio (bhOpf opf) buf).opf
  | .bhForceIpu buf opf => ipuOpf (bh2bio opf buf).opf

/-- The writes whose flags come out right. -/
def ForwardsRight : Submission → Prop
  | .stored (.bio _) => True
  | .stored (.ipu b _) => b.opf.tx = false ∧ b.opf.txCommit = false
  | .stored (.bh buf opf) =>
      opf.fua = false ∧ (opf.barrier = true → opf.preflush = false) ∧
        opf.others ||| buf.stateFlags = opf.others
  | .bhForceIpu buf opf =>
      opf.tx = false ∧ opf.txCommit = false ∧ opf.others ||| buf.stateFlags = opf.others

theorem sentFlags_eq_iff (w : Submission) : w.sentFlags = w.flags.forwarded ↔ w.ForwardsRight := by
  rcases w with (b | ⟨b, forced⟩ | ⟨buf, opf⟩) | ⟨buf, opf⟩
  · exact ⟨fun _ => trivial, fun _ => submitOpf_eq b.opf⟩
  · rw [sentFlags, flags, ForwardsRight, ipuOpf_eq]
    simp [ReqFlags.forwarded]
  · rw [sentFlags, flags, ForwardsRight, bh2bio, bhOpf_eq]
    rcases hbarrier : opf.barrier with - | - <;> rcases hfua : opf.fua with - | - <;>
      simp [ReqFlags.forwarded, opIsBarrierWrite, hbarrier, hfua]
  · rw [sentFlags, flags, ForwardsRight, ipuOpf_eq]
    simp [ReqFlags.forwarded, bh2bio, opIsBarrierWrite]

end Submission

/-! ### The request passed down -/

variable {P : Params} {bc : BufferCache} {fuel sid : ℕ} {o o' : Olayer}

/-- Off the ordered path there is no private flag to clear. -/
theorem bhOpf_of_not_horaePath {f : ReqFlags} (h : horaePath f = false) : bhOpf f = f := by
  rcases f with ⟨ordered, barrier, tx, txCommit, preflush, fua, others⟩
  simp only [horaePath, Bool.or_eq_false_iff] at h
  obtain ⟨⟨⟨hordered, hbarrier⟩, rfl⟩, rfl⟩ := h
  simp [bhOpf, hordered, hbarrier]

/-- The last request sent is the write, with the flags `f`. -/
def PassedDown (o' : Olayer) (f : ReqFlags) : Prop :=
  ∃ b : Bio, o'.io.getLast? = some (.bio b) ∧ b.opf = f

theorem passedDown_submitBio (o : Olayer) (b : Bio) : PassedDown (submitBio o b) b.opf :=
  ⟨b, List.getLast?_concat, rfl⟩

theorem streamSubmitBioIpu_passedDown {b : Bio} {forced : Bool}
    (h : streamSubmitBioIpu P bc fuel o b sid forced = some o') :
    PassedDown o' (ipuOpf b.opf) := by
  unfold streamSubmitBioIpu at h
  dsimp only at h
  split_ifs at h
  · obtain rfl := Option.some.inj h
    exact passedDown_submitBio _ _
  · obtain ⟨r, hr, h⟩ := Option.bind_eq_some_iff.mp h
    rw [if_neg (Nat.not_lt_zero _)] at h
    obtain ⟨q, -, rfl⟩ := Option.map_eq_some_iff.mp h
    -- the allocator redirects the bio and leaves its flags alone
    have hopf : r.2.1.opf = ipuOpf b.opf := by
      rw [journalWriteAlloc_result hr]
      dsimp only
      split_ifs <;> rfl
    rw [← hopf]
    exact passedDown_submitBio _ _
  · obtain rfl := Option.some.inj h
    exact passedDown_submitBio _ _

theorem Submission.passedDown {w : Submission} (h : w.submit P bc fuel o sid = some o') :
    PassedDown o' w.sentFlags := by
  rcases w with (b | ⟨b, forced⟩ | ⟨buf, opf⟩) | ⟨buf, opf⟩
  · simp only [submit, StoredWrite.submit, streamSubmitBio] at h
    split_ifs at h
    · obtain rfl := Option.some.inj h
      exact passedDown_submitBio _ _
    · obtain ⟨q, -, rfl⟩ := Option.map_eq_some_iff.mp h
      exact passedDown_submitBio _ _
  · exact streamSubmitBioIpu_passedDown h
  · simp only [submit, StoredWrite.submit, streamSubmitBh] at h
    split_ifs at h with hpath
    · obtain rfl := Option.some.inj h
      rw [sentFlags, bhOpf_of_not_horaePath (by simpa using hpath)]
      exact passedDown_submitBio _ _
    · obtain ⟨q, -, rfl⟩ := Option.map_eq_some_iff.mp h
      exact passedDown_submitBio _ _
  · simp only [submit, streamSubmitBhForceIpu] at h
    split_ifs at h with hpath
    · obtain rfl := Option.some.inj h
      -- `REQ_TX_COMMIT` alone does not lead to the ordered path here
      have hordered : opIsOrderedWrite (bh2bio opf buf).opf = false := by
        simp only [Bool.not_eq_true', Bool.or_eq_false_iff] at hpath
        exact hpath.1.1
      have hbarrier : opIsBarrierWrite (bh2bio opf buf).opf = false := by
        simp only [Bool.not_eq_true', Bool.or_eq_false_iff] at hpath
        exact hpath.1.2
      have hsame : ipuOpf (bh2bio opf buf).opf = (bh2bio opf buf).opf := by
        simp [ipuOpf, hordered, hbarrier]
      rw [sentFlags, hsame]
      exact passedDown_submitBio _ _
    · exact streamSubmitBioIpu_passedDown h

theorem clampSid_lt (sid : ℕ) : clampSid P sid < P.nrStreams := by
  unfold clampSid
  split_ifs with h
  · exact P.nrStreams_pos
  · exact Nat.not_le.mp h

/-- A stream id out of range stands for stream 0. -/
theorem Submission.submit_clamp (w : Submission) :
    w.submit P bc fuel o (clampSid P sid) = w.submit P bc fuel o sid := by
  have hclamp : clampSid P (clampSid P sid) = clampSid P sid := clampSid_of_lt (clampSid_lt sid)
  rcases w with (b | ⟨b, forced⟩ | ⟨buf, opf⟩) | ⟨buf, opf⟩
  · simp only [submit, StoredWrite.submit, streamSubmitBio, hclamp]
  · simp only [submit, StoredWrite.submit, streamSubmitBioIpu, hclamp]
  · simp only [submit, StoredWrite.submit, streamSubmitBh, hclamp]
  · simp only [submit, streamSubmitBhForceIpu, streamSubmitBioIpu, hclamp]

/-- Between calls every submission returns. -/
theorem Submission.returns (hN : 2 ≤ P.nrOmeta) (hfuel : 2 ≤ fuel) (h : AllAtRest P o)
    (w : Submission) : ∃ o', w.submit P bc fuel o sid = some o' := by
  have hcall := AnyCall.step_atRest hN hfuel h
  let i : Fin P.nrStreams := ⟨clampSid P sid, clampSid_lt sid⟩
  rw [← submit_clamp]
  rcases w with (b | ⟨b, forced⟩ | ⟨buf, opf⟩) | ⟨buf, opf⟩
  · obtain ⟨o', ho', -⟩ := hcall (.client i (.submitBio bc b))
    exact ⟨o', ho'⟩
  · obtain ⟨o', ho', -⟩ := hcall (.client i (.submitBioIpu bc b forced))
    exact ⟨o', ho'⟩
  · obtain ⟨o', ho', -⟩ := hcall (.submitBh bc i buf opf)
    exact ⟨o', ho'⟩
  · obtain ⟨o', ho', -⟩ := hcall (.submitBhForceIpu bc i buf opf)
    exact ⟨o', ho'⟩

/-- **Which flags reach the block layer.**  For every write through one of the four entry
points, in every state: the request passed down carries no private flag and is otherwise
unchanged, but for the flush flags of a barrier write, exactly when the write is one of
`Submission.ForwardsRight`.  Between calls there is such a request. -/
theorem forwarded_flags_iff (P : Params) (bc : BufferCache) (fuel : ℕ) (o : Olayer) (sid : ℕ)
    (w : Submission) :
    (∀ o', w.submit P bc fuel o sid = some o' →
      ∃ b : Bio, o'.io.getLast? = some (.bio b) ∧
        (b.opf = w.flags.forwarded ↔ w.ForwardsRight)) ∧
      (2 ≤ P.nrOmeta → 2 ≤ fuel → AllAtRest P o → ∃ o', w.submit P bc fuel o sid = some o') := by
  refine ⟨fun o' ho' => ?_, fun hN hfuel hrest => w.returns hN hfuel hrest⟩
  obtain ⟨b, hb, hopf⟩ := w.passedDown ho'
  rw [← w.sentFlags_eq_iff, ← hopf]
  exact ⟨b, hb, Iff.rfl⟩

/-- A `REQ_ORDERED` write of one block. -/
def orderedBlock : Bio := ⟨⟨0, 1⟩, 80, 4096, { txSync 0 with tx := false, ordered := true }⟩

/-- An ordered write comes out right through `stream_submit_bio_ipu`. -/
theorem ordered_flags_forwarded :
    ∃ o', streamSubmitBioIpu Params.tiny (fun _ _ => .unlocked) 2 tinyLoaded orderedBlock 0 true
        = some o' ∧
      ∃ b : Bio, o'.io.getLast? = some (.bio b) ∧ b.opf = orderedBlock.opf.forwarded := by
  have hflags := forwarded_flags_iff Params.tiny (fun _ _ => .unlocked) 2 tinyLoaded 0
    (.stored (.ipu orderedBlock true))
  obtain ⟨o', ho'⟩ := hflags.2 (by decide) le_rfl (initStreams_atRest _ _ _)
  obtain ⟨b, hb, hiff⟩ := hflags.1 o' ho'
  exact ⟨o', ho', b, hb, hiff.mpr ⟨rfl, rfl⟩⟩

/-- A `REQ_FUA` write. -/
def fuaSync : ReqFlags := { txSync 0 with tx := false, fua := true }

/-- One block handed to two entry points with the same flags.  A transaction's write keeps
`REQ_TX` through `stream_submit_bio_ipu`; a barrier write keeps `REQ_FUA` through
`stream_submit_bh`.  `stream_submit_bio` clears both. -/
theorem private_flags_leak :
    (streamSubmitBio Params.tiny (fun _ _ => .unlocked) 2 tinyLoaded
        ⟨⟨0, 1⟩, 80, 4096, txSync 0⟩ 0).map (fun o' => o'.io.getLast?)
      = some (some (.bio ⟨⟨0, 1⟩, 80, 4096, (txSync 0).forwarded⟩)) ∧
    (streamSubmitBioIpu Params.tiny (fun _ _ => .unlocked) 2 tinyLoaded
        ⟨⟨0, 1⟩, 80, 4096, txSync 0⟩ 0 true).map (fun o' => o'.io.getLast?)
      = some (some (.bio ⟨⟨1, 0⟩, 0, 4096, txSync 0⟩)) ∧
    (streamSubmitBh Params.tiny (fun _ _ => .unlocked) 2 tinyLoaded
        ⟨⟨0, 1⟩, 10, 4096, 0⟩ fuaSync 0).map (fun o' => o'.io.getLast?)
      = some (some (.bio ⟨⟨0, 1⟩, 80, 4096, fuaSync⟩)) ∧
    txSync 0 ≠ (txSync 0).forwarded ∧ fuaSync ≠ fuaSync.forwarded := by
  decide +kernel

end CcNvme

/-
CcNvme/CommitFlush.lean

What a commit flushes.  `stream_tx_commit_core` flushes the
`horae_count(last_queue_flushed, tail)` slots that start at
`last_queue_flushed`.  That cursor is moved by commits only, while submits that
find the ring full retire entries on their own, so that between two commits
`tail` may go round the ring any number of times; the count only knows the
number of submits modulo `nr_ometa`.

The machine here is the one of `RingLog` with two memories: which slots were
written since a commit covered them, and how many submits the last commit lies
back.  `commits_cover_iff` says exactly when every commit of a run covers every
live slot it should: fewer than `nr_ometa` submits since the commit before, or so
few live entries that the rest of the last round covers them.
-/
import CcNvme.RingLog

namespace CcNvme

/-! ### The machine -/

/-- The slots `stream_tx_commit_core` flushes. -/
def commitRange (P : Params) (s : Stream) : List ℕ :=
  Circular.arc P.nrOmeta s.lastQueueFlushed
    (horaeCount s.lastQueueFlushed s.tail P.nrOmeta)

structure CommitState where
  o : Olayer
  /-- the slot was written since it was last covered by the flush of a commit -/
  dirty : ℕ → Bool
  /-- the number of submits since the last commit -/
  submits : ℕ

def CommitState.step (P : Params) (fuel sid : ℕ) (st : CommitState) :
    RingOp → Option CommitState
  | .submit bc a =>
      (streamSubmitBioCore P bc sid a fuel st.o).map fun q =>
        ⟨q.1, Function.update st.dirty q.2 true, st.submits + 1⟩
  | .commitTx txid =>
      some ⟨streamCommitTx st.o sid txid,
        fun x => st.dirty x && x ∉ commitRange P (st.o.stream sid), 0⟩
  | .flush bdevs => some { st with o := streamBlkdevIssueFlush P st.o bdevs sid }
  | .wrap bc => (journalWrap P bc st.o sid).map fun o => { st with o := o }
  | .reset => some { st with o := olayerResetStream P st.o sid, submits := 0 }

/-- The memories do not influence the module. -/
theorem CommitState.step_o (P : Params) (fuel sid : ℕ) (st : CommitState) (op : RingOp) :
    (st.step P fuel sid op).map (·.o) = runOp P fuel sid st.o op := by
  cases op with
  | submit bc a => exact Option.map_map ..
  | commitTx txid => rfl
  | flush bdevs => rfl
  | wrap bc => simp [CommitState.step, runOp, Function.comp_def]
  | reset => rfl

/-- The condition `Q` holds whenever a commit is about to compute its range. -/
def AtCommit (Q : CommitState → Prop) (st : CommitState) : RingOp → Prop
  | .commitTx _ => Q st
  | _ => True

/-- Every live slot written since it was last covered is in the range of the commit. -/
def CommitCovers (P : Params) (sid : ℕ) (st : CommitState) : Prop :=
  ∀ x ∈ slotsOf P (st.o.stream sid).head (st.o.stream sid).tail, st.dirty x = true →
    x ∈ commitRange P (st.o.stream sid)

/-- Fewer submits than slots since the last commit, or no more live entries than the
submits of the last, incomplete round. -/
def CommitInTime (P : Params) (sid : ℕ) (st : CommitState) : Prop :=
  st.submits < P.nrOmeta ∨
    horaeCount (st.o.stream sid).head (st.o.stream sid).tail P.nrOmeta
      ≤ st.submits % P.nrOmeta

variable {P : Params} {fuel sid : ℕ}

/-! ### The invariant -/

/-- `last_queue_flushed` is the slot of the counter `L` reached by the last commit, and
the live slots written since are those of the counters from `L` on. -/
structure CommitInv (P : Params) (sid : ℕ) (st : CommitState) (H F T L : ℕ) : Prop where
  cursors : Cursors P (st.o.stream sid) H F T
  last_le : L ≤ T
  last_eq : (st.o.stream sid).lastQueueFlushed = L % P.nrOmeta
  submits_eq : st.submits = T - L
  dirty_iff : ∀ i, H ≤ i → i < T → (st.dirty (i % P.nrOmeta) = true ↔ L ≤ i)

/-- The range of a commit: the submits of the last round, however many there were. -/
theorem CommitInv.mem_range {st : CommitState} {H F T L : ℕ} (h : CommitInv P sid st H F T L)
    {x : ℕ} : x ∈ commitRange P (st.o.stream sid) ↔
      ∃ j, L ≤ j ∧ j < L + (T - L) % P.nrOmeta ∧ x = j % P.nrOmeta := by
  rw [commitRange, horaeCount_eq (h.last_eq ▸ Nat.mod_lt _ nrOmeta_pos) h.cursors.inRing.tail_lt
    nrOmeta_le, h.last_eq, h.cursors.tail_eq, Circular.dist_mod_of_le nrOmeta_pos h.last_le,
    Circular.mem_arc_mod]

/-- Which live counter the range covers: all of them when the ring was not filled since
the last commit, and only those of the last, incomplete round otherwise. -/
theorem CommitInv.covered_iff {st : CommitState} {H F T L i : ℕ}
    (h : CommitInv P sid st H F T L) (hi : H ≤ i) (hiT : i < T) (hL : L ≤ i) :
    i % P.nrOmeta ∈ commitRange P (st.o.stream sid) ↔
      T - L < P.nrOmeta ∨ T ≤ i + (T - L) % P.nrOmeta := by
  have hwin := h.cursors.window
  have hlast := h.last_le
  have hdiv := Nat.div_add_mod (T - L) P.nrOmeta
  have hr := Nat.mod_lt (T - L) (nrOmeta_pos (P := P))
  rw [h.mem_range]
  constructor
  · rintro ⟨j, hLj, hjr, he⟩
    -- moved on by the full rounds, `j` is a counter of the last round, and so is `i`
    have he' : i % P.nrOmeta = (j + P.nrOmeta * ((T - L) / P.nrOmeta)) % P.nrOmeta := by
      rw [he, Nat.add_mul_mod_self_left]
    by_cases hd : T - L < P.nrOmeta
    · exact Or.inl hd
    · have hij := Circular.mod_inj_of_window (h := T - P.nrOmeta) (by omega) (by omega)
        (by omega) (by omega) he'
      exact Or.inr (by omega)
  · rintro (hd | hlate)
    · exact ⟨i, hL, by rw [Nat.mod_eq_of_lt hd]; omega, rfl⟩
    · obtain ⟨j, rfl⟩ := Nat.exists_eq_add_of_le
        (show P.nrOmeta * ((T - L) / P.nrOmeta) ≤ i by omega)
      exact ⟨j, by omega, by omega, Nat.mul_add_mod ..⟩

/-- **When a commit covers.** -/
theorem CommitInv.covers_iff {st : CommitState} {H F T L : ℕ} (h : CommitInv P sid st H F T L) :
    CommitCovers P sid st ↔ CommitInTime P sid st := by
  have hHT := h.cursors.head_le.trans h.cursors.flushed_le
  have hwin := h.cursors.window
  rw [CommitInTime, h.cursors.count_eq, h.submits_eq]
  constructor
  · intro hcov
    by_contra hc
    rw [not_or] at hc
    -- the oldest live entry was submitted after the last commit, and is not covered
    have hlive := h.cursors.mem_live_iff.mpr ⟨H, le_rfl, by omega, rfl⟩
    have hdirty := (h.dirty_iff H le_rfl (by omega)).mpr (by omega)
    have := (h.covered_iff le_rfl (by omega) (by omega)).mp (hcov _ hlive hdirty)
    omega
  · intro htime x hx hdirty
    obtain ⟨i, hi, hiT, rfl⟩ := h.cursors.mem_live_iff.mp hx
    exact (h.covered_iff hi hiT ((h.dirty_iff i hi hiT).mp hdirty)).mpr (by omega)

/-! ### Every operation keeps it -/

theorem CommitInv.submit {bc : BufferCache} {st : CommitState} {H F T L : ℕ} {o₁ : Olayer}
    (h : CommitInv P sid st H F T L) (hN : 2 ≤ P.nrOmeta) (a : SubmitArgs)
    (hck : CheckpointOf P bc sid st.o o₁) :
    CommitInv P sid
      ⟨publish P o₁ sid a (T % P.nrOmeta) ((T + 1) % P.nrOmeta),
        Function.update st.dirty (T % P.nrOmeta) true, st.submits + 1⟩
      (roomCounters P.nrOmeta H F T).1 (roomCounters P.nrOmeta H F T).2 (T + 1) L := by
  have hs₁ := hck.self
  have hcur₁ := hs₁ ▸ h.cursors.makeRoom sid
  have hroom := roomCounters_le (n := P.nrOmeta) h.cursors.head_le h.cursors.flushed_le
  have hlast := h.last_le
  refine ⟨hcur₁.publish a (roomCounters_window hN h.cursors.head_le h.cursors.window),
    by omega, ?_, ?_, ?_⟩
  · rw [publish_stream]
    simp only [hs₁, Stream.makeRoom_lastQueueFlushed, h.last_eq]
  · show st.submits + 1 = _
    rw [h.submits_eq]
    omega
  · intro i hi hiT
    show Function.update st.dirty (T % P.nrOmeta) true (i % P.nrOmeta) = true ↔ L ≤ i
    by_cases hlatest : i = T
    · subst hlatest
      simp [hlast]
    · have hiT' : i < T := by omega
      rw [Function.update_of_ne (h.cursors.tail_not_live (hroom.1.trans hi) hiT')]
      exact h.dirty_iff i (hroom.1.trans hi) hiT'

/-- After a commit that covers, no live slot is dirty. -/
theorem CommitInv.commit {st : CommitState} {H F T L : ℕ} (h : CommitInv P sid st H F T L)
    (hcov : CommitCovers P sid st) (txid : ℕ) :
    CommitInv P sid ⟨streamCommitTx st.o sid txid,
      fun x => st.dirty x && x ∉ commitRange P (st.o.stream sid), 0⟩ H F T T := by
  refine ⟨h.cursors.commitTx txid, le_rfl, ?_, (Nat.sub_self T).symm, fun i hi hiT => ?_⟩
  · rw [streamCommitTx_stream]
    exact h.cursors.tail_eq
  · have hlive := h.cursors.mem_live_iff.mpr ⟨i, hi, hiT, rfl⟩
    refine iff_of_false ?_ (by omega)
    intro hc
    simp only [Bool.and_eq_true, decide_eq_true_eq] at hc
    exact hc.2 (hcov _ hlive hc.1)

/-- Moving `head` and `flushed` forward. -/
theorem CommitInv.advance {st : CommitState} {o' : Olayer} {H F T L : ℕ} (H' F' : ℕ)
    (h : CommitInv P sid st H F T L) (hcur : Cursors P (o'.stream sid) H' F' T) (hH : H ≤ H')
    (hlqf : (o'.stream sid).lastQueueFlushed = (st.o.stream sid).lastQueueFlushed) :
    CommitInv P sid { st with o := o' } H' F' T L :=
  ⟨hcur, h.last_le, hlqf.trans h.last_eq, h.submits_eq,
    fun i hi hiT => h.dirty_iff i (hH.trans hi) hiT⟩

theorem flush_lastQueueFlushed (o : Olayer) (hsid : sid < P.nrStreams)
    (bdevs : List BlockDevice) :
    ((streamBlkdevIssueFlush P o bdevs sid).stream sid).lastQueueFlushed
      = (o.stream sid).lastQueueFlushed := by
  unfold streamBlkdevIssueFlush
  simp only [clampSid_of_lt hsid]
  split_ifs
  · rfl
  · have hs : ∀ s io, ({ o.setStream sid s with io := io } : Olayer).stream sid = s :=
      fun s _ => Olayer.setStream_self o sid s
    rw [hs]

/-- **One operation** keeps the invariant, provided that a commit covers. -/
theorem commitInv_step {st st' : CommitState} {op : RingOp} (hN : 2 ≤ P.nrOmeta)
    (hfuel : 2 ≤ fuel) (hsid : sid < P.nrStreams) (h : ∃ H F T L, CommitInv P sid st H F T L)
    (hcov : AtCommit (CommitCovers P sid) st op) (hstep : st.step P fuel sid op = some st') :
    ∃ H F T L, CommitInv P sid st' H F T L := by
  obtain ⟨H, F, T, L, h⟩ := h
  cases op with
  | submit bc a =>
      obtain ⟨o₁, hck, hcore⟩ := streamSubmitBioCore_spec bc hN hfuel a h.cursors
      rw [CommitState.step, hcore, Option.map_some, Option.some.injEq] at hstep
      subst hstep
      exact ⟨_, _, _, _, h.submit hN a hck⟩
  | commitTx txid =>
      rw [CommitState.step, Option.some.injEq] at hstep
      subst hstep
      exact ⟨_, _, _, _, h.commit hcov txid⟩
  | flush bdevs =>
      rw [CommitState.step, Option.some.injEq] at hstep
      subst hstep
      obtain ⟨F', hcur⟩ := h.cursors.flush_any hsid bdevs
      exact ⟨_, _, _, _, h.advance _ _ hcur le_rfl (flush_lastQueueFlushed st.o hsid bdevs)⟩
  | wrap bc =>
      obtain ⟨o₁, -, -, hwrap⟩ :=
        journalWrap_spec bc h.cursors.inRing.head_lt h.cursors.inRing.flushed_lt
      rw [CommitState.step, hwrap, Option.map_some, Option.some.injEq] at hstep
      subst hstep
      refine ⟨_, _, _, _, h.advance F F ?_ h.cursors.head_le ?_⟩
      · rw [Olayer.setStream_self]
        exact h.cursors.retire sid
      · rw [Olayer.setStream_self]
        rfl
  | reset =>
      rw [CommitState.step, Option.some.injEq] at hstep
      subst hstep
      have hs : ∀ s, ((st.o.setStream sid s).stream sid) = s := Olayer.setStream_self st.o sid
      refine ⟨0, 0, 0, 0, ?_, le_rfl, ?_, rfl, fun i _ hi => absurd hi (Nat.not_lt_zero i)⟩
      · rw [olayerResetStream, clampSid_of_lt hsid, hs]
        exact cursors_zero rfl rfl rfl rfl
      · rw [olayerResetStream, clampSid_of_lt hsid, hs]
        rfl

/-! ### Whole runs -/

/-- **When every commit of a run covers.**  Along a run on a stream just initialised,
every commit covers the live slots written since they were last covered, if and only
if at each commit the ring was not filled since the commit before, or the live
entries are no more than the submits of the last, incomplete round. -/
theorem commits_cover_iff (P : Params) {fuel sid : ℕ} (hN : 2 ≤ P.nrOmeta) (hfuel : 2 ≤ fuel)
    (hsid : sid < P.nrStreams) (mem : ℕ → ℕ → Ometa) (lastTxid : ℕ → ℕ) (cmb : ℕ → Ometa)
    (dirty : ℕ → Bool) (ops : List RingOp) :
    Run.Along (CommitState.step P fuel sid) (AtCommit (CommitCovers P sid))
        ⟨initStreams P mem lastTxid cmb, dirty, 0⟩ ops ↔
      Run.Along (CommitState.step P fuel sid) (AtCommit (CommitInTime P sid))
        ⟨initStreams P mem lastTxid cmb, dirty, 0⟩ ops := by
  have hinit : ∃ H F T L,
      CommitInv P sid ⟨initStreams P mem lastTxid cmb, dirty, 0⟩ H F T L :=
    ⟨0, 0, 0, 0, cursors_zero rfl rfl rfl rfl, le_rfl, (Nat.zero_mod _).symm, rfl,
      fun i _ hi => absurd hi (Nat.not_lt_zero i)⟩
  refine Run.along_iff (I := fun st => ∃ H F T L, CommitInv P sid st H F T L) ?_
    (fun st op st' h hcov hstep => commitInv_step hN hfuel hsid h hcov hstep) hinit ops
  rintro st op ⟨H, F, T, L, h⟩
  cases op with
  | commitTx txid => exact h.covers_iff
  | submit bc a => exact Iff.rfl
  | flush bdevs => exact Iff.rfl
  | wrap bc => exact Iff.rfl
  | reset => exact Iff.rfl

instance (P : Params) (sid : ℕ) (st : CommitState) : Decidable (CommitCovers P sid st) :=
  inferInstanceAs (Decidable (∀ _ ∈ _, _ → _))

instance (P : Params) (sid : ℕ) (st : CommitState) : Decidable (CommitInTime P sid st) :=
  inferInstanceAs (Decidable (_ ∨ _))

instance (Q : CommitState → Prop) [DecidablePred Q] (st : CommitState) (op : RingOp) :
    Decidable (AtCommit Q st op) :=
  match op with
  | .commitTx _ => inferInstanceAs (Decidable (Q st))
  | .submit _ _ | .flush _ | .wrap _ | .reset => isTrue trivial

/-- A submit of block `lba`. -/
def submitBlock (lba : ℕ) : RingOp := .submit (fun _ _ => .noMem) ⟨lba, 1, 0, 0, .tx⟩

/-- On a ring of four slots, the fourth submit without a commit retires the three
entries before it and brings `tail` back to `last_queue_flushed`: the commit flushes
nothing, and the entry in slot 3 is missed. -/
theorem lapped_commit_misses_entry :
    ∃ st, Run.run (CommitState.step Params.tiny 2 5) ⟨tinyLoaded, fun _ => false, 0⟩
        [submitBlock 10, submitBlock 11, submitBlock 12, submitBlock 13] = some st ∧
      (3 ∈ slotsOf Params.tiny (st.o.stream 5).head (st.o.stream 5).tail ∧ st.dirty 3 = true ∧
        commitRange Params.tiny (st.o.stream 5) = []) ∧
      ¬ CommitCovers Params.tiny 5 st := by
  decide +kernel

theorem commits_cover_iff_twoRounds :
    (2 ≤ Params.tiny.nrOmeta ∧ 5 < Params.tiny.nrStreams) ∧
    Run.Along (CommitState.step Params.tiny 2 5) (AtCommit (CommitCovers Params.tiny 5))
      ⟨tinyLoaded, fun _ => false, 0⟩
      [submitBlock 10, submitBlock 11, .commitTx 1, .flush [⟨0, 0⟩], submitBlock 12,
        submitBlock 13, submitBlock 14, .commitTx 2] :=
  ⟨by decide, (commits_cover_iff Params.tiny (by decide) le_rfl (by decide) _ _ _ _ _).mpr
    (by decide +kernel)⟩

end CcNvme

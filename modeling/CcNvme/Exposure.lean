/-
CcNvme/Exposure.lean

Which version of a block a checkpoint writes home.  `commit_write` does not
copy the journal block: it asks `sb_getblk` for the buffer of the page cache
and submits that, with whatever it holds by then.

The machine of `Interleaving` gets a page cache here.  Buffers hold version
numbers; every modification in memory makes a new one.  A journaled write
records the versions it puts into the journal, and a commit turns those of its
stream into committed ones.  `run_exposes_only_committed` gives the condition
under which everything a scan submits is committed: no buffer is modified
while a live entry covers its block, the entries handed over belong to
committed transactions, and `get_sb_by_devid` finds the right super block.
-/
import CcNvme.Interleaving

namespace CcNvme

/-! ### The page cache -/

/-- A version of a block. -/
abbrev BlockVersion := (ℕ × ℕ) × ℕ

structure ExposureState where
  r : RetireState
  /-- the version each buffer holds -/
  buf : ℕ × ℕ → ℕ
  /-- the greatest version so far -/
  clock : ℕ
  /-- per stream, the versions journaled since its last commit -/
  pending : ℕ → List BlockVersion
  /-- the versions journaled by committed transactions -/
  committed : List BlockVersion

inductive ExposureOp where
  /-- the buffer of a block is modified in memory -/
  | modify (p : ℕ × ℕ)
  | op (op : RetireOp)

/-- The versions a waiting write puts into the journal when it is submitted. -/
def ExposureState.versions (st : ExposureState) (w : Waiting) : List BlockVersion :=
  (blocksOf w.home w.args.lba w.args.nrPages).map fun p => (p, st.buf p)

/-- The versions journaled since the last commit, after a step. -/
def ExposureState.pendingAfter (st : ExposureState) : RetireOp → ℕ → List BlockVersion
  | .insert k =>
      match st.r.waiting[k]? with
      | some w => Function.update st.pending w.sid (st.pending w.sid ++ st.versions w)
      | none => st.pending
  | .commit sid _ => Function.update st.pending sid []
  | _ => st.pending

/-- The committed versions after a step. -/
def ExposureState.committedAfter (st : ExposureState) : RetireOp → List BlockVersion
  | .commit sid _ => st.committed ++ st.pending sid
  | _ => st.committed

def ExposureState.step (P : Params) (sbOf : BlockDevice → ℕ) (st : ExposureState) :
    ExposureOp → Option ExposureState
  | .modify p =>
      some { st with buf := Function.update st.buf p (st.clock + 1), clock := st.clock + 1 }
  | .op op =>
      (st.r.step P sbOf op).map fun r =>
        { st with r := r, pending := st.pendingAfter op, committed := st.committedAfter op }

/-- The block whose buffer a request sends home. -/
def Request.homeBlock : Request → Option (ℕ × ℕ)
  | .bh sb lba => some (sb, lba)
  | _ => none

/-- Every buffer sent home in the step holds a committed version. -/
def ExposesOnlyCommitted (st st' : ExposureState) : Prop :=
  ∀ r ∈ st'.r.o.io.drop st.r.o.io.length, ∀ p, r.homeBlock = some p →
    (p, st.buf p) ∈ st.committed

instance (st st' : ExposureState) : Decidable (ExposesOnlyCommitted st st') :=
  inferInstanceAs (Decidable (∀ _ ∈ _, ∀ _, _ → _))

/-- The condition under which a step exposes nothing uncommitted. -/
def SafeExposure (P : Params) (st : ExposureState) : ExposureOp → Prop
  | .modify p =>
      ∀ sid < P.nrStreams, ∀ x ∈ liveSlots P (st.r.o.stream sid),
        (st.r.info sid x).journaled = true → p ∉ st.r.blocks sid x
  | .op (.alloc sid b) => sid < P.nrStreams ∧ horaeGetLba b < 2 ^ 64
  | .op (.inPlace sid _) | .op (.commit sid _) | .op (.flush sid _) => sid < P.nrStreams
  | .op (.scan sid _) =>
      sid < P.nrStreams ∧ ∀ seg ∈ (st.r.o.stream sid).delimited P, ∀ k ∈ seg.handed,
        (st.r.info sid k).committed = true ∧
          ∀ sb, getSbByDevid st.r.o ((st.r.o.stream sid).ometa k).deviceId = some sb →
            sb = (st.r.info sid k).home
  | _ => True

/-! ### The invariant -/

variable {P : Params} {sbOf : BlockDevice → ℕ} {st st' : ExposureState}

/-- The version was journaled by slot `x`'s transaction and is committed with it. -/
def Logged (st : ExposureState) (sid x : ℕ) (v : BlockVersion) : Prop :=
  v ∈ st.committed ∨ (st.r.info sid x).committed = false ∧ v ∈ st.pending sid

/-- The buffers of blocks covered by live entries hold the versions these have
journaled. -/
structure ExposureInv (P : Params) (st : ExposureState) : Prop where
  cursors : AllCursors P st.r
  waiting : ∀ w ∈ st.r.waiting, w.sid < P.nrStreams ∧ w.args.lba < 2 ^ 64
  journaled : ∀ sid < P.nrStreams, ∀ x ∈ liveSlots P (st.r.o.stream sid),
    ((st.r.o.stream sid).ometa x).plba ≠ 0 → (st.r.info sid x).journaled = true
  logged : ∀ sid < P.nrStreams, ∀ x ∈ liveSlots P (st.r.o.stream sid),
    (st.r.info sid x).journaled = true → ∀ p ∈ st.r.blocks sid x, Logged st sid x (p, st.buf p)

theorem exposes_of_quiet (h : SendsNoBuffer st.r.o st'.r.o) : ExposesOnlyCommitted st st' := by
  obtain ⟨new, hio, hnew⟩ := h
  intro r hr p he
  rw [hio, List.drop_left] at hr
  have hno := hnew r hr
  cases r with
  | bh sb lba => cases hno
  | bio b => cases he
  | pages dev sector n saved => cases he
  | flush bdev => cases he

/-- **The rule for steps that keep the live entries.** -/
theorem ExposureInv.of_keepsLive {new : ℕ → ℕ → Prop} (hinv : ExposureInv P st)
    (h : KeepsLive P st.r st'.r new) (hbuf : st'.buf = st.buf)
    (hw : ∀ w ∈ st'.r.waiting, w ∈ st.r.waiting ∨ w.sid < P.nrStreams ∧ w.args.lba < 2 ^ 64)
    (hlog : ∀ sid < P.nrStreams, ∀ x ∈ liveSlots P (st.r.o.stream sid), ∀ v,
      Logged st sid x v → Logged st' sid x v)
    (hnew : ∀ sid x, new sid x → (((st'.r.o.stream sid).ometa x).plba ≠ 0 →
        (st'.r.info sid x).journaled = true) ∧
      ((st'.r.info sid x).journaled = true →
        ∀ p ∈ st'.r.blocks sid x, Logged st' sid x (p, st.buf p))) : ExposureInv P st' := by
  refine ⟨h.cursors, ?_, ?_, ?_⟩
  · intro w hm
    rcases hw w hm with hold | hb
    · exact hinv.waiting w hold
    · exact hb
  · intro sid hsid x hx
    rcases (h.live sid hsid x).mp hx with hold | hn
    · rw [h.plba sid hsid x hold, h.journaled sid hsid x hold]
      exact hinv.journaled sid hsid x hold
    · exact (hnew sid x hn).1
  · intro sid hsid x hx hj p hp
    rw [hbuf]
    -- the entry was live before, or the step has published it
    rcases (h.live sid hsid x).mp hx with hold | hn
    · rw [h.journaled sid hsid x hold] at hj
      rw [h.blocks sid hsid x hold] at hp
      exact hlog sid hsid x hold _ (hinv.logged sid hsid x hold hj p hp)
    · exact (hnew sid x hn).2 hj p hp

/-- The case in which nothing is journaled or committed. -/
theorem ExposureInv.of_sameLive (hinv : ExposureInv P st)
    (h : KeepsLive P st.r st'.r fun _ _ => False) (hinfo : st'.r.info = st.r.info)
    (hbuf : st'.buf = st.buf) (hpend : st'.pending = st.pending)
    (hcomm : st'.committed = st.committed)
    (hw : ∀ w ∈ st'.r.waiting, w ∈ st.r.waiting ∨ w.sid < P.nrStreams ∧ w.args.lba < 2 ^ 64) :
    ExposureInv P st' := by
  refine hinv.of_keepsLive h hbuf hw (fun sid _ x _ v hv => ?_) (fun _ _ hn => hn.elim)
  rw [Logged, hinfo, hpend, hcomm]
  exact hv

/-- **The rule for steps that retire.** -/
theorem ExposureInv.of_dropsLive (hinv : ExposureInv P st) {sid : ℕ}
    (h : DropsLive P st.r st'.r sid) (hbuf : st'.buf = st.buf) (hpend : st'.pending = st.pending)
    (hcomm : st'.committed = st.committed) : ExposureInv P st' := by
  refine ⟨h.cursors, h.waiting ▸ hinv.waiting, ?_, ?_⟩
  · intro i hlt x hx
    rw [h.ometa, h.info]
    exact hinv.journaled i hlt x (h.live i hlt hx)
  · intro i hlt x hx hj p hp
    rw [h.info] at hj
    rw [h.blocks] at hp
    rw [Logged, h.info, hbuf, hpend, hcomm]
    exact hinv.logged i hlt x (h.live i hlt hx) hj p hp

/-! ### The steps -/

theorem exposure_op_inv {op : RetireOp} (hstep : st.step P sbOf (.op op) = some st') :
    ∃ r, st.r.step P sbOf op = some r ∧ { st with
      r := r, pending := st.pendingAfter op, committed := st.committedAfter op } = st' :=
  Option.map_eq_some_iff.mp hstep

/-- A step that publishes an entry: if it is journaled, its versions are pending. -/
theorem ExposureInv.of_publish (hinv : ExposureInv P st) {sid : ℕ} (hsid : sid < P.nrStreams)
    {a : SubmitArgs} {q : Olayer × ℕ} {b : Bio} {ws : List Waiting} {i : EntryInfo}
    (hcore : streamSubmitBioCore P noBuffers sid a 1 st.r.o = some q)
    (hst : st'.r = { st.r with
      o := submitBio q.1 b, waiting := ws, info := setInfo st.r.info sid q.2 i })
    (hws : ∀ w ∈ ws, w ∈ st.r.waiting) (hbuf : st'.buf = st.buf)
    (hpend : ∀ j v, v ∈ st.pending j → v ∈ st'.pending j)
    (hcomm : st'.committed = st.committed) (hfresh : i.committed = false)
    (hplba : a.plba % 2 ^ 32 ≠ 0 → i.journaled = true)
    (hblocks : i.journaled = true → ∀ p ∈ blocksOf i.home (a.lba % 2 ^ 64) (a.nrPages % 2 ^ 16),
      (p, st.buf p) ∈ st'.pending sid) :
    ExposureInv P st' ∧ ExposesOnlyCommitted st st' := by
  obtain ⟨hlive, hidx, hinfo, hi, hbl, hpl⟩ := effect_publish hinv.cursors hsid hcore hst
  refine ⟨hinv.of_keepsLive hlive hbuf (fun w hm => ?_) ?_ ?_, exposes_of_quiet hidx.quiet⟩
  · rw [hst] at hm
    exact Or.inl (hws w hm)
  · intro j hj x hx v hv
    rw [Logged, hinfo j hj x hx, hcomm]
    exact hv.imp_right fun h => ⟨h.1, hpend j v h.2⟩
  · rintro j x ⟨rfl, rfl⟩
    rw [hi, hbl, hpl]
    refine ⟨hplba, fun hj p hp => Or.inr ⟨?_, hblocks hj p hp⟩⟩
    rw [hi, hfresh]

theorem exposure_insert (hinv : ExposureInv P st) {k : ℕ}
    (hstep : st.step P sbOf (.op (.insert k)) = some st') :
    ExposureInv P st' ∧ ExposesOnlyCommitted st st' := by
  obtain ⟨r, hr, rfl⟩ := exposure_op_inv hstep
  simp only [RetireState.step, Option.bind_eq_some_iff, Option.map_eq_some_iff] at hr
  obtain ⟨w, hw, q, hcore, hst⟩ := hr
  have hmem : w ∈ st.r.waiting := List.mem_of_getElem? hw
  obtain ⟨hsid, hlba⟩ := hinv.waiting w hmem
  have hpend : st.pendingAfter (.insert k)
      = Function.update st.pending w.sid (st.pending w.sid ++ st.versions w) := by
    simp only [ExposureState.pendingAfter, hw]
  refine hinv.of_publish hsid hcore hst.symm (fun _ h => List.mem_of_mem_eraseIdx h) rfl ?_ rfl rfl
    (fun _ => rfl) ?_
  · intro j v hv
    show v ∈ st.pendingAfter (.insert k) j
    rw [hpend]
    by_cases hj : j = w.sid
    · subst hj
      rw [Function.update_self]
      exact List.mem_append_left _ hv
    · rwa [Function.update_of_ne hj]
  · -- `length` may be cut, so the entry covers a part of what is journaled
    intro _ p hp
    show (p, st.buf p) ∈ st.pendingAfter (.insert k) w.sid
    rw [hpend, Function.update_self]
    rw [Nat.mod_eq_of_lt hlba, mem_blocksOf] at hp
    refine List.mem_append_right _ (List.mem_map.mpr ⟨p, mem_blocksOf.mpr ⟨hp.1, hp.2.1, ?_⟩, rfl⟩)
    exact hp.2.2.trans_le (Nat.add_le_add_left (Nat.mod_le _ _) _)

theorem exposure_commit (hinv : ExposureInv P st) {sid txid : ℕ} (hsid : sid < P.nrStreams)
    (hstep : st.step P sbOf (.op (.commit sid txid)) = some st') :
    ExposureInv P st' ∧ ExposesOnlyCommitted st st' := by
  obtain ⟨r, hr, rfl⟩ := exposure_op_inv hstep
  obtain ⟨hlive, hidx, hw, hinfo⟩ := effect_commit hinv.cursors hsid hr
  refine ⟨hinv.of_keepsLive hlive rfl (fun w hm => Or.inl (hw ▸ hm)) ?_ (fun _ _ hn => hn.elim),
    exposes_of_quiet hidx.quiet⟩
  rintro i _ x _ v (hv | ⟨hc, hv⟩)
  · exact Or.inl (List.mem_append_left _ hv)
  · by_cases hi : i = sid
    · subst hi
      exact Or.inl (List.mem_append_right _ hv)
    · refine Or.inr ⟨?_, ?_⟩
      · show (r.info i x).committed = false
        rw [hinfo i hi, hc]
      · show v ∈ Function.update st.pending sid [] i
        rwa [Function.update_of_ne hi]

/-- What a scan submits is what the live entries have journaled. -/
theorem exposure_scan (hinv : ExposureInv P st) {sid : ℕ} {bc : BufferCache}
    (hsafe : SafeExposure P st (.op (.scan sid bc)))
    (hstep : st.step P sbOf (.op (.scan sid bc)) = some st') :
    ExposureInv P st' ∧ ExposesOnlyCommitted st st' := by
  obtain ⟨hsid, hsafe⟩ := hsafe
  obtain ⟨r, hr, rfl⟩ := exposure_op_inv hstep
  obtain ⟨hlive, hcommit, hinfo, hw, -⟩ := effect_scan hinv.cursors hr
  obtain ⟨segs, hscan, hsends⟩ := sends_commitWrite hcommit
  obtain ⟨H, F, T, hcur⟩ := hinv.cursors sid hsid
  rw [commitWriteScan_eq hcur.inRing.head_lt hcur.inRing.flushed_lt, Option.some.injEq] at hscan
  subst hscan
  obtain ⟨new, hio, hnew⟩ := hsends.io
  refine ⟨hinv.of_sameLive hlive hinfo rfl rfl rfl fun w hm => Or.inl (hw ▸ hm), ?_⟩
  intro req hreq p' he
  dsimp only at hreq
  rw [hio, List.drop_left] at hreq
  obtain ⟨p, hp, rfl⟩ := hnew req hreq
  obtain rfl : p = p' := Option.some.inj he
  -- the request belongs to an entry handed over by the scan
  obtain ⟨seg, hseg, hp⟩ := List.mem_flatMap.mp hp
  obtain ⟨k, hk, hp⟩ := List.mem_flatMap.mp hp
  obtain ⟨hc, hsb⟩ := hsafe seg hseg k hk
  obtain ⟨hflushed, hplba⟩ := flushed_of_delimited hcur.inRing hseg hk
  have hx : k ∈ liveSlots P (st.r.o.stream sid) := hcur.flushed_subset_live hflushed
  rcases e : getSbByDevid st.r.o ((st.r.o.stream sid).ometa k).deviceId with - | sb
  · rw [e] at hp
    cases hp
  · rw [e, Option.map_some, Option.getD_some, hsb sb e] at hp
    rcases hinv.logged sid hsid k hx (hinv.journaled sid hsid k hx hplba) p hp with hv | ⟨hno, -⟩
    · exact hv
    · rw [hc] at hno
      cases hno

/-- A modification leaves the buffers of live entries alone. -/
theorem exposure_modify (hinv : ExposureInv P st) {p : ℕ × ℕ}
    (hsafe : SafeExposure P st (.modify p)) (hstep : st.step P sbOf (.modify p) = some st') :
    ExposureInv P st' ∧ ExposesOnlyCommitted st st' := by
  obtain rfl := Option.some.inj hstep
  refine ⟨⟨hinv.cursors, hinv.waiting, hinv.journaled, ?_⟩, exposes_of_quiet (.of_eq rfl)⟩
  intro sid hsid x hx hj q hq
  have hne : q ≠ p := by
    rintro rfl
    exact hsafe sid hsid x hx hj hq
  show Logged st sid x (q, Function.update st.buf p (st.clock + 1) q)
  rw [Function.update_of_ne hne]
  exact hinv.logged sid hsid x hx hj q hq

/-- **One step**, whichever it is. -/
theorem exposure_step (hinv : ExposureInv P st) {op : ExposureOp} (hsafe : SafeExposure P st op)
    (hstep : st.step P sbOf op = some st') : ExposureInv P st' ∧ ExposesOnlyCommitted st st' := by
  cases op with
  | modify p => exact exposure_modify hinv hsafe hstep
  | op op =>
      cases op with
      | insert k => exact exposure_insert hinv hstep
      | commit sid txid => exact exposure_commit hinv hsafe hstep
      | scan sid bc => exact exposure_scan hinv hsafe hstep
      | inPlace sid b =>
          obtain ⟨r, hr, rfl⟩ := exposure_op_inv hstep
          simp only [RetireState.step, Option.map_eq_some_iff] at hr
          obtain ⟨q, hcore, hst⟩ := hr
          -- a write in place stores `plba` 0 and journals nothing
          exact hinv.of_publish hsafe hcore hst.symm (fun _ h => h) rfl (fun _ _ h => h) rfl rfl
            (fun h => absurd (Nat.zero_mod _) h) (fun h => by cases h)
      | alloc sid b =>
          obtain ⟨r, hr, rfl⟩ := exposure_op_inv hstep
          obtain ⟨hlive, hidx, hinfo, ⟨plba, bio, hw⟩, -⟩ := effect_alloc hinv.cursors hr
          refine ⟨hinv.of_sameLive hlive hinfo rfl rfl rfl fun w hm => ?_,
            exposes_of_quiet hidx.quiet⟩
          rw [hw, List.mem_append, List.mem_singleton] at hm
          rcases hm with hold | rfl
          · exact Or.inl hold
          · exact Or.inr hsafe
      | allocBlock sid b nr =>
          obtain ⟨r, hr, rfl⟩ := exposure_op_inv hstep
          obtain ⟨hlive, hidx, hinfo, hw⟩ := effect_allocBlock hinv.cursors hr
          exact ⟨hinv.of_sameLive hlive hinfo rfl rfl rfl fun w hm => Or.inl (hw ▸ hm),
            exposes_of_quiet hidx.quiet⟩
      | flush sid bdevs =>
          obtain ⟨r, hr, rfl⟩ := exposure_op_inv hstep
          obtain ⟨hlive, hidx, hinfo, hw⟩ := effect_flush hinv.cursors hsafe hr
          exact ⟨hinv.of_sameLive hlive hinfo rfl rfl rfl fun w hm => Or.inl (hw ▸ hm),
            exposes_of_quiet hidx.quiet⟩
      | retire sid =>
          obtain ⟨r, hr, rfl⟩ := exposure_op_inv hstep
          obtain ⟨hdrops, -⟩ := effect_retire hinv.cursors hr
          exact ⟨hinv.of_dropsLive hdrops rfl rfl rfl, exposes_of_quiet hdrops.quiet⟩
      | lastResort sid =>
          obtain ⟨r, hr, rfl⟩ := exposure_op_inv hstep
          have hdrops := effect_lastResort hinv.cursors hr
          exact ⟨hinv.of_dropsLive hdrops rfl rfl rfl, exposes_of_quiet hdrops.quiet⟩

/-! ### Whole runs -/

/-- Freshly initialised streams, and no buffer modified yet. -/
def ExposureState.fresh (o : Olayer) : ExposureState :=
  ⟨RetireState.fresh o, fun _ => 0, 0, fun _ => [], []⟩

theorem exposureInv_fresh {o : Olayer} {mem : ℕ → ℕ → Ometa} {lastTxid : ℕ → ℕ}
    (ho : ∀ sid, o.stream sid = initStream P (mem sid) (lastTxid sid) sid) :
    ExposureInv P (ExposureState.fresh o) := by
  refine ⟨fun sid _ => ⟨0, 0, 0, cursors_fresh ho sid⟩, fun w hw => (nomatch hw), ?_, ?_⟩
  · intro sid _ x hx
    exact absurd hx (not_live_fresh ho sid x)
  · intro sid _ x hx
    exact absurd hx (not_live_fresh ho sid x)

/-- **Checkpointing exposes only committed versions**, at any step of any run from freshly
initialised streams whose steps all meet the condition. -/
theorem run_exposes_only_committed (P : Params) (sbOf : BlockDevice → ℕ) (o : Olayer)
    (mem : ℕ → ℕ → Ometa) (lastTxid : ℕ → ℕ)
    (ho : ∀ sid, o.stream sid = initStream P (mem sid) (lastTxid sid) sid)
    (ops : List ExposureOp) (op : ExposureOp) (st st' : ExposureState)
    (hsafe : Run.Along (ExposureState.step P sbOf) (SafeExposure P) (ExposureState.fresh o)
      (ops ++ [op]))
    (hrun : Run.run (ExposureState.step P sbOf) (ExposureState.fresh o) ops = some st)
    (hstep : st.step P sbOf op = some st') : ExposesOnlyCommitted st st' := by
  exact Run.run_last (Q := fun st _ st' => ExposesOnlyCommitted st st')
    (fun _ _ _ h => exposure_step h) (exposureInv_fresh ho) hsafe hrun hstep

/-! ### Concrete runs -/

instance (st : ExposureState) (op : ExposureOp) : Decidable (SafeExposure P st op) :=
  match op with
  | .modify _ => inferInstanceAs (Decidable (∀ _ < _, ∀ _ ∈ _, _ → _))
  | .op (.alloc sid b) => inferInstanceAs (Decidable (sid < _ ∧ horaeGetLba b < _))
  | .op (.inPlace sid _) | .op (.commit sid _) | .op (.flush sid _) =>
      inferInstanceAs (Decidable (sid < _))
  | .op (.scan sid _) =>
      inferInstanceAs (Decidable (sid < _ ∧ ∀ _ ∈ _, ∀ _ ∈ _, _ ∧ ∀ _, _ → _))
  | .op (.allocBlock _ _ _) | .op (.insert _) | .op (.retire _) | .op (.lastResort _) =>
      inferInstanceAs (Decidable True)

/-- Block 10 is modified and journaled in a committed and flushed transaction. -/
def journaledOnce : List ExposureOp :=
  [.modify (7, 10), .op (.commit 5 1), .op (.inPlace 5 (pages 9 1)), .op (.alloc 5 (pages 10 1)),
    .op (.insert 0),
    .op (.inPlace 5 { pages 11 1 with opf := { txSync 0 with txCommit := true } }),
    .op (.commit 5 2), .op (.flush 5 [⟨0, 1⟩])]

/-- The buffer is modified again before the checkpoint, which submits version 2; only
version 1 was journaled. -/
theorem checkpoint_exposes_modification :
    (Run.run (ExposureState.step Params.tiny fun _ => 7)
      (ExposureState.fresh tinyMounted)
      (journaledOnce ++ [.modify (7, 10)])).bind (fun st =>
        (st.step Params.tiny (fun _ => 7) (.op (.scan 5 fun _ _ => .unlocked))).map fun st' =>
          decide (st'.r.o.io.drop st.r.o.io.length = [.bh 7 10] ∧ st.buf (7, 10) = 2 ∧
            st.committed = [((7, 10), 1)] ∧ ¬ ExposesOnlyCommitted st st'))
      = some true := by
  decide +kernel

theorem run_exposes_only_committed_once :
    Run.Along (ExposureState.step Params.tiny fun _ => 7) (SafeExposure Params.tiny)
        (ExposureState.fresh tinyMounted)
        (journaledOnce ++ [.op (.scan 5 fun _ _ => .unlocked)]) ∧
      ∃ st st', Run.run (ExposureState.step Params.tiny fun _ => 7)
          (ExposureState.fresh tinyMounted)
          journaledOnce = some st ∧
        st.step Params.tiny (fun _ => 7) (.op (.scan 5 fun _ _ => .unlocked)) = some st' ∧
        st'.r.o.io.drop st.r.o.io.length = [.bh 7 10] ∧ ExposesOnlyCommitted st st' := by
  have hsafe : Run.Along (ExposureState.step Params.tiny fun _ => 7) (SafeExposure Params.tiny)
      (ExposureState.fresh tinyMounted)
      (journaledOnce ++ [.op (.scan 5 fun _ _ => .unlocked)]) := by decide +kernel
  have hsent : (Run.run (ExposureState.step Params.tiny fun _ => 7)
      (ExposureState.fresh tinyMounted)
      journaledOnce).bind (fun st =>
        (st.step Params.tiny (fun _ => 7) (.op (.scan 5 fun _ _ => .unlocked))).map fun st' =>
          st'.r.o.io.drop st.r.o.io.length) = some [.bh 7 10] := by decide +kernel
  obtain ⟨st, hrun, hrest⟩ := Option.bind_eq_some_iff.mp hsent
  obtain ⟨st', hstep, hone⟩ := Option.map_eq_some_iff.mp hrest
  exact ⟨hsafe, st, st', hrun, hstep, hone, run_exposes_only_committed Params.tiny (fun _ => 7) _
    (fun _ _ => Ometa.zero) (fun _ => 0) (fun _ => rfl) journaledOnce _ st st' hsafe hrun hstep⟩

end CcNvme

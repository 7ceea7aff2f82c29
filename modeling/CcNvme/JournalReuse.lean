/-
CcNvme/JournalReuse.lean

Reuse of journal blocks.  A journaled submit takes its journal blocks first
(`journal_write_alloc`) and inserts its queue entry later
(`stream_submit_bio_core`); in between other submitters of the stream may
run, so the two are separate steps here and the extents allocated but not
yet inserted are part of the state.

`j_write_ptr` is a bump pointer that three operations move back to the start
of the partition: both allocators when a request does not fit, and the
truncation inside a submit that finds the ring full.  None of them looks at
the entries in `[flushed, tail)` or at the extents not yet inserted.  As long
as every such reset happens when there are none, the extents in use stay
packed below the pointer (`run_noReuse`); otherwise they are handed out twice.
-/
import CcNvme.RingLog
import CcNvme.Lib.Bump

namespace CcNvme

open Bump (Extent Packed)

/-! ### The steps -/

/-- The module, the submits between allocation and insertion, and the extent
returned by the last step if it was an `alloc_journal_block`. -/
structure JournalState where
  o : Olayer
  pending : List (SubmitArgs × Bio)
  descriptor : Option Extent

inductive JournalOp where
  /-- `journal_write_alloc`, on behalf of a forced `stream_submit_bio_ipu` -/
  | alloc (bc : BufferCache) (b : Bio)
  /-- `stream_submit_bio_core` of the `k`-th waiting submit, then `submit_bio` -/
  | insert (bc : BufferCache) (k : ℕ)
  /-- `alloc_journal_block` -/
  | allocBlock (bc : BufferCache) (b : Bio) (nr : ℕ)
  /-- `stream_commit_tx` -/
  | commit (txid : ℕ)
  /-- `stream_blkdev_issue_flush` -/
  | flush (bdevs : List BlockDevice)

/-- One step on stream `sid`. -/
def JournalState.step (P : Params) (fuel sid : ℕ) (st : JournalState) :
    JournalOp → Option JournalState
  | .alloc bc b =>
      (journalWriteAlloc P bc st.o sid { b with opf := ipuOpf b.opf }).map fun r =>
        ⟨r.1, st.pending ++ [(⟨horaeGetLba b, horaeGetSecs b, b.dev.diskMinor, r.2.2,
          txFlag b.opf⟩, r.2.1)], none⟩
  | .insert bc k =>
      match st.pending[k]? with
      | none => some { st with descriptor := none }
      | some p =>
          (streamSubmitBioCore P bc sid p.1 fuel st.o).map fun q =>
            ⟨submitBio q.1 p.2, st.pending.eraseIdx k, none⟩
  | .allocBlock bc b nr =>
      (allocJournalBlock P bc st.o sid b nr).map fun r => ⟨r.1, st.pending, some ⟨r.2.2, nr⟩⟩
  | .commit txid => some ⟨streamCommitTx st.o sid txid, st.pending, none⟩
  | .flush bdevs => some ⟨streamBlkdevIssueFlush P st.o bdevs sid, st.pending, none⟩

/-- A forced submit that nobody interrupts is an allocation and an insertion. -/
theorem streamSubmitBioIpu_eq_alloc_insert (P : Params) (bc : BufferCache) (fuel : ℕ) {sid : ℕ}
    (hsid : sid < P.nrStreams) (o : Olayer) {b : Bio} (hb : horaePath b.opf = true) :
    streamSubmitBioIpu P bc fuel o b sid true
      = (Run.run (JournalState.step P fuel sid) ⟨o, [], none⟩
          [.alloc bc b, .insert bc 0]).map (·.o) := by
  simp only [streamSubmitBioIpu, clampSid_of_lt hsid, hb, Bool.not_true, Bool.false_eq_true,
    if_false, Bool.or_true, if_true, Nat.not_lt_zero, Run.run_cons, Run.run_nil,
    JournalState.step, List.nil_append]
  rcases journalWriteAlloc P bc o sid { b with opf := ipuOpf b.opf } with - | r
  · rfl
  · simp only [Option.bind_some, Option.map_some, List.getElem?_cons_zero]
    rcases streamSubmitBioCore P bc sid ⟨horaeGetLba b, horaeGetSecs b, b.dev.diskMinor, r.2.2,
      txFlag b.opf⟩ fuel r.1 with - | q <;> rfl

/-! ### Extents in use -/

def Ometa.extent (e : Ometa) : Extent := ⟨e.plba, e.length⟩

def LogRecord.extent (r : LogRecord) : Extent := ⟨r.plba, r.length⟩

def SubmitArgs.extent (a : SubmitArgs) : Extent := ⟨a.plba, a.nrPages⟩

/-- The journal extents of the entries in `[head, tail)`. -/
def liveExtents (P : Params) (s : Stream) : List Extent :=
  (slotsOf P s.head s.tail).map fun x => (s.ometa x).extent

/-- The extents of the live entries and of the submits not yet inserted. -/
def JournalState.extents (P : Params) (sid : ℕ) (st : JournalState) : List Extent :=
  liveExtents P (st.o.stream sid) ++ st.pending.map fun p => p.1.extent

/-- No two extents in use overlap, nor does an extent just returned for a
description block overlap any of them. -/
def NoReuse (P : Params) (sid : ℕ) (st : JournalState) : Prop :=
  (st.extents P sid).Pairwise Extent.Disjoint ∧
    ∀ e, st.descriptor = some e → ∀ x ∈ st.extents P sid, e.Disjoint x

/-- The step does not move `j_write_ptr` back over extents in use: an allocation
fits the partition and wraps only when everything live is flushed and nothing
waits for insertion; a submit that finds the ring full finds nothing flushed, so
that it retires all entries and leaves the pointer alone. -/
def SafeReset (P : Params) (sid : ℕ) (st : JournalState) : JournalOp → Prop
  | .alloc _ b => SafeAlloc (horaeGetSecs b)
  | .allocBlock _ _ nr => SafeAlloc nr
  | .insert _ _ =>
      horaeRingSpace (st.o.stream sid).head (st.o.stream sid).tail P.nrOmeta < 1 →
        (st.o.stream sid).head = (st.o.stream sid).flushed
  | _ => True
where
  SafeAlloc (nr : ℕ) : Prop :=
    nr ≤ P.nrJournalBlock ∧
      (P.offInJournal sid + P.nrJournalBlock < nr + (st.o.stream sid).jWritePtr →
        (st.o.stream sid).flushed = (st.o.stream sid).tail ∧ st.pending = [])

instance (P : Params) (sid : ℕ) (st : JournalState) (op : JournalOp) :
    Decidable (SafeReset P sid st op) :=
  match op with
  | .alloc _ b =>
      inferInstanceAs (Decidable (horaeGetSecs b ≤ P.nrJournalBlock ∧ (_ → _ ∧ st.pending = [])))
  | .allocBlock _ _ nr =>
      inferInstanceAs (Decidable (nr ≤ P.nrJournalBlock ∧ (_ → _ ∧ st.pending = [])))
  | .insert _ _ => inferInstanceAs (Decidable (_ → _))
  | .commit _ => inferInstanceAs (Decidable True)
  | .flush _ => inferInstanceAs (Decidable True)

variable {P : Params} {sid fuel : ℕ}

theorem liveExtents_eq {s : Stream} {g : QueueLog P.nrOmeta} (h : Refines P s g) :
    liveExtents P s = (g.entries.drop g.H).map LogRecord.extent := by
  rw [← h.live_records, List.map_map]
  rfl

/-! ### The invariant -/

/-- The extents in use are packed between the start of the partition and
`j_write_ptr`, which stays inside the partition. -/
structure JournalInv (P : Params) (sid : ℕ) (s : Stream) (g : QueueLog P.nrOmeta)
    (waiting : List Extent) : Prop where
  refines : Refines P s g
  off_le : P.offInJournal sid ≤ s.jWritePtr
  le_end : s.jWritePtr ≤ P.offInJournal sid + P.nrJournalBlock
  packed : Packed (P.offInJournal sid) s.jWritePtr (liveExtents P s ++ waiting)

/-- After everything live has been flushed, a wrap leaves nothing live. -/
theorem liveExtents_retire {s : Stream} (sid : ℕ) (hft : s.flushed = s.tail) :
    liveExtents P (s.retire P sid) = [] := by
  show (slotsOf P s.flushed s.tail).map _ = []
  rw [hft, slotsOf_self, List.map_nil]

/-- A safe allocation finds the area above `j_write_ptr` free: the extents in use
stay packed below the address it returns. -/
theorem journalInv_alloc {s : Stream} {g : QueueLog P.nrOmeta} {waiting : List Extent} {nr : ℕ}
    (hsid : sid < P.nrStreams) (h : JournalInv P sid s g waiting) (hnr : nr ≤ P.nrJournalBlock)
    (hwrap : P.offInJournal sid + P.nrJournalBlock < nr + s.jWritePtr →
      s.flushed = s.tail ∧ waiting = []) :
    ∃ g' j, JournalInv P sid (s.alloc P sid nr) g' waiting ∧ s.allocAddr P sid nr = j ∧
      (s.alloc P sid nr).jWritePtr = j + nr ∧ P.offInJournal sid ≤ j ∧
      Packed (P.offInJournal sid) j (liveExtents P (s.alloc P sid nr) ++ waiting) := by
  have hlt := P.offInJournal_add_lt hsid
  have hmod : (P.offInJournal sid + P.nrJournalBlock) % 2 ^ 32
      = P.offInJournal sid + P.nrJournalBlock := Nat.mod_eq_of_lt hlt
  have hle := h.le_end
  have hoff := h.off_le
  have hnot : ¬ nr > P.nrJournalBlock := by omega
  unfold Stream.alloc Stream.allocAddr
  rw [if_neg hnot, if_neg hnot]
  by_cases hw : P.offInJournal sid + P.nrJournalBlock < nr + s.jWritePtr
  · -- the wrap: nothing is in use, the pointer starts over
    obtain ⟨hft, rfl⟩ := hwrap hw
    have hroom : s.allocRoom P sid nr = s.retire P sid := by
      rw [Stream.allocRoom, hmod, if_pos hw]
    have hj : (s.retire P sid).jWritePtr = P.offInJournal sid := rfl
    have hlive : liveExtents P { s.retire P sid with jWritePtr := P.offInJournal sid + nr } = [] :=
      liveExtents_retire sid hft
    rw [hroom, hj]
    refine ⟨g.truncate, P.offInJournal sid, ⟨(h.refines.retire sid).setPtr _, by simp,
      by dsimp only; omega, ?_⟩, Nat.mod_eq_of_lt (by omega), rfl, le_rfl, ?_⟩
    · rw [hlive]
      exact Packed.nil _ _
    · rw [hlive]
      exact Packed.nil _ _
  · have hroom : s.allocRoom P sid nr = s := by
      rw [Stream.allocRoom, hmod, if_neg hw]
    rw [hroom]
    exact ⟨g, s.jWritePtr, ⟨h.refines.setPtr _, by dsimp only; omega, by dsimp only; omega,
      h.packed.mono (Nat.le_add_right _ _)⟩, Nat.mod_eq_of_lt (by omega), rfl, hoff, h.packed⟩

/-- A submit that truncates nothing leaves the journal pointer alone. -/
theorem makeRoom_jWritePtr {s : Stream}
    (h : horaeRingSpace s.head s.tail P.nrOmeta < 1 → s.head = s.flushed) :
    (s.makeRoom P sid).jWritePtr = s.jWritePtr := by
  unfold Stream.makeRoom
  by_cases hroom : horaeRingSpace s.head s.tail P.nrOmeta ≥ 1
  · rw [if_pos hroom]
  · rw [if_neg hroom, if_pos (h (by omega))]
    rfl

/-- Inserting an entry drops some live records or none, and appends its own. -/
theorem drop_append_record (hN : 2 ≤ P.nrOmeta) (g : QueueLog P.nrOmeta) (a : SubmitArgs) :
    ∃ rs : List LogRecord, rs.Sublist (g.entries.drop g.H) ∧
      (g.append hN a).entries.drop (g.append hN a).H = rs ++ [a.record g.committed] := by
  have hle := roomCounters_le (n := P.nrOmeta) g.head_le g.flushed_le
  refine ⟨g.entries.drop (g.append hN a).H, List.drop_sublist_drop_left _ hle.1, ?_⟩
  have hT : (g.append hN a).H ≤ g.entries.length := hle.2.2.1.trans hle.2.2.2
  exact List.drop_append_of_le_length hT

/-- The record of a submit keeps the start of its extent and at most its length. -/
theorem record_extent {a : SubmitArgs} (committed : Bool) (h : a.plba < 2 ^ 32) :
    (a.record committed).extent.start = a.plba ∧
      (a.record committed).extent.length ≤ a.nrPages :=
  ⟨Nat.mod_eq_of_lt h, Nat.mod_le _ _⟩

/-- Inserting the waiting extent `a` keeps the extents in use packed. -/
theorem journalInv_insert (hN : 2 ≤ P.nrOmeta) {o o₁ : Olayer} {bc : BufferCache}
    {g : QueueLog P.nrOmeta} {waiting rest : List Extent} {a : SubmitArgs}
    (hsid : sid < P.nrStreams) (h : JournalInv P sid (o.stream sid) g waiting)
    (hperm : (a.extent :: rest).Perm waiting)
    (hfull : horaeRingSpace (o.stream sid).head (o.stream sid).tail P.nrOmeta < 1 →
      (o.stream sid).head = (o.stream sid).flushed)
    (hck : CheckpointOf P bc sid o o₁) :
    JournalInv P sid
      ((publish P o₁ sid a (g.T % P.nrOmeta) ((g.T + 1) % P.nrOmeta)).stream sid)
      (g.append hN a) rest := by
  have href := refines_publish hN h.refines a hck
  have hs₁ := hck.self
  have hptr : ((publish P o₁ sid a (g.T % P.nrOmeta) ((g.T + 1) % P.nrOmeta)).stream sid).jWritePtr
      = (o.stream sid).jWritePtr := by
    rw [publish_stream, ← makeRoom_jWritePtr hfull, ← hs₁]
  have hlt := P.offInJournal_add_lt hsid
  have hend := h.le_end
  obtain ⟨rs, hsub, hdrop⟩ := drop_append_record hN g a
  -- all extents in use, the one to insert moved to the end
  have hpacked : Packed (P.offInJournal sid) (o.stream sid).jWritePtr
      ((rs.map LogRecord.extent ++ rest) ++ [a.extent]) := by
    have h₁ := h.packed
    rw [liveExtents_eq h.refines] at h₁
    refine (h₁.sublist ((hsub.map _).append_right _)).perm ?_
    rw [List.append_assoc]
    refine List.Perm.append_left _ (hperm.symm.trans ?_)
    exact (List.perm_append_singleton _ _).symm
  have ha := hpacked.inside a.extent (List.mem_append_right _ (List.mem_singleton_self _))
  obtain ⟨hstart, hlen⟩ := record_extent (a := a) g.committed (by
    have : a.plba + a.nrPages ≤ (o.stream sid).jWritePtr := ha.2
    omega)
  refine ⟨href, hptr ▸ h.off_le, hptr ▸ h.le_end, ?_⟩
  rw [hptr, liveExtents_eq href, hdrop, List.map_append, List.map_singleton]
  apply (hpacked.shrink hstart hlen).perm
  rw [List.append_assoc, List.append_assoc]
  exact List.Perm.append_left _ List.perm_append_comm

/-! ### Steps and runs -/

/-- The state satisfies the invariant, and the description block just allocated is
apart from everything in use. -/
def JournalState.Inv (P : Params) (sid : ℕ) (st : JournalState) : Prop :=
  (∃ g, JournalInv P sid (st.o.stream sid) g (st.pending.map fun p => p.1.extent)) ∧
    ∀ e, st.descriptor = some e → ∀ x ∈ st.extents P sid, e.Disjoint x

theorem JournalState.Inv.noReuse {st : JournalState} (h : st.Inv P sid) : NoReuse P sid st := by
  obtain ⟨⟨g, hg⟩, hd⟩ := h
  exact ⟨hg.packed.disjoint, hd⟩

theorem inv_alloc (hsid : sid < P.nrStreams) {st : JournalState} (h : st.Inv P sid)
    (bc : BufferCache) (b : Bio) (hsafe : SafeReset P sid st (.alloc bc b)) :
    ∃ st', st.step P fuel sid (.alloc bc b) = some st' ∧ st'.Inv P sid := by
  obtain ⟨⟨g, hg⟩, -⟩ := h
  obtain ⟨hnr, hwrap⟩ := hsafe
  have hring := hg.refines.cursors.inRing
  obtain ⟨o', b', h', hof⟩ := journalWriteAlloc_spec bc { b with opf := ipuOpf b.opf }
    hring.head_lt hring.flushed_lt
  have hs' : o'.stream sid = (st.o.stream sid).alloc P sid (horaeGetSecs b) := hof.self
  obtain ⟨g', j, hg', hj, hptr, hoff, hpacked⟩ := journalInv_alloc hsid hg hnr fun hw =>
    ⟨(hwrap hw).1, by rw [(hwrap hw).2]; rfl⟩
  refine ⟨_, by rw [JournalState.step, h', Option.map_some], ⟨g', ?_⟩, by simp⟩
  dsimp only
  rw [hs']
  refine ⟨hg'.refines, hg'.off_le, hg'.le_end, ?_⟩
  have hnew : (⟨horaeGetLba b, horaeGetSecs b, b.dev.diskMinor,
      (st.o.stream sid).allocAddr P sid (horaeGetSecs { b with opf := ipuOpf b.opf }),
      txFlag b.opf⟩ : SubmitArgs).extent = ⟨j, horaeGetSecs b⟩ := by
    rw [← hj]
    rfl
  rw [hptr, List.map_append, List.map_singleton, hnew, ← List.append_assoc]
  exact hpacked.push hoff _

theorem inv_allocBlock (hsid : sid < P.nrStreams) {st : JournalState} (h : st.Inv P sid)
    (bc : BufferCache) (b : Bio) (nr : ℕ) (hsafe : SafeReset P sid st (.allocBlock bc b nr)) :
    ∃ st', st.step P fuel sid (.allocBlock bc b nr) = some st' ∧ st'.Inv P sid := by
  obtain ⟨⟨g, hg⟩, -⟩ := h
  obtain ⟨hnr, hwrap⟩ := hsafe
  have hring := hg.refines.cursors.inRing
  obtain ⟨o', b', h', hof⟩ := allocJournalBlock_spec bc b nr hring.head_lt hring.flushed_lt
  have hs' := hof.self
  obtain ⟨g', j, hg', hj, hptr, hoff, hpacked⟩ := journalInv_alloc hsid hg hnr fun hw =>
    ⟨(hwrap hw).1, by rw [(hwrap hw).2]; rfl⟩
  refine ⟨_, by rw [JournalState.step, h', Option.map_some], ⟨g', ?_⟩, ?_⟩
  · dsimp only
    rw [hs']
    exact hg'
  · intro e he x hx
    obtain rfl := Option.some.inj he
    unfold JournalState.extents at hx
    dsimp only at hx
    rw [hs'] at hx
    exact hpacked.free hj.ge x hx

theorem inv_insert (hN : 2 ≤ P.nrOmeta) (hfuel : 2 ≤ fuel) (hsid : sid < P.nrStreams)
    {st : JournalState} (h : st.Inv P sid) (bc : BufferCache) (k : ℕ)
    (hsafe : SafeReset P sid st (.insert bc k)) :
    ∃ st', st.step P fuel sid (.insert bc k) = some st' ∧ st'.Inv P sid := by
  obtain ⟨⟨g, hg⟩, -⟩ := h
  rcases hp : st.pending[k]? with - | p
  · refine ⟨{ st with descriptor := none }, by simp only [JournalState.step, hp], ⟨g, hg⟩, ?_⟩
    simp
  · obtain ⟨hk, rfl⟩ := List.getElem?_eq_some_iff.mp hp
    obtain ⟨o₁, hck, hcore⟩ :=
      streamSubmitBioCore_spec bc hN hfuel st.pending[k].1 hg.refines.cursors
    have hstep : st.step P fuel sid (.insert bc k) = some
        ⟨submitBio (publish P o₁ sid st.pending[k].1 (g.T % P.nrOmeta) ((g.T + 1) % P.nrOmeta))
          st.pending[k].2, st.pending.eraseIdx k, none⟩ := by
      simp only [JournalState.step, hp, hcore, Option.map_some]
    refine ⟨_, hstep, ⟨g.append hN st.pending[k].1, ?_⟩, by simp⟩
    refine journalInv_insert hN hsid hg ?_ hsafe hck
    have := (List.getElem_cons_eraseIdx_perm hk).map fun p => p.1.extent
    rwa [List.map_cons] at this

theorem inv_step (hN : 2 ≤ P.nrOmeta) (hfuel : 2 ≤ fuel) (hsid : sid < P.nrStreams)
    {st : JournalState} (h : st.Inv P sid) (op : JournalOp) (hsafe : SafeReset P sid st op) :
    ∃ st', st.step P fuel sid op = some st' ∧ st'.Inv P sid := by
  rcases op with ⟨bc, b⟩ | ⟨bc, k⟩ | ⟨bc, b, nr⟩ | txid | bdevs
  · exact inv_alloc hsid h bc b hsafe
  · exact inv_insert hN hfuel hsid h bc k hsafe
  · exact inv_allocBlock hsid h bc b nr hsafe
  -- neither a commit nor a flush moves the journal pointer or retires an entry
  · obtain ⟨⟨g, hg⟩, -⟩ := h
    have href := refines_commitTx hg.refines txid
    have hptr : ((streamCommitTx st.o sid txid).stream sid).jWritePtr
        = (st.o.stream sid).jWritePtr := by rw [streamCommitTx_stream]
    refine ⟨_, rfl, ⟨{ g with committed := true }, href, hptr ▸ hg.off_le, hptr ▸ hg.le_end, ?_⟩,
      by simp⟩
    rw [hptr, liveExtents_eq href, ← liveExtents_eq hg.refines]
    exact hg.packed
  · obtain ⟨⟨g, hg⟩, -⟩ := h
    have href := refines_flush hsid hg.refines bdevs
    have hptr : ((streamBlkdevIssueFlush P st.o bdevs sid).stream sid).jWritePtr
        = (st.o.stream sid).jWritePtr := (flush_stream st.o hsid bdevs).2.2
    refine ⟨_, rfl, ⟨_, href, hptr ▸ hg.off_le, hptr ▸ hg.le_end, ?_⟩, by simp⟩
    have hlive : liveExtents P ((streamBlkdevIssueFlush P st.o bdevs sid).stream sid)
        = liveExtents P (st.o.stream sid) := by
      rw [liveExtents_eq href, liveExtents_eq hg.refines]
      split_ifs <;> rfl
    rw [hptr, hlive]
    exact hg.packed

/-- **Journal blocks in use are not handed out again**, in every run from a freshly
initialised stream whose steps all reset the journal pointer safely. -/
theorem run_noReuse (P : Params) (hN : 2 ≤ P.nrOmeta) {fuel : ℕ} (hfuel : 2 ≤ fuel) {sid : ℕ}
    (hsid : sid < P.nrStreams) (o : Olayer) (mem : ℕ → Ometa) (lastTxid : ℕ)
    (ho : o.stream sid = initStream P mem lastTxid sid) (ops : List JournalOp)
    (hsafe : Run.Along (JournalState.step P fuel sid) (SafeReset P sid) ⟨o, [], none⟩ ops) :
    ∃ st, Run.run (JournalState.step P fuel sid) ⟨o, [], none⟩ ops = some st ∧
      NoReuse P sid st := by
  have hinit : (⟨o, [], none⟩ : JournalState).Inv P sid := by
    have href : Refines P (o.stream sid) (QueueLog.empty hN) := by
      rw [ho]
      exact ⟨cursors_zero rfl rfl rfl rfl, rfl, fun i _ hi => absurd hi (Nat.not_lt_zero i)⟩
    have hj : (o.stream sid).jWritePtr = P.offInJournal sid := by rw [ho]; rfl
    refine ⟨⟨QueueLog.empty hN, href, hj.ge, hj.le.trans (Nat.le_add_right _ _), ?_⟩, by simp⟩
    rw [liveExtents_eq href]
    exact Packed.nil _ _
  obtain ⟨st, hrun, hinv⟩ := Run.run_invariant
    (fun st op h hs => inv_step hN hfuel hsid h op hs) hinit hsafe
  exact ⟨st, hrun, hinv.noReuse⟩

/-- Three writes of one unflushed transaction, of 1, 2 and 2 blocks, in a partition
of 4. -/
def unflushedWrap : List JournalOp :=
  let bc : BufferCache := fun _ _ => .unlocked
  [.alloc bc (pages 10 1), .insert bc 0, .alloc bc (pages 20 2), .insert bc 0,
    .alloc bc (pages 30 2), .insert bc 0]

/-- The third allocation wraps and returns the blocks of the first two entries, which
are live. -/
theorem wrap_reuses_live_blocks :
    (Run.run (JournalState.step Params.tiny 2 5) ⟨tinyLoaded, [], none⟩ unflushedWrap).map
        (fun st => (st.extents Params.tiny 5,
          decide ((st.extents Params.tiny 5).Pairwise Extent.Disjoint)))
      = some ([⟨20, 1⟩, ⟨21, 2⟩, ⟨20, 2⟩], false) := by
  decide +kernel

/-- A flushed transaction of 1 and 2 blocks, then one that wraps the partition. -/
def flushedWrap : List JournalOp :=
  let bc : BufferCache := fun _ _ => .unlocked
  [.alloc bc (pages 10 1), .alloc bc (pages 20 2), .insert bc 1, .insert bc 0,
    .allocBlock bc (pages 0 1) 1, .commit 1, .flush [⟨0, 1⟩], .alloc bc (pages 30 2),
    .insert bc 0]

theorem run_noReuse_flushedWrap :
    Run.Along (JournalState.step Params.tiny 2 5) (SafeReset Params.tiny 5)
        ⟨tinyLoaded, [], none⟩ flushedWrap ∧
    ∃ st, Run.run (JournalState.step Params.tiny 2 5) ⟨tinyLoaded, [], none⟩ flushedWrap = some st ∧
      NoReuse Params.tiny 5 st :=
  have hsafe : Run.Along (JournalState.step Params.tiny 2 5) (SafeReset Params.tiny 5)
      ⟨tinyLoaded, [], none⟩ flushedWrap := by decide +kernel
  ⟨hsafe, run_noReuse Params.tiny (by decide) le_rfl (by decide) tinyLoaded
    (fun _ => Ometa.zero) 0 rfl flushedWrap hsafe⟩

end CcNvme

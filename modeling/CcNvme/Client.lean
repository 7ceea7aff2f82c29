/-
CcNvme/Client.lean

The calls that the holder of a stream can make, as one type of operations.  A call
changes no other stream, whatever state it finds (`runClientOp_frame`), it moves the
cursors of its own stream forward (`runClientOp_cursors`) unless it is
`stream_blkdev_issue_flush_noop`, and it returns with its stream at rest again
(`runClientOp_atRest`), after at most one checkpoint (`streamSubmitBioCore_returns`).
-/
import CcNvme.Cursors
import CcNvme.Lib.Run

namespace CcNvme

/-- A call on a stream; the write-backs inside it see the buffer cache it carries. -/
inductive ClientOp where
  | submitBio (bc : BufferCache) (b : Bio)
  | submitBioIpu (bc : BufferCache) (b : Bio) (forced : Bool)
  /-- `alloc_journal_block(stream, bio, nr); submit_bio(bio)` -/
  | allocBlock (bc : BufferCache) (b : Bio) (nr : ℕ)
  | commitTx (txid : ℕ)
  | flush (bdevs : List BlockDevice)
  | flushNoop
  /-- `truncate_ordering_log` -/
  | truncate (bc : BufferCache)
  /-- `stream_do_checkpoint` -/
  | checkpoint (bc : BufferCache) (nrEntries : ℕ)

/-- Run one call on stream `sid`. -/
def runClientOp (P : Params) (fuel sid : ℕ) (o : Olayer) : ClientOp → Option Olayer
  | .submitBio bc b => streamSubmitBio P bc fuel o b sid
  | .submitBioIpu bc b forced => streamSubmitBioIpu P bc fuel o b sid forced
  | .allocBlock bc b nr => (allocJournalBlock P bc o sid b nr).map fun r => submitBio r.1 r.2.1
  | .commitTx txid => some (streamCommitTx o sid txid)
  | .flush bdevs => some (streamBlkdevIssueFlush P o bdevs sid)
  | .flushNoop => some (streamBlkdevIssueFlushNoop P o sid)
  | .truncate bc => truncateOrderingLog P bc o sid
  | .checkpoint bc nrEntries => streamDoCheckpoint P bc o sid nrEntries

variable {P : Params} {bc : BufferCache} {o o' : Olayer} {sid fuel : ℕ}

/-! ### Other streams -/

/-- No stream but `sid` has changed. -/
def OnlyStream (sid : ℕ) (o o' : Olayer) : Prop := ∀ i ≠ sid, o'.stream i = o.stream i

namespace OnlyStream

theorem of_eq (h : o'.stream = o.stream) : OnlyStream sid o o' := fun i _ => congrFun h i

theorem trans {o₁ o₂ o₃ : Olayer} (h₁ : OnlyStream sid o₁ o₂) (h₂ : OnlyStream sid o₂ o₃) :
    OnlyStream sid o₁ o₃ := fun i hi => (h₂ i hi).trans (h₁ i hi)

theorem setStream (h : OnlyStream sid o o') (s : Stream) : OnlyStream sid o (o'.setStream sid s) :=
  fun i hi => (Olayer.setStream_of_ne s hi).trans (h i hi)

theorem publish (h : OnlyStream sid o o') (a : SubmitArgs) (slot next : ℕ) :
    OnlyStream sid o (publish P o' sid a slot next) :=
  fun i hi => (publish_stream_of_ne o' a slot next hi).trans (h i hi)

end OnlyStream

theorem journalWrap_frame (h : journalWrap P bc o sid = some o') : OnlyStream sid o o' := by
  obtain ⟨o₁, h₁, rfl⟩ := Option.map_eq_some_iff.mp h
  exact (OnlyStream.of_eq (sameQueues_of_commitWrite h₁).stream).setStream _

theorem allocSpace_frame {nr : ℕ} {r : Olayer × ℕ} (h : allocSpace P bc o sid nr = some r) :
    OnlyStream sid o r.1 := by
  obtain ⟨o₁, h₁, rfl⟩ := Option.map_eq_some_iff.mp h
  have hframe : OnlyStream sid o o₁ := by
    split_ifs at h₁
    · exact journalWrap_frame h₁
    · exact .of_eq (Option.some.inj h₁ ▸ rfl)
  exact hframe.setStream _

theorem allocJournalBlock_frame {b : Bio} {nr : ℕ} {r : Olayer × Bio × ℕ}
    (h : allocJournalBlock P bc o sid b nr = some r) : OnlyStream sid o r.1 := by
  unfold allocJournalBlock at h
  split_ifs at h
  · obtain rfl := Option.some.inj h
    exact .of_eq rfl
  · obtain ⟨r', h', rfl⟩ := Option.map_eq_some_iff.mp h
    exact allocSpace_frame h'

theorem journalWriteAlloc_frame {b : Bio} {r : Olayer × Bio × ℕ}
    (h : journalWriteAlloc P bc o sid b = some r) : OnlyStream sid o r.1 := by
  unfold journalWriteAlloc at h
  dsimp only at h
  split_ifs at h
  · obtain rfl := Option.some.inj h
    exact .of_eq rfl
  · obtain ⟨r', h', rfl⟩ := Option.map_eq_some_iff.mp h
    exact (allocSpace_frame h').trans (.of_eq (sameQueues_indexBlocks ..).stream)

theorem truncateOrderingLog_frame (h : truncateOrderingLog P bc o sid = some o') :
    OnlyStream sid o o' := by
  unfold truncateOrderingLog at h
  split_ifs at h
  · exact .of_eq (Option.some.inj h ▸ rfl)
  · exact journalWrap_frame h

theorem streamDoCheckpoint_frame {nr : ℕ} (h : streamDoCheckpoint P bc o sid nr = some o') :
    OnlyStream sid o o' := by
  unfold streamDoCheckpoint at h
  split_ifs at h
  · exact .of_eq (Option.some.inj h ▸ rfl)
  · obtain ⟨o₁, h₁, rfl⟩ := Option.map_eq_some_iff.mp h
    have hframe := truncateOrderingLog_frame h₁
    split_ifs
    · exact hframe
    · exact (hframe.trans (.of_eq rfl)).setStream _

theorem streamSubmitBioCore_frame {a : SubmitArgs} {q : Olayer × ℕ}
    (h : streamSubmitBioCore P bc sid a fuel o = some q) : OnlyStream sid o q.1 := by
  induction fuel generalizing o with
  | zero => cases h
  | succ fuel ih =>
      unfold streamSubmitBioCore at h
      dsimp only at h
      split_ifs at h
      · obtain ⟨o₁, h₁, h₂⟩ := Option.bind_eq_some_iff.mp h
        exact (streamDoCheckpoint_frame h₁).trans (ih h₂)
      · obtain rfl := Option.some.inj h
        exact (OnlyStream.of_eq rfl).publish _ _ _
      · exact ih h

/-- **Frame.**  A call on one stream changes no other. -/
theorem runClientOp_frame (hsid : sid < P.nrStreams) {op : ClientOp}
    (h : runClientOp P fuel sid o op = some o') : OnlyStream sid o o' := by
  have hclamp := clampSid_of_lt hsid
  cases op with
  | submitBio bc b =>
      simp only [runClientOp, streamSubmitBio, hclamp] at h
      split_ifs at h
      · exact .of_eq (Option.some.inj h ▸ rfl)
      · obtain ⟨q, hq, rfl⟩ := Option.map_eq_some_iff.mp h
        exact (streamSubmitBioCore_frame hq).trans (.of_eq rfl)
  | submitBioIpu bc b forced =>
      simp only [runClientOp, streamSubmitBioIpu, hclamp] at h
      split_ifs at h
      · exact .of_eq (Option.some.inj h ▸ rfl)
      · obtain ⟨r, hr, h⟩ := Option.bind_eq_some_iff.mp h
        have halloc := journalWriteAlloc_frame hr
        rw [if_neg (Nat.not_lt_zero _)] at h
        obtain ⟨q, hq, rfl⟩ := Option.map_eq_some_iff.mp h
        exact (halloc.trans (streamSubmitBioCore_frame hq)).trans (.of_eq rfl)
      · exact .of_eq (Option.some.inj h ▸ rfl)
  | allocBlock bc b nr =>
      obtain ⟨r, hr, rfl⟩ := Option.map_eq_some_iff.mp h
      exact (allocJournalBlock_frame hr).trans (.of_eq rfl)
  | commitTx txid =>
      obtain rfl := Option.some.inj h
      exact fun i hi => Olayer.setStream_of_ne _ hi
  | flush bdevs =>
      obtain rfl := Option.some.inj h
      exact (flushOf o hsid bdevs).others
  | flushNoop =>
      obtain rfl := Option.some.inj h
      unfold streamBlkdevIssueFlushNoop
      simp only [hclamp]
      split_ifs
      · exact .of_eq rfl
      · exact (OnlyStream.of_eq rfl).setStream _
  | truncate bc => exact truncateOrderingLog_frame h
  | checkpoint bc nr => exact streamDoCheckpoint_frame h

/-! ### The cursors -/

/-- Entries may have been retired, and nothing else has happened to the cursors: `head` has
moved forward, and `tail` has stayed. -/
def OnlyRetires (P : Params) (s s' : Stream) : Prop :=
  ∀ H F T, Cursors P s H F T → ∃ H' F', H ≤ H' ∧ Cursors P s' H' F' T

namespace OnlyRetires

theorem refl (s : Stream) : OnlyRetires P s s := fun H F _ h => ⟨H, F, le_rfl, h⟩

theorem of_eq {s s' : Stream} (h : s' = s) : OnlyRetires P s s' := by
  subst h
  exact refl s'

theorem trans {s₁ s₂ s₃ : Stream} (h₁ : OnlyRetires P s₁ s₂) (h₂ : OnlyRetires P s₂ s₃) :
    OnlyRetires P s₁ s₃ := by
  intro H F T h
  obtain ⟨H₁, F₁, hle₁, hcur₁⟩ := h₁ H F T h
  obtain ⟨H₂, F₂, hle₂, hcur₂⟩ := h₂ H₁ F₁ T hcur₁
  exact ⟨H₂, F₂, hle₁.trans hle₂, hcur₂⟩

theorem retire (s : Stream) (sid : ℕ) : OnlyRetires P s (s.retire P sid) :=
  fun _ F _ h => ⟨F, F, h.head_le, h.retire sid⟩

theorem retireAll (s : Stream) : OnlyRetires P s s.retireAll :=
  fun _ _ T h => ⟨T, T, h.head_le.trans h.flushed_le, h.retireAll⟩

/-- The journal pointer is no cursor. -/
theorem jWritePtr (s : Stream) (j : ℕ) : OnlyRetires P s { s with jWritePtr := j } :=
  fun H F _ h => ⟨H, F, le_rfl, h.head_le, h.flushed_le, h.window, h.head_eq, h.flushed_eq,
    h.tail_eq, h.watermark_eq⟩

end OnlyRetires

/-- What becomes of a stream in which entries are retired and journal blocks taken: the steps
of which `stream_do_checkpoint` and both allocators are made. -/
inductive Retiring (P : Params) (sid : ℕ) (s : Stream) : Stream → Prop
  | refl : Retiring P sid s s
  | retire {s' : Stream} (h : Retiring P sid s s') : Retiring P sid s (s'.retire P sid)
  | retireAll {s' : Stream} (h : Retiring P sid s s') : Retiring P sid s s'.retireAll
  | jWritePtr {s' : Stream} (h : Retiring P sid s s') (j : ℕ) :
      Retiring P sid s { s' with jWritePtr := j }

/-- The fields that retiring leaves alone. -/
structure SameEntries (s s' : Stream) : Prop where
  tail : s'.tail = s.tail
  tailWatermark : s'.tailWatermark = s.tailWatermark
  committed : s'.committed = s.committed
  lastTxid : s'.lastTxid = s.lastTxid
  ometa : s'.ometa = s.ometa

namespace Retiring

variable {s s' s'' : Stream}

theorem of_eq (h : s' = s) : Retiring P sid s s' := h ▸ .refl

theorem trans (h : Retiring P sid s s') (h' : Retiring P sid s' s'') : Retiring P sid s s'' := by
  induction h' with
  | refl => exact h
  | retire _ ih => exact ih.retire
  | retireAll _ ih => exact ih.retireAll
  | jWritePtr _ j ih => exact ih.jWritePtr j

theorem onlyRetires (h : Retiring P sid s s') : OnlyRetires P s s' := by
  induction h with
  | refl => exact .refl s
  | retire _ ih => exact ih.trans (.retire _ sid)
  | retireAll _ ih => exact ih.trans (.retireAll _)
  | jWritePtr _ j ih => exact ih.trans (.jWritePtr _ j)

theorem sameEntries (h : Retiring P sid s s') : SameEntries s s' := by
  induction h with
  | refl => exact ⟨rfl, rfl, rfl, rfl, rfl⟩
  | retire _ ih => exact ⟨ih.tail, ih.tailWatermark, ih.committed, ih.lastTxid, ih.ometa⟩
  | retireAll _ ih => exact ⟨ih.tail, ih.tailWatermark, ih.committed, ih.lastTxid, ih.ometa⟩
  | jWritePtr _ j ih => exact ⟨ih.tail, ih.tailWatermark, ih.committed, ih.lastTxid, ih.ometa⟩

end Retiring

theorem journalWrap_retiring (h : journalWrap P bc o sid = some o') :
    Retiring P sid (o.stream sid) (o'.stream sid) := by
  obtain ⟨o₁, h₁, rfl⟩ := Option.map_eq_some_iff.mp h
  rw [Olayer.setStream_self, (sameQueues_of_commitWrite h₁).stream]
  exact .retire .refl

theorem allocSpace_retiring {nr : ℕ} {r : Olayer × ℕ} (h : allocSpace P bc o sid nr = some r) :
    Retiring P sid (o.stream sid) (r.1.stream sid) := by
  obtain ⟨o₁, h₁, rfl⟩ := Option.map_eq_some_iff.mp h
  have hwrap : Retiring P sid (o.stream sid) (o₁.stream sid) := by
    split_ifs at h₁
    · exact journalWrap_retiring h₁
    · exact .of_eq (Option.some.inj h₁ ▸ rfl)
  rw [Olayer.setStream_self]
  exact hwrap.jWritePtr _

theorem allocJournalBlock_retiring {b : Bio} {nr : ℕ} {r : Olayer × Bio × ℕ}
    (h : allocJournalBlock P bc o sid b nr = some r) :
    Retiring P sid (o.stream sid) (r.1.stream sid) := by
  unfold allocJournalBlock at h
  split_ifs at h
  · obtain rfl := Option.some.inj h
    exact .refl
  · obtain ⟨r', h', rfl⟩ := Option.map_eq_some_iff.mp h
    exact allocSpace_retiring h'

theorem journalWriteAlloc_retiring {b : Bio} {r : Olayer × Bio × ℕ}
    (h : journalWriteAlloc P bc o sid b = some r) :
    Retiring P sid (o.stream sid) (r.1.stream sid) := by
  unfold journalWriteAlloc at h
  dsimp only at h
  split_ifs at h
  · obtain rfl := Option.some.inj h
    exact .refl
  · obtain ⟨r', h', rfl⟩ := Option.map_eq_some_iff.mp h
    exact (allocSpace_retiring h').trans
      (.of_eq (congrFun (sameQueues_indexBlocks ..).stream sid))

theorem truncateOrderingLog_retiring (h : truncateOrderingLog P bc o sid = some o') :
    Retiring P sid (o.stream sid) (o'.stream sid) := by
  unfold truncateOrderingLog at h
  split_ifs at h
  · exact .of_eq (Option.some.inj h ▸ rfl)
  · exact journalWrap_retiring h

theorem streamDoCheckpoint_retiring {nr : ℕ} (h : streamDoCheckpoint P bc o sid nr = some o') :
    Retiring P sid (o.stream sid) (o'.stream sid) := by
  unfold streamDoCheckpoint at h
  split_ifs at h
  · exact .of_eq (Option.some.inj h ▸ rfl)
  · obtain ⟨o₁, h₁, rfl⟩ := Option.map_eq_some_iff.mp h
    have htruncate := truncateOrderingLog_retiring h₁
    split_ifs
    · exact htruncate
    · dsimp only
      rw [Olayer.setStream_self]
      exact htruncate.retireAll

/-- **A submit that returns**, in whatever state it was called: after some retiring it finds
space, and publishes its entry in the slot at `tail`. -/
theorem streamSubmitBioCore_publish {a : SubmitArgs} {q : Olayer × ℕ}
    (h : streamSubmitBioCore P bc sid a fuel o = some q) :
    ∃ o₁, Retiring P sid (o.stream sid) (o₁.stream sid) ∧
      (o.stream sid).tailWatermark = (o.stream sid).tail ∧
      1 ≤ horaeRingSpace (o₁.stream sid).head (o.stream sid).tail P.nrOmeta ∧
      q = (publish P o₁ sid a (o.stream sid).tail
        (((o.stream sid).tail + 1) % 2 ^ 32 % P.nrOmeta), (o.stream sid).tail) := by
  induction fuel generalizing o with
  | zero => cases h
  | succ fuel ih =>
      unfold streamSubmitBioCore at h
      dsimp only at h
      split_ifs at h with hspace hmark htail
      · -- the ring was full
        obtain ⟨o₁, h₁, h₂⟩ := Option.bind_eq_some_iff.mp h
        have hretiring := streamDoCheckpoint_retiring h₁
        obtain ⟨o₂, h', hmark, hroom, hq⟩ := ih h₂
        have hsame := hretiring.sameEntries
        rw [hsame.tail, hsame.tailWatermark] at hmark
        rw [hsame.tail] at hroom hq
        exact ⟨o₂, hretiring.trans h', hmark, hroom, hq⟩
      · obtain rfl := Option.some.inj h
        rw [← htail] at hspace hmark ⊢
        exact ⟨o, .refl, hmark, Nat.not_lt.mp hspace, rfl⟩
      · exact ih h

/-- On a stream whose cursors are in order the entry is that of the counter `T`. -/
theorem streamSubmitBioCore_publishes {a : SubmitArgs} {q : Olayer × ℕ} {H F T : ℕ}
    (hcur : Cursors P (o.stream sid) H F T)
    (h : streamSubmitBioCore P bc sid a fuel o = some q) :
    ∃ H' F', H ≤ H' ∧ H' ≤ T ∧ Cursors P (q.1.stream sid) H' F' (T + 1) := by
  obtain ⟨o₁, hretiring, -, hroom, rfl⟩ := streamSubmitBioCore_publish h
  obtain ⟨H', F', hle, hcur'⟩ := hretiring.onlyRetires H F T hcur
  rw [hcur.tail_eq, ← hcur'.tail_eq] at hroom
  have hspace := hcur'.space_ge_one_iff.mp hroom
  have hT := hcur'.head_le.trans hcur'.flushed_le
  rw [hcur.tail_eq, next_slot]
  exact ⟨H', F', hle, hT, hcur'.publish a (by omega)⟩

/-- **One call.**  Unless it is `stream_blkdev_issue_flush_noop`, a call moves `head` forward,
no further than `tail`, and publishes at most one entry. -/
theorem runClientOp_cursors (hsid : sid < P.nrStreams) {H F T : ℕ}
    (hcur : Cursors P (o.stream sid) H F T) {op : ClientOp} (hop : op ≠ .flushNoop)
    (h : runClientOp P fuel sid o op = some o') :
    ∃ H' F' T', H ≤ H' ∧ H' ≤ T ∧ (T' = T ∨ T' = T + 1) ∧
      Cursors P (o'.stream sid) H' F' T' := by
  have hclamp := clampSid_of_lt hsid
  have hretires : ∀ {s : Stream}, OnlyRetires P (o.stream sid) s →
      ∃ H' F' T', H ≤ H' ∧ H' ≤ T ∧ (T' = T ∨ T' = T + 1) ∧ Cursors P s H' F' T' := by
    intro s hs
    obtain ⟨H', F', hle, hcur'⟩ := hs H F T hcur
    exact ⟨H', F', T, hle, hcur'.head_le.trans hcur'.flushed_le, Or.inl rfl, hcur'⟩
  cases op with
  | submitBio bc b =>
      simp only [runClientOp, streamSubmitBio, hclamp] at h
      split_ifs at h
      · exact hretires (.of_eq (Option.some.inj h ▸ rfl))
      · obtain ⟨q, hq, rfl⟩ := Option.map_eq_some_iff.mp h
        obtain ⟨H', F', hle, hT, hcur'⟩ := streamSubmitBioCore_publishes hcur hq
        exact ⟨H', F', T + 1, hle, hT, Or.inr rfl, hcur'⟩
  | submitBioIpu bc b forced =>
      simp only [runClientOp, streamSubmitBioIpu, hclamp] at h
      split_ifs at h
      · exact hretires (.of_eq (Option.some.inj h ▸ rfl))
      · obtain ⟨r, hr, h⟩ := Option.bind_eq_some_iff.mp h
        obtain ⟨H₁, F₁, hle₁, hcur₁⟩ := (journalWriteAlloc_retiring hr).onlyRetires H F T hcur
        rw [if_neg (Nat.not_lt_zero _)] at h
        obtain ⟨q, hq, rfl⟩ := Option.map_eq_some_iff.mp h
        obtain ⟨H₂, F₂, hle₂, hT, hcur₂⟩ := streamSubmitBioCore_publishes hcur₁ hq
        exact ⟨H₂, F₂, T + 1, hle₁.trans hle₂, hT, Or.inr rfl, hcur₂⟩
      · exact hretires (.of_eq (Option.some.inj h ▸ rfl))
  | allocBlock bc b nr =>
      obtain ⟨r, hr, rfl⟩ := Option.map_eq_some_iff.mp h
      exact hretires (allocJournalBlock_retiring hr).onlyRetires
  | commitTx txid =>
      obtain rfl := Option.some.inj h
      exact hretires fun H F _ h => ⟨H, F, le_rfl, h.commitTx txid⟩
  | flush bdevs =>
      obtain rfl := Option.some.inj h
      refine hretires fun H F T h => ?_
      obtain ⟨F', h'⟩ := h.flush_any hsid bdevs
      exact ⟨H, F', le_rfl, h'⟩
  | flushNoop => exact absurd rfl hop
  | truncate bc => exact hretires (truncateOrderingLog_retiring h).onlyRetires
  | checkpoint bc nr => exact hretires (streamDoCheckpoint_retiring h).onlyRetires

/-! ### Between calls -/

/-- No call is under way on the stream: its cursors are slots of the ring, and every slot that
was reserved has been published. -/
structure Stream.AtRest (P : Params) (s : Stream) : Prop where
  inRing : s.InRing P
  published : s.tailWatermark = s.tail

theorem Cursors.atRest {s : Stream} {H F T : ℕ} (h : Cursors P s H F T) : s.AtRest P :=
  ⟨h.inRing, h.tail_eq_watermark.symm⟩

namespace Stream.AtRest

variable {s s' : Stream}

theorem retiring (h : s.AtRest P) (hretiring : Retiring P sid s s') : s'.AtRest P := by
  induction hretiring with
  | refl => exact h
  | retire _ ih =>
      have hring := ih.inRing
      exact ⟨⟨hring.flushed_lt, hring.tail_lt, hring.tailWatermark_lt, hring.flushed_lt⟩,
        ih.published⟩
  | retireAll _ ih =>
      have hring := ih.inRing
      exact ⟨⟨hring.tail_lt, hring.tail_lt, hring.tailWatermark_lt, hring.tail_lt⟩, ih.published⟩
  | jWritePtr _ j ih =>
      have hring := ih.inRing
      exact ⟨⟨hring.head_lt, hring.tail_lt, hring.tailWatermark_lt, hring.flushed_lt⟩,
        ih.published⟩

/-- A slot fits the `u32` that a submit reads the watermark into. -/
theorem tail_mod (h : s.AtRest P) : s.tail % 2 ^ 32 = s.tail := by
  have hlt := h.inRing.tail_lt
  have := P.nrOmeta_lt
  exact Nat.mod_eq_of_lt (by omega)

/-- An entry is published in the slot at `tail`. -/
theorem publish (h : (o.stream sid).AtRest P) (a : SubmitArgs) (slot next : ℕ) :
    ((CcNvme.publish P o sid a slot (next % P.nrOmeta)).stream sid).AtRest P := by
  have hring := h.inRing
  have hnext : next % P.nrOmeta < P.nrOmeta := Nat.mod_lt _ nrOmeta_pos
  rw [publish_stream]
  exact ⟨⟨hring.head_lt, hnext, hnext, hring.flushed_lt⟩, rfl⟩

theorem commitTx (h : (o.stream sid).AtRest P) (txid : ℕ) :
    ((streamCommitTx o sid txid).stream sid).AtRest P := by
  have hring := h.inRing
  unfold streamCommitTx streamTxCommitCore
  dsimp only
  rw [Olayer.setStream_self]
  exact ⟨⟨hring.head_lt, hring.tail_lt, hring.tailWatermark_lt, hring.flushed_lt⟩, h.published⟩

theorem flush (h : (o.stream sid).AtRest P) (hsid : sid < P.nrStreams) (bdevs : List BlockDevice) :
    ((streamBlkdevIssueFlush P o bdevs sid).stream sid).AtRest P := by
  have hring := h.inRing
  unfold streamBlkdevIssueFlush
  simp only [clampSid_of_lt hsid]
  split_ifs
  · exact h
  · dsimp only
    rw [Olayer.setStream_self, h.tail_mod]
    exact ⟨⟨hring.head_lt, hring.tail_lt, hring.tailWatermark_lt, hring.tail_lt⟩, h.published⟩

theorem flushNoop_eq (h : (o.stream sid).AtRest P) (hsid : sid < P.nrStreams) :
    streamBlkdevIssueFlushNoop P o sid
      = if horaeCount (o.stream sid).head (o.stream sid).tail P.nrOmeta = 0 then o
        else o.setStream sid { o.stream sid with head := (o.stream sid).tail } := by
  have htail := h.tail_mod
  simp only [streamBlkdevIssueFlushNoop, clampSid_of_lt hsid, htail]

theorem flushNoop (h : (o.stream sid).AtRest P) (hsid : sid < P.nrStreams) :
    ((streamBlkdevIssueFlushNoop P o sid).stream sid).AtRest P := by
  have hring := h.inRing
  rw [h.flushNoop_eq hsid]
  split_ifs
  · exact h
  · rw [Olayer.setStream_self]
    exact ⟨⟨hring.tail_lt, hring.tail_lt, hring.tailWatermark_lt, hring.flushed_lt⟩, h.published⟩

end Stream.AtRest

/-! ### Calls return -/

theorem truncateOrderingLog_isSome (bc : BufferCache) (h : (o.stream sid).InRing P) :
    ∃ o', truncateOrderingLog P bc o sid = some o' := by
  unfold truncateOrderingLog
  split_ifs
  · exact ⟨o, rfl⟩
  · obtain ⟨o₁, -, -, hwrap⟩ := journalWrap_spec bc h.head_lt h.flushed_lt
    exact ⟨_, hwrap⟩

/-- The ways out of `stream_do_checkpoint`, called for one entry. -/
inductive CheckpointExit (P : Params) (bc : BufferCache) (sid : ℕ) (o : Olayer) : Olayer → Prop
  /-- There is room. -/
  | room (hroom : 1 ≤ horaeRingSpace (o.stream sid).head (o.stream sid).tail P.nrOmeta) :
      CheckpointExit P bc sid o o
  /-- The truncation has made room. -/
  | truncated {o₁ : Olayer} (htruncate : truncateOrderingLog P bc o sid = some o₁)
      (hroom : 1 ≤ horaeRingSpace (o₁.stream sid).head (o₁.stream sid).tail P.nrOmeta) :
      CheckpointExit P bc sid o o₁
  /-- The truncation was not enough, and the ring is emptied. -/
  | emptied {o₁ : Olayer} (htruncate : truncateOrderingLog P bc o sid = some o₁)
      (hfull : horaeRingSpace (o₁.stream sid).head (o₁.stream sid).tail P.nrOmeta < 1) :
      CheckpointExit P bc sid o ((writeCheckpoint P o₁ sid).setStream sid
        (o₁.stream sid).retireAll)

/-- `stream_do_checkpoint` returns, through one of its exits. -/
theorem streamDoCheckpoint_exit (bc : BufferCache) (h : (o.stream sid).InRing P) :
    ∃ o', streamDoCheckpoint P bc o sid 1 = some o' ∧ CheckpointExit P bc sid o o' := by
  unfold streamDoCheckpoint
  by_cases hroom : horaeRingSpace (o.stream sid).head (o.stream sid).tail P.nrOmeta ≥ 1
  · exact ⟨o, if_pos hroom, .room hroom⟩
  · obtain ⟨o₁, h₁⟩ := truncateOrderingLog_isSome bc h
    rw [if_neg hroom, h₁, Option.map_some]
    by_cases hroom₁ : horaeRingSpace (o₁.stream sid).head (o₁.stream sid).tail P.nrOmeta ≥ 1
    · rw [if_pos hroom₁]
      exact ⟨o₁, rfl, .truncated h₁ hroom₁⟩
    · rw [if_neg hroom₁]
      exact ⟨_, rfl, .emptied h₁ (Nat.not_le.mp hroom₁)⟩

/-- An empty ring of two or more slots has room. -/
theorem horaeRingSpace_self (hN : 2 ≤ P.nrOmeta) {t : ℕ} (ht : t < P.nrOmeta) :
    1 ≤ horaeRingSpace t t P.nrOmeta := by
  rw [horaeRingSpace_eq ht ht nrOmeta_le, Circular.dist_self]
  omega

/-- Whichever exit is taken, the stream is at rest and there is room at the watermark. -/
theorem CheckpointExit.room_at_watermark (hN : 2 ≤ P.nrOmeta) (h : (o.stream sid).AtRest P)
    (hexit : CheckpointExit P bc sid o o') :
    (o'.stream sid).AtRest P ∧
      1 ≤ horaeRingSpace (o'.stream sid).head (o'.stream sid).tailWatermark P.nrOmeta := by
  cases hexit with
  | room hroom =>
      rw [h.published]
      exact ⟨h, hroom⟩
  | truncated htruncate hroom =>
      have h₁ := h.retiring (truncateOrderingLog_retiring htruncate)
      rw [h₁.published]
      exact ⟨h₁, hroom⟩
  | emptied htruncate _ =>
      have h₁ := h.retiring (truncateOrderingLog_retiring htruncate).retireAll
      rw [Olayer.setStream_self, h₁.published]
      exact ⟨h₁, horaeRingSpace_self hN h₁.inRing.tail_lt⟩

/-- With room in the ring a submit publishes its entry in the first round. -/
theorem streamSubmitBioCore_of_room (bc : BufferCache) (a : SubmitArgs)
    (h : (o.stream sid).AtRest P)
    (hroom : 1 ≤ horaeRingSpace (o.stream sid).head (o.stream sid).tailWatermark P.nrOmeta) :
    ∃ q, (q.1.stream sid).AtRest P ∧
      ∀ fuel, 1 ≤ fuel → streamSubmitBioCore P bc sid a fuel o = some q := by
  refine ⟨(publish P o sid a (o.stream sid).tail
    (((o.stream sid).tail + 1) % 2 ^ 32 % P.nrOmeta), (o.stream sid).tail), h.publish a _ _, ?_⟩
  intro fuel hfuel
  obtain ⟨k, rfl⟩ := Nat.exists_eq_add_of_le' hfuel
  rw [h.published] at hroom
  unfold streamSubmitBioCore
  simp only [h.published, h.tail_mod, if_true]
  rw [if_neg (Nat.not_lt.mpr hroom)]

/-- **The retry loop ends** after at most one checkpoint. -/
theorem streamSubmitBioCore_returns (hN : 2 ≤ P.nrOmeta) (bc : BufferCache) (a : SubmitArgs)
    (h : (o.stream sid).AtRest P) :
    ∃ q, (q.1.stream sid).AtRest P ∧
      ∀ fuel, 2 ≤ fuel → streamSubmitBioCore P bc sid a fuel o = some q := by
  by_cases hroom : 1 ≤ horaeRingSpace (o.stream sid).head (o.stream sid).tailWatermark P.nrOmeta
  · obtain ⟨q, hq, hcore⟩ := streamSubmitBioCore_of_room bc a h hroom
    exact ⟨q, hq, fun fuel hfuel => hcore fuel (Nat.le_of_succ_le hfuel)⟩
  · -- the second round finds the room that the checkpoint has made
    obtain ⟨o₁, h₁, hexit⟩ := streamDoCheckpoint_exit bc h.inRing
    obtain ⟨hrest, hroom₁⟩ := hexit.room_at_watermark hN h
    obtain ⟨q, hq, hcore⟩ := streamSubmitBioCore_of_room bc a hrest hroom₁
    refine ⟨q, hq, fun fuel hfuel => ?_⟩
    obtain ⟨k, rfl⟩ := Nat.exists_eq_add_of_le' hfuel
    rw [h.published] at hroom
    rw [streamSubmitBioCore]
    simp only [h.published, h.tail_mod]
    rw [if_pos (Nat.not_le.mp hroom), h₁, Option.bind_some]
    exact hcore (k + 1) (Nat.le_add_left 1 k)

/-- **Every call returns**, in a ring of two or more slots, and leaves its stream at rest. -/
theorem runClientOp_atRest (hN : 2 ≤ P.nrOmeta) (hfuel : 2 ≤ fuel) (hsid : sid < P.nrStreams)
    (h : (o.stream sid).AtRest P) (op : ClientOp) :
    ∃ o', runClientOp P fuel sid o op = some o' ∧ (o'.stream sid).AtRest P := by
  have hclamp := clampSid_of_lt hsid
  have hring := h.inRing
  cases op with
  | submitBio bc b =>
      simp only [runClientOp, streamSubmitBio, hclamp]
      split_ifs
      · exact ⟨_, rfl, h⟩
      · obtain ⟨q, hq, hcore⟩ := streamSubmitBioCore_returns hN bc
          ⟨horaeGetLba b, horaeGetSecs b, b.dev.diskMinor, 0, txFlag b.opf⟩ h
        rw [hcore fuel hfuel, Option.map_some]
        exact ⟨_, rfl, hq⟩
  | submitBioIpu bc b forced =>
      simp only [runClientOp, streamSubmitBioIpu, hclamp]
      split_ifs
      · exact ⟨_, rfl, h⟩
      · obtain ⟨o₁, b', halloc, -⟩ := journalWriteAlloc_spec bc { b with opf := ipuOpf b.opf }
          hring.head_lt hring.flushed_lt
        have h₁ : (o₁.stream sid).AtRest P := h.retiring (journalWriteAlloc_retiring halloc)
        rw [halloc, Option.bind_some, if_neg (Nat.not_lt_zero _)]
        obtain ⟨q, hq, hcore⟩ := streamSubmitBioCore_returns hN bc _ h₁
        rw [hcore fuel hfuel, Option.map_some]
        exact ⟨_, rfl, hq⟩
      · exact ⟨_, rfl, h⟩
  | allocBlock bc b nr =>
      obtain ⟨o₁, b', halloc, -⟩ := allocJournalBlock_spec bc b nr hring.head_lt hring.flushed_lt
      rw [runClientOp, halloc, Option.map_some]
      exact ⟨_, rfl, h.retiring (allocJournalBlock_retiring halloc)⟩
  | commitTx txid => exact ⟨_, rfl, h.commitTx txid⟩
  | flush bdevs => exact ⟨_, rfl, h.flush hsid bdevs⟩
  | flushNoop => exact ⟨_, rfl, h.flushNoop hsid⟩
  | truncate bc =>
      obtain ⟨o₁, h₁⟩ := truncateOrderingLog_isSome bc hring
      exact ⟨o₁, h₁, h.retiring (truncateOrderingLog_retiring h₁)⟩
  | checkpoint bc nr =>
      obtain ⟨o₁, h₁⟩ : ∃ o₁, streamDoCheckpoint P bc o sid nr = some o₁ := by
        unfold streamDoCheckpoint
        split_ifs
        · exact ⟨_, rfl⟩
        · obtain ⟨o₁, h₁⟩ := truncateOrderingLog_isSome bc hring
          exact ⟨_, congrArg _ h₁⟩
      exact ⟨o₁, h₁, h.retiring (streamDoCheckpoint_retiring h₁)⟩

end CcNvme

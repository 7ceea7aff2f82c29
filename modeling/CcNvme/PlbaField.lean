/-
CcNvme/PlbaField.lean

The field `plba` as a sentinel.  All three scanners (`commit_write`, `graceful_shutdown` and
`olayer_crash_recovery`) pass over the entries with `plba` 0, in one and the same inner
loop: they are taken for writes whose data is at home already.

The ghost field `home` of the machine below notes for every slot where the data of its entry
went.  `plba_separates_iff` says over whole runs, from any state, when the two agree: no
request may be larger than the partition, none may find the journal pointer at 0, and none may
wrap the partition of the first stream, which begins with block 0.
-/
import CcNvme.StoredEntries

namespace CcNvme

/-! ### The machine -/

/-- The calls on a stream, and its reset at the end of a mount. -/
inductive PlbaOp where
  | call (op : ClientOp)
  | submitBh (bc : BufferCache) (buf : BufferHead) (opf : ReqFlags)
  | reset

/-- One stream, and for each of its slots whether the data of the entry went to its home
location. -/
structure PlbaState where
  o : Olayer
  home : ℕ → Bool

/-- The data goes to its home location, and not to the journal: a write in place, or a refused
allocation. -/
def StoredWrite.goesHome (P : Params) : StoredWrite → Bool
  | .bio _ => true
  | .ipu b _ => horaeGetSecs b > P.nrJournalBlock
  | .bh _ _ => true

namespace PlbaOp

/-- The write that the call stores, if it is one of those that can. -/
def write? : PlbaOp → Option StoredWrite
  | .call (.submitBio _ b) => some (.bio b)
  | .call (.submitBioIpu _ b forced) => some (.ipu b forced)
  | .submitBh _ buf opf => some (.bh buf opf)
  | _ => none

variable (P : Params)

def run (fuel i : ℕ) (o : Olayer) : PlbaOp → Option Olayer
  | .call op => runClientOp P fuel i o op
  | .submitBh bc buf opf => streamSubmitBh P bc fuel o buf opf i
  | .reset => some (olayerResetStream P o i)

/-- What becomes of the notes: the slot at `tail` gets the new entry.  An entry that is all
zeros asks for nothing. -/
def homeAfter (s : Stream) (home : ℕ → Bool) (op : PlbaOp) : ℕ → Bool :=
  match op, op.write? with
  | .reset, _ => fun _ => true
  | _, some w => if w.stores P then Function.update home s.tail (w.goesHome P) else home
  | _, none => home

end PlbaOp

variable (P : Params)

def PlbaState.step (fuel i : ℕ) (st : PlbaState) (op : PlbaOp) : Option PlbaState :=
  (op.run P fuel i st.o).map fun o' => ⟨o', op.homeAfter P (st.o.stream i) st.home⟩

/-- Whatever the ring holds, its entries are taken for what they say. -/
def PlbaState.start (i : ℕ) (o : Olayer) : PlbaState :=
  ⟨o, fun k => decide (((o.stream i).ometa k).plba = 0)⟩

/-- `plba` tells where the data of an entry went, and so the inner loop of the scanners hands
over exactly the entries whose data is in the journal. -/
structure Separated (i : ℕ) (st : PlbaState) : Prop where
  slots : ∀ k, ((st.o.stream i).ometa k).plba = 0 ↔ st.home k = true
  handed : ∀ b e, e < P.nrOmeta → handOver P (streamOmetaAt (st.o.stream i)) b e
    = some ((slotsOf P ((b + 1) % P.nrOmeta) e).filter fun k => !st.home k)

/-- A request for `nr` blocks with the journal pointer at `ptr` meets block 0: it wraps a
partition that begins there, or the pointer is there. -/
def MeetsBlockZero (i ptr nr : ℕ) : Prop :=
  if P.offInJournal i + P.nrJournalBlock < ptr + nr then P.offInJournal i = 0 else ptr = 0

instance decidableMeetsBlockZero (i ptr nr : ℕ) : Decidable (MeetsBlockZero P i ptr nr) :=
  inferInstanceAs (Decidable
    (if P.offInJournal i + P.nrJournalBlock < ptr + nr then P.offInJournal i = 0 else ptr = 0))

/-- A journaled write is not larger than the partition, and does not meet block 0. -/
def StoredWrite.Safe (i ptr : ℕ) : StoredWrite → Prop
  | .ipu b _ => horaeGetSecs b ≤ P.nrJournalBlock ∧ ¬ MeetsBlockZero P i ptr (horaeGetSecs b)
  | .bio _ => True
  | .bh _ _ => True

instance StoredWrite.decidableSafe (i ptr : ℕ) : (w : StoredWrite) → Decidable (w.Safe P i ptr)
  | .ipu b _ => inferInstanceAs (Decidable (horaeGetSecs b ≤ P.nrJournalBlock ∧ _))
  | .bio _ => isTrue trivial
  | .bh _ _ => isTrue trivial

/-- The write of the call, if it stores an entry, is safe with the journal pointer as it is. -/
def SafePlba (i : ℕ) (st : PlbaState) (op : PlbaOp) : Prop :=
  ∀ w, op.write? = some w → w.stores P = true → w.Safe P i (st.o.stream i).jWritePtr

instance decidableSafePlba (i : ℕ) (st : PlbaState) (op : PlbaOp) :
    Decidable (SafePlba P i st op) :=
  Run.decidableForallSome op.write? fun w =>
    w.stores P = true → w.Safe P i (st.o.stream i).jWritePtr

/-! ### One call -/

variable {P} {fuel i : ℕ} {o o' : Olayer}

/-- The address of a request that fits the partition is 0 exactly when it meets block 0. -/
theorem Stream.allocAddr_eq_zero_iff (hi : i < P.nrStreams) (s : Stream) {nr : ℕ}
    (hnr : nr ≤ P.nrJournalBlock) :
    s.allocAddr P i nr = 0 ↔ MeetsBlockZero P i s.jWritePtr nr := by
  have hlt := P.offInJournal_add_lt hi
  rw [Stream.allocAddr, if_neg (Nat.not_lt.mpr hnr), Stream.allocRoom, Nat.mod_eq_of_lt hlt,
    MeetsBlockZero, Nat.add_comm nr]
  by_cases hwrap : P.offInJournal i + P.nrJournalBlock < s.jWritePtr + nr
  · rw [if_pos hwrap, if_pos hwrap]
    show P.offInJournal i % 2 ^ 32 = 0 ↔ _
    rw [Nat.mod_eq_of_lt (by omega)]
  · rw [if_neg hwrap, if_neg hwrap, Nat.mod_eq_of_lt (by omega)]

theorem separated_iff {st : PlbaState} : Separated P i st ↔
    ∀ k, ((st.o.stream i).ometa k).plba = 0 ↔ st.home k = true := by
  refine ⟨Separated.slots, fun h => ⟨h, fun b e he => ?_⟩⟩
  rw [handOver_eq _ he, between]
  congr 1
  apply List.filter_congr
  intro k _
  show decide (((st.o.stream i).ometa k).plba ≠ 0) = !st.home k
  rw [decide_not, Bool.not_inj_iff, Bool.eq_iff_iff, decide_eq_true_eq]
  exact h k

/-- The flush without a device moves `head` at most. -/
theorem streamBlkdevIssueFlushNoop_cases (hi : i < P.nrStreams) (o : Olayer) :
    streamBlkdevIssueFlushNoop P o i = o ∨ ∃ head,
      streamBlkdevIssueFlushNoop P o i = o.setStream i { o.stream i with head := head } := by
  rw [streamBlkdevIssueFlushNoop, clampSid_of_lt hi]
  by_cases hempty : horaeCount (o.stream i).head (o.stream i).tail P.nrOmeta = 0
  · exact Or.inl (if_pos hempty)
  · exact Or.inr ⟨_, if_neg hempty⟩

/-- A call that is no write leaves the field alone, in every slot. -/
theorem plba_runClientOp (hi : i < P.nrStreams) {op : ClientOp}
    (hop : (PlbaOp.call op).write? = none) (h : runClientOp P fuel i o op = some o') (k : ℕ) :
    ((o'.stream i).ometa k).plba = ((o.stream i).ometa k).plba := by
  have hretiring : Retiring P i (o.stream i) (o'.stream i) →
      ((o'.stream i).ometa k).plba = ((o.stream i).ometa k).plba :=
    fun hr => by rw [hr.sameEntries.ometa]
  cases op with
  | submitBio bc b => cases hop
  | submitBioIpu bc b forced => cases hop
  | allocBlock bc b nr =>
      obtain ⟨r, hr, rfl⟩ := Option.map_eq_some_iff.mp h
      exact hretiring (allocJournalBlock_retiring hr)
  | commitTx txid =>
      -- only the tag of the slot at `tail` is written
      obtain rfl := Option.some.inj h
      rw [streamCommitTx_stream]
      dsimp only
      by_cases hk : k = (o.stream i).tail
      · rw [hk, Function.update_self]
      · rw [Function.update_of_ne hk]
  | flush bdevs =>
      obtain rfl := Option.some.inj h
      rw [(flush_stream o hi bdevs).1]
  | flushNoop =>
      obtain rfl := Option.some.inj h
      obtain heq | ⟨head, heq⟩ := streamBlkdevIssueFlushNoop_cases hi o
      · rw [heq]
      · rw [heq, Olayer.setStream_self]
  | truncate bc => exact hretiring (truncateOrderingLog_retiring h)
  | checkpoint bc nr => exact hretiring (streamDoCheckpoint_retiring h)

variable (P fuel i) in
theorem PlbaOp.run_of_write {op : PlbaOp} {w : StoredWrite} (hw : op.write? = some w) :
    ∃ bc, ∀ o, op.run P fuel i o = w.submit P bc fuel o i := by
  rcases op with op | ⟨bc, buf, opf⟩ | -
  · cases op with
    | submitBio bc b => exact ⟨bc, fun o => by rw [← Option.some.inj hw]; rfl⟩
    | submitBioIpu bc b forced => exact ⟨bc, fun o => by rw [← Option.some.inj hw]; rfl⟩
    | _ => cases hw
  · exact ⟨bc, fun o => by rw [← Option.some.inj hw]; rfl⟩
  · cases hw

theorem PlbaOp.homeAfter_of_write {op : PlbaOp} {w : StoredWrite} (hw : op.write? = some w)
    (s : Stream) (home : ℕ → Bool) : op.homeAfter P s home
      = if w.stores P then Function.update home s.tail (w.goesHome P) else home := by
  rcases op with op | ⟨bc, buf, opf⟩ | -
  · simp only [homeAfter, hw]
  · simp only [homeAfter, hw]
  · cases hw

/-- A write that stores no entry changes no ring. -/
theorem StoredWrite.submit_stream_of_not_stores {w : StoredWrite} {bc : BufferCache}
    (hw : ¬ w.stores P = true) (h : w.submit P bc fuel o i = some o') : o'.stream = o.stream := by
  cases w with
  | bio b =>
      have hpath : horaePath b.opf = false := Bool.eq_false_of_not_eq_true hw
      simp only [submit, streamSubmitBio, hpath, Bool.not_false, if_true] at h
      rw [← Option.some.inj h]
      rfl
  | bh buf opf =>
      have hpath : horaePath opf = false := Bool.eq_false_of_not_eq_true hw
      simp only [submit, streamSubmitBh, hpath, Bool.not_false, if_true] at h
      rw [← Option.some.inj h]
      rfl
  | ipu b forced =>
      simp only [submit, streamSubmitBioIpu] at h
      split_ifs at h with hpath hjournal
      · rw [← Option.some.inj h]
        rfl
      · have hpath : horaePath b.opf = true := by simpa using hpath
        exact absurd (Bool.and_eq_true_iff.mpr ⟨hpath, hjournal⟩) hw
      · rw [← Option.some.inj h]
        rfl

/-- The field of the new entry against where the data went. -/
theorem StoredWrite.args_plba_iff (hi : i < P.nrStreams) (w : StoredWrite) (s : Stream) :
    ((w.args P i s).plba % 2 ^ 32 = 0 ↔ w.goesHome P = true) ↔ w.Safe P i s.jWritePtr := by
  cases w with
  | bio b => exact iff_of_true (iff_of_true rfl rfl) trivial
  | bh buf opf => exact iff_of_true (iff_of_true rfl rfl) trivial
  | ipu b forced =>
      show (s.allocAddr P i (horaeGetSecs b) % 2 ^ 32 = 0 ↔
          decide (horaeGetSecs b > P.nrJournalBlock) = true) ↔
        horaeGetSecs b ≤ P.nrJournalBlock ∧ ¬ MeetsBlockZero P i s.jWritePtr (horaeGetSecs b)
      rw [decide_eq_true_eq]
      rcases Nat.lt_or_ge P.nrJournalBlock (horaeGetSecs b) with hlarge | hfits
      · -- refused: the stored value is not 0, but the data went home
        have haddr : s.allocAddr P i (horaeGetSecs b) = 2 ^ 32 - 1 := if_pos hlarge
        rw [haddr]
        exact iff_of_false (fun h => absurd (h.mpr hlarge) (by decide))
          fun h => absurd h.1 (Nat.not_le.mpr hlarge)
      · have haddr : s.allocAddr P i (horaeGetSecs b) % 2 ^ 32
            = s.allocAddr P i (horaeGetSecs b) := by
          rw [Stream.allocAddr, if_neg (Nat.not_lt.mpr hfits), Nat.mod_mod]
        have hhome : ¬ horaeGetSecs b > P.nrJournalBlock := Nat.not_lt.mpr hfits
        rw [haddr, Stream.allocAddr_eq_zero_iff hi s hfits]
        exact ⟨fun h => ⟨hfits, fun hzero => hhome (h.mp hzero)⟩,
          fun h => iff_of_false h.2 hhome⟩

/-- **One call** that returns keeps `plba` telling exactly when it is safe. -/
theorem separated_step_iff (hi : i < P.nrStreams) {st st' : PlbaState} (h : Separated P i st)
    {op : PlbaOp} (hst' : st.step P fuel i op = some st') :
    Separated P i st' ↔ SafePlba P i st op := by
  obtain ⟨o', ho', rfl⟩ := Option.map_eq_some_iff.mp hst'
  cases hw : op.write? with
  | none =>
      refine iff_of_true ?_ (fun w hw' => by rw [hw] at hw'; cases hw')
      rw [separated_iff]
      intro k
      rcases op with op | ⟨bc, buf, opf⟩ | -
      · simp only [PlbaOp.homeAfter, hw]
        rw [plba_runClientOp hi hw ho' k]
        exact h.slots k
      · cases hw
      · obtain rfl := Option.some.inj ho'
        unfold olayerResetStream
        simp only [clampSid_of_lt hi, Olayer.setStream_self]
        exact iff_of_true rfl rfl
  | some w =>
      obtain ⟨bc, hrun⟩ := PlbaOp.run_of_write P fuel i hw
      have hhome := PlbaOp.homeAfter_of_write (P := P) hw (st.o.stream i) st.home
      rw [hrun] at ho'
      by_cases hstores : w.stores P = true
      · rw [if_pos hstores] at hhome
        have hometa := StoredWrite.submit_ometa (clampSid_of_lt hi) hstores ho'
        -- the slot at `tail` has the new entry, the others are as they were
        have hslot : Separated P i ⟨o', op.homeAfter P (st.o.stream i) st.home⟩ ↔
            ((w.args P i (st.o.stream i)).plba % 2 ^ 32 = 0 ↔ w.goesHome P = true) := by
          rw [separated_iff]
          simp only [hhome, hometa]
          constructor
          · intro hall
            have htail := hall (st.o.stream i).tail
            rw [Function.update_self, Function.update_self] at htail
            exact htail
          · intro hok k
            by_cases hk : k = (st.o.stream i).tail
            · rw [hk, Function.update_self, Function.update_self]
              exact hok
            · rw [Function.update_of_ne hk, Function.update_of_ne hk]
              exact h.slots k
        rw [hslot, StoredWrite.args_plba_iff hi]
        constructor
        · intro hok w' hw' _
          obtain rfl := Option.some.inj (hw.symm.trans hw')
          exact hok
        · intro hsafe
          exact hsafe w hw hstores
      · rw [if_neg hstores] at hhome
        refine iff_of_true ?_ (fun w' hw' hs => ?_)
        · rw [separated_iff, hhome, StoredWrite.submit_stream_of_not_stores hstores ho']
          exact h.slots
        · obtain rfl := Option.some.inj (hw.symm.trans hw')
          exact absurd hs hstores

/-- **The sentinel.**  From any state and through any calls on a stream that return, `plba`
tells the journaled entries from those in place exactly as long as no journaled write is larger
than the partition, finds the journal pointer at 0, or wraps a partition that begins with
block 0. -/
theorem plba_separates_iff (P : Params) (fuel : ℕ) (i : Fin P.nrStreams) (o : Olayer)
    (ops : List PlbaOp) {st : PlbaState}
    (hrun : Run.run (PlbaState.step P fuel i) (.start i o) ops = some st) :
    Run.Along (PlbaState.step P fuel i)
        (fun st op => ∀ st', st.step P fuel i op = some st' → Separated P i st')
        (.start i o) ops ↔
      Run.Along (PlbaState.step P fuel i) (SafePlba P i) (.start i o) ops := by
  have hstart : Separated P i (.start i o) := separated_iff.mpr fun _ => decide_eq_true_iff.symm
  refine Run.along_iff_of_run (I := Separated P i) (fun st op st' h hstep => ?_)
    (fun st op st' _ hkeep hstep => hkeep st' hstep) hstart hrun
  rw [← separated_step_iff i.isLt h hstep]
  constructor
  · intro hall
    exact hall st' hstep
  · intro hsep st₁ hstep₁
    obtain rfl := Option.some.inj (hstep.symm.trans hstep₁)
    exact hsep

/-- A BEGIN in place, a journaled write, an END in place, and a flush. -/
def journaledBetween (n : ℕ) : List PlbaOp :=
  let bc : BufferCache := fun _ _ => .unlocked
  [.call (.submitBio bc ⟨⟨0, 1⟩, 0, 4096, { txSync 0 with tx := false, ordered := true }⟩),
    .call (.submitBioIpu bc (pages 10 n) true),
    .call (.submitBio bc ⟨⟨0, 1⟩, 8, 4096, { txSync 0 with tx := false, txCommit := true }⟩),
    .call (.flush [⟨0, 1⟩])]

/-- In another stream than the first a page is safe. -/
theorem plba_separates_iff_fifth :
    (Run.run (PlbaState.step Params.tiny 2 5) (.start 5 tinyLoaded) (journaledBetween 1)).isSome ∧
      Run.Along (PlbaState.step Params.tiny 2 5)
        (fun st op => ∀ st', st.step Params.tiny 2 5 op = some st' → Separated Params.tiny 5 st')
        (.start 5 tinyLoaded) (journaledBetween 1) := by
  have hsome : (Run.run (PlbaState.step Params.tiny 2 5) (.start 5 tinyLoaded)
      (journaledBetween 1)).isSome := by decide +kernel
  obtain ⟨st, hrun⟩ := Option.isSome_iff_exists.mp hsome
  refine ⟨hsome, (plba_separates_iff Params.tiny 2 ⟨5, by decide⟩ tinyLoaded
    (journaledBetween 1) hrun).mpr ?_⟩
  decide +kernel

/-- What `plba` and the ghost say of slot 1 in the end, and the slots handed over. -/
def PlbaState.slotOne (st : PlbaState) : ℕ × Bool × Option (List (List ℕ)) :=
  (((st.o.stream 0).ometa 1).plba, st.home 1,
    (commitWriteScan Params.tiny (st.o.stream 0)).map (·.map (·.handed)))

/-- In the first stream the journaled entry gets block 0, and `commit_write` passes over it,
while its data is in the journal only; five pages for a partition of four are handed over,
and their data is at home. -/
theorem plba_confused :
    (∃ st, Run.run (PlbaState.step Params.tiny 2 0) (.start 0 tinyLoaded) (journaledBetween 1)
        = some st ∧ st.slotOne = (0, false, some [[]]) ∧ ¬ Separated Params.tiny 0 st) ∧
    ∃ st, Run.run (PlbaState.step Params.tiny 2 0) (.start 0 tinyLoaded) (journaledBetween 5)
        = some st ∧ st.slotOne = (4294967295, true, some [[1]]) ∧
          ¬ Separated Params.tiny 0 st := by
  have hzero : (Run.run (PlbaState.step Params.tiny 2 0) (.start 0 tinyLoaded)
      (journaledBetween 1)).map PlbaState.slotOne = some (0, false, some [[]]) := by
    decide +kernel
  have hlast : (Run.run (PlbaState.step Params.tiny 2 0) (.start 0 tinyLoaded)
      (journaledBetween 5)).map PlbaState.slotOne = some (4294967295, true, some [[1]]) := by
    decide +kernel
  obtain ⟨st, hrun, hst⟩ := Option.map_eq_some_iff.mp hzero
  obtain ⟨st', hrun', hst'⟩ := Option.map_eq_some_iff.mp hlast
  refine ⟨⟨st, hrun, hst, fun h => ?_⟩, st', hrun', hst', fun h => ?_⟩
  · obtain ⟨hplba, hhome⟩ := Prod.mk.inj hst
    have := (h.slots 1).mp hplba
    simp [(Prod.mk.inj hhome).1] at this
  · obtain ⟨hplba, hhome⟩ := Prod.mk.inj hst'
    have := (h.slots 1).mpr (Prod.mk.inj hhome).1
    rw [hplba] at this
    cases this

end CcNvme

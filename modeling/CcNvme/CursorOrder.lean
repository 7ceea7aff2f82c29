/-
CcNvme/CursorOrder.lean

Whether retired entries stay retired.  `stream_blkdev_issue_flush` moves `flushed` to
`tail`, and `truncate_ordering_log` and the journal wraps then move `head` to `flushed`.
`stream_blkdev_issue_flush_noop` moves `head` to `tail` and leaves `flushed` where it was,
behind `head`, from where the next truncation takes `head` back.

A run is observed with the number of the submit that filled each slot, so that entries
keep their identity when a slot is used again.  `retired_stay_retired_iff`: `head` moves
forward, `flushed` stays on the arc from `head` to `tail` and no retired entry is live or
scanned again exactly when each `stream_blkdev_issue_flush_noop` finds the ring empty or
`flushed` at `tail`.
-/
import CcNvme.Client
import CcNvme.Fsync

namespace CcNvme

/-! ### Entries with their numbers -/

/-- A stream in use: `published` counts the entries, `numberAt` says which of them is in
a slot. -/
structure Numbered where
  o : Olayer
  published : ℕ
  numberAt : ℕ → ℕ

/-- The call has returned in state `o'`; `tail` has moved if it published an entry. -/
def Numbered.observe (sid : ℕ) (st : Numbered) (o' : Olayer) : Numbered :=
  if (o'.stream sid).tail = (st.o.stream sid).tail then { st with o := o' }
  else
    { o := o'
      published := st.published + 1
      numberAt := Function.update st.numberAt (st.o.stream sid).tail st.published }

@[simp] theorem Numbered.observe_o (sid : ℕ) (st : Numbered) (o' : Olayer) :
    (st.observe sid o').o = o' := by
  unfold Numbered.observe
  split_ifs <;> rfl

def Numbered.step (P : Params) (fuel sid : ℕ) (st : Numbered) (op : ClientOp) : Option Numbered :=
  (runClientOp P fuel sid st.o op).map (st.observe sid)

/-- The entries of `[head, tail)`. -/
def Numbered.live (P : Params) (sid : ℕ) (st : Numbered) : List ℕ :=
  (slotsOf P (st.o.stream sid).head (st.o.stream sid).tail).map st.numberAt

/-- The entries of `[head, flushed)`, which `commit_write` scans. -/
def Numbered.scanned (P : Params) (sid : ℕ) (st : Numbered) : List ℕ :=
  (slotsOf P (st.o.stream sid).head (st.o.stream sid).flushed).map st.numberAt

/-- `head` moves forward, not beyond `tail`, and `flushed` is then on the arc from `head` to
`tail`. -/
def ForwardStep (P : Params) (fuel sid : ℕ) (st : Numbered) (op : ClientOp) : Prop :=
  ∀ st', st.step P fuel sid op = some st' →
    Circular.dist P.nrOmeta (st.o.stream sid).head (st'.o.stream sid).head
        ≤ Circular.dist P.nrOmeta (st.o.stream sid).head (st.o.stream sid).tail ∧
      Circular.dist P.nrOmeta (st'.o.stream sid).head (st'.o.stream sid).flushed
        ≤ Circular.dist P.nrOmeta (st'.o.stream sid).head (st'.o.stream sid).tail

/-- **The property** of a run: its steps move `head` forward, and an entry that has been
published and is not live is from then on neither live nor scanned. -/
structure RetiredStayRetired (P : Params) (fuel sid : ℕ) (st₀ : Numbered) (ops : List ClientOp) :
    Prop where
  forward : Run.Along (Numbered.step P fuel sid) (ForwardStep P fuel sid) st₀ ops
  retired : ∀ as bs st st', ops = as ++ bs → Run.run (Numbered.step P fuel sid) st₀ as = some st →
    Run.run (Numbered.step P fuel sid) st bs = some st' →
    ∀ i < st.published, i ∉ st.live P sid → i ∉ st'.live P sid ∧ i ∉ st'.scanned P sid

/-- `stream_blkdev_issue_flush_noop` finds the ring empty, or `flushed` at `tail`. -/
def SafeNoop (sid : ℕ) (st : Numbered) : ClientOp → Prop
  | .flushNoop => (st.o.stream sid).head = (st.o.stream sid).tail ∨
      (st.o.stream sid).flushed = (st.o.stream sid).tail
  | _ => True

variable {P : Params} {fuel sid : ℕ} {st st' : Numbered} {H F T : ℕ}

/-! ### Counters -/

/-- The counters of the cursors are numbers of entries. -/
structure NumberedAt (P : Params) (sid : ℕ) (st : Numbered) (H F T : ℕ) : Prop where
  cursors : Cursors P (st.o.stream sid) H F T
  published : st.published = T
  numberAt : ∀ j, H ≤ j → j < T → st.numberAt (j % P.nrOmeta) = j

namespace NumberedAt

theorem mem_live_iff (h : NumberedAt P sid st H F T) {i : ℕ} :
    i ∈ st.live P sid ↔ H ≤ i ∧ i < T := by
  rw [Numbered.live, List.mem_map]
  constructor
  · rintro ⟨x, hx, rfl⟩
    obtain ⟨j, hj, hjT, rfl⟩ := h.cursors.mem_live_iff.mp hx
    rw [h.numberAt j hj hjT]
    exact ⟨hj, hjT⟩
  · rintro ⟨hi, hiT⟩
    exact ⟨_, h.cursors.mem_live_iff.mpr ⟨i, hi, hiT, rfl⟩, h.numberAt i hi hiT⟩

theorem scanned_subset_live (h : NumberedAt P sid st H F T) :
    st.scanned P sid ⊆ st.live P sid :=
  List.map_subset _ h.cursors.flushed_subset_live

/-- The counters after a step that leaves the cursors in order. -/
theorem observe (h : NumberedAt P sid st H F T) {o' : Olayer} {H' F' T' : ℕ} (hH : H ≤ H')
    (hHT : H' ≤ T) (hT : T' = T ∨ T' = T + 1) (hcur : Cursors P (o'.stream sid) H' F' T') :
    NumberedAt P sid (st.observe sid o') H' F' T' := by
  have htail : (st.o.stream sid).tail = T % P.nrOmeta := h.cursors.tail_eq
  unfold Numbered.observe
  rcases hT with rfl | rfl
  · rw [if_pos (hcur.tail_eq.trans htail.symm)]
    exact ⟨hcur, h.published, fun j hj => h.numberAt j (hH.trans hj)⟩
  · have hne : (o'.stream sid).tail ≠ (st.o.stream sid).tail := by
      rw [hcur.tail_eq, htail]
      exact (hcur.tail_not_live hHT (Nat.lt_succ_self T)).symm
    rw [if_neg hne]
    refine ⟨hcur, congrArg (· + 1) h.published, fun j hj hjT => ?_⟩
    show Function.update st.numberAt (st.o.stream sid).tail st.published (j % P.nrOmeta) = j
    rw [htail, h.published]
    rcases Nat.lt_succ_iff_lt_or_eq.mp hjT with hlt | rfl
    · rw [Function.update_of_ne (h.cursors.tail_not_live (hH.trans hj) hlt)]
      exact h.numberAt j (hH.trans hj) hlt
    · rw [Function.update_self]

end NumberedAt

/-! ### The two flushes -/

/-- A cursor that coincides with `tail` has its counter. -/
theorem Cursors.counter_eq {s : Stream} (h : Cursors P s H F T) {x i : ℕ} (hi : H ≤ i)
    (hiT : i ≤ T) (hx : x = i % P.nrOmeta) (he : x = s.tail) : i = T := by
  refine Circular.mod_inj_of_window hi ?_ (h.head_le.trans h.flushed_le) h.window ?_
  · have := h.window
    omega
  · rw [← hx, he, h.tail_eq]

theorem flushNoop_eq (o : Olayer) (hsid : sid < P.nrStreams)
    (hcur : Cursors P (o.stream sid) H F T) :
    streamBlkdevIssueFlushNoop P o sid
      = if T - H = 0 then o
        else o.setStream sid { o.stream sid with head := (o.stream sid).tail } := by
  rw [hcur.atRest.flushNoop_eq hsid, hcur.count_eq]

/-- `stream_blkdev_issue_flush_noop` on a stream whose entries are all flushed. -/
theorem Cursors.flushNoop {o : Olayer} (hsid : sid < P.nrStreams)
    (h : Cursors P (o.stream sid) H F T)
    (hsafe : (o.stream sid).head = (o.stream sid).tail ∨
      (o.stream sid).flushed = (o.stream sid).tail) :
    Cursors P ((streamBlkdevIssueFlushNoop P o sid).stream sid) T T T := by
  have hle := h.head_le.trans h.flushed_le
  have hF : F = T := by
    rcases hsafe with hhead | hflushed
    · have := h.counter_eq le_rfl hle h.head_eq hhead
      have := h.head_le
      have := h.flushed_le
      omega
    · exact h.counter_eq h.head_le h.flushed_le h.flushed_eq hflushed
  subst hF
  rw [flushNoop_eq o hsid h]
  split_ifs with hHT
  · obtain rfl : H = F := by omega
    exact h
  · have := nrOmeta_pos (P := P)
    rw [Olayer.setStream_self]
    exact ⟨le_rfl, le_rfl, by omega, h.tail_eq, h.flushed_eq, h.tail_eq, h.watermark_eq⟩

/-- Otherwise `flushed` is left outside the arc from `head` to `tail`. -/
theorem flushNoop_unsafe {o : Olayer} (hsid : sid < P.nrStreams)
    (h : Cursors P (o.stream sid) H F T) (hhead : (o.stream sid).head ≠ (o.stream sid).tail)
    (hflushed : (o.stream sid).flushed ≠ (o.stream sid).tail) :
    ¬ Circular.dist P.nrOmeta ((streamBlkdevIssueFlushNoop P o sid).stream sid).head
          ((streamBlkdevIssueFlushNoop P o sid).stream sid).flushed
        ≤ Circular.dist P.nrOmeta ((streamBlkdevIssueFlushNoop P o sid).stream sid).head
          ((streamBlkdevIssueFlushNoop P o sid).stream sid).tail := by
  have hle := h.head_le.trans h.flushed_le
  have hHT : T - H ≠ 0 := by
    intro hzero
    obtain rfl : H = T := by omega
    exact hhead (h.head_eq.trans h.tail_eq.symm)
  rw [flushNoop_eq o hsid h, if_neg hHT, Olayer.setStream_self]
  intro hle
  rw [Circular.dist_self, Nat.le_zero] at hle
  exact hflushed ((Circular.dist_eq_zero_iff h.inRing.tail_lt h.inRing.flushed_lt).mp hle).symm

/-! ### Steps -/

/-- **One step** that meets the condition moves the counters forward. -/
theorem NumberedAt.safe_step (hsid : sid < P.nrStreams) (h : NumberedAt P sid st H F T)
    {op : ClientOp} (hsafe : SafeNoop sid st op) (hstep : st.step P fuel sid op = some st') :
    ∃ H' F' T', H ≤ H' ∧ H' ≤ T ∧ (T' = T ∨ T' = T + 1) ∧ NumberedAt P sid st' H' F' T' := by
  obtain ⟨o', ho', rfl⟩ := Option.map_eq_some_iff.mp hstep
  by_cases hop : op = .flushNoop
  · subst hop
    obtain rfl := Option.some.inj ho'
    have hle := h.cursors.head_le.trans h.cursors.flushed_le
    exact ⟨T, T, T, hle, le_rfl, Or.inl rfl,
      h.observe hle le_rfl (Or.inl rfl) (h.cursors.flushNoop hsid hsafe)⟩
  · obtain ⟨H', F', T', hH, hHT, hT, hcur⟩ := runClientOp_cursors hsid h.cursors hop ho'
    exact ⟨H', F', T', hH, hHT, hT, h.observe hH hHT hT hcur⟩

/-- The entries are numbered along the ring. -/
def NumberedInv (P : Params) (sid : ℕ) (st : Numbered) : Prop := ∃ H F T, NumberedAt P sid st H F T

theorem NumberedInv.step (hsid : sid < P.nrStreams) (h : NumberedInv P sid st) {op : ClientOp}
    (hsafe : SafeNoop sid st op) (hstep : st.step P fuel sid op = some st') :
    NumberedInv P sid st' := by
  obtain ⟨H, F, T, h⟩ := h
  obtain ⟨H', F', T', -, -, -, h'⟩ := h.safe_step hsid hsafe hstep
  exact ⟨H', F', T', h'⟩

/-- A step keeps the order of the cursors exactly when it meets the condition. -/
theorem safeNoop_iff (fuel : ℕ) (hsid : sid < P.nrStreams) (h : NumberedInv P sid st)
    (op : ClientOp) :
    SafeNoop sid st op ↔ ForwardStep P fuel sid st op := by
  obtain ⟨H, F, T, h⟩ := h
  constructor
  · intro hsafe st' hstep
    obtain ⟨H', F', T', hH, hHT, -, h'⟩ := h.safe_step hsid hsafe hstep
    have hwindow := h.cursors.window
    have hhead : Circular.dist P.nrOmeta (st.o.stream sid).head (st'.o.stream sid).head
        = H' - H := by
      rw [h.cursors.head_eq, h'.cursors.head_eq]
      exact Circular.dist_mod hH (by omega)
    have hflushed : Circular.dist P.nrOmeta (st'.o.stream sid).head (st'.o.stream sid).flushed
        = F' - H' := by
      have := h'.cursors.flushed_le
      have := h'.cursors.window
      rw [h'.cursors.head_eq, h'.cursors.flushed_eq]
      exact Circular.dist_mod h'.cursors.head_le (by omega)
    rw [hhead, hflushed, h.cursors.dist_eq, h'.cursors.dist_eq]
    exact ⟨Nat.sub_le_sub_right hHT H, Nat.sub_le_sub_right h'.cursors.flushed_le H'⟩
  · intro hforward
    cases op with
    | flushNoop =>
        by_contra hunsafe
        obtain ⟨hhead, hflushed⟩ := not_or.mp hunsafe
        have harc := (hforward _ rfl).2
        rw [Numbered.observe_o] at harc
        exact flushNoop_unsafe hsid h.cursors hhead hflushed harc
    | _ => trivial

/-! ### Runs -/

/-- **A run** whose steps all meet the condition moves the counters forward. -/
theorem NumberedAt.run (hsid : sid < P.nrStreams) {ops : List ClientOp}
    (h : NumberedAt P sid st H F T)
    (hsafe : Run.Along (Numbered.step P fuel sid) (SafeNoop sid) st ops)
    (hrun : Run.run (Numbered.step P fuel sid) st ops = some st') :
    ∃ H' F' T', H ≤ H' ∧ NumberedAt P sid st' H' F' T' := by
  refine Run.run_preserves (I := fun st' => ∃ H' F' T', H ≤ H' ∧ NumberedAt P sid st' H' F' T')
    (fun s op s' hs hC hstep => ?_) ⟨H, F, T, le_rfl, h⟩ hsafe hrun
  obtain ⟨H₁, F₁, T₁, hle, h₁⟩ := hs
  obtain ⟨H₂, F₂, T₂, hle₂, -, -, h₂⟩ := h₁.safe_step hsid hC hstep
  exact ⟨H₂, F₂, T₂, hle.trans hle₂, h₂⟩

/-- A stream with nothing live; its entries are numbered from the slot of the first. -/
def Numbered.init (sid : ℕ) (o : Olayer) : Numbered := ⟨o, (o.stream sid).tail, fun _ => 0⟩

theorem numberedAt_init {o : Olayer} (h : Idle P (o.stream sid)) :
    NumberedAt P sid (Numbered.init sid o) (o.stream sid).tail (o.stream sid).tail
      (o.stream sid).tail :=
  ⟨h.cursors, rfl, fun _ h₁ h₂ => absurd h₂ (Nat.not_lt.mpr h₁)⟩

/-- **Retired entries stay retired** exactly when each `stream_blkdev_issue_flush_noop` finds
the ring empty or everything in it flushed; and such a run does not get stuck. -/
theorem retired_stay_retired_iff (P : Params) (fuel sid : ℕ) (o : Olayer)
    (hsid : sid < P.nrStreams) (hidle : Idle P (o.stream sid)) (ops : List ClientOp) :
    (RetiredStayRetired P fuel sid (Numbered.init sid o) ops ↔
      Run.Along (Numbered.step P fuel sid) (SafeNoop sid) (Numbered.init sid o) ops) ∧
    (2 ≤ P.nrOmeta → 2 ≤ fuel →
      Run.Along (Numbered.step P fuel sid) (SafeNoop sid) (Numbered.init sid o) ops →
      ∃ st, Run.run (Numbered.step P fuel sid) (Numbered.init sid o) ops = some st) := by
  have hinit := numberedAt_init hidle
  have hiff : Run.Along (Numbered.step P fuel sid) (SafeNoop sid) (Numbered.init sid o) ops ↔
      Run.Along (Numbered.step P fuel sid) (ForwardStep P fuel sid) (Numbered.init sid o) ops :=
    Run.along_iff (fun _ op h => safeNoop_iff fuel hsid h op)
      (fun _ _ _ h hsafe hstep => NumberedInv.step hsid h hsafe hstep) ⟨_, _, _, hinit⟩ ops
  refine ⟨⟨fun h => hiff.mpr h.forward, fun hsafe => ⟨hiff.mp hsafe, ?_⟩⟩, ?_⟩
  · rintro as bs st st' rfl has hbs i hi hretired
    obtain ⟨hsafe₁, hsafe₂⟩ := Run.along_append hsafe has
    obtain ⟨H, F, T, -, hst⟩ := hinit.run hsid hsafe₁ has
    obtain ⟨H', F', T', hle, hst'⟩ := hst.run hsid hsafe₂ hbs
    -- the entry is below the counter of `head`, which only grows
    have hlow : i < H := by
      by_contra hge
      exact hretired (hst.mem_live_iff.mpr ⟨Nat.not_lt.mp hge, hst.published ▸ hi⟩)
    have hlive : i ∉ st'.live P sid := fun hmem => by
      have := (hst'.mem_live_iff.mp hmem).1
      omega
    exact ⟨hlive, fun hmem => hlive (hst'.scanned_subset_live hmem)⟩
  · intro hN hfuel hsafe
    obtain ⟨st, hrun, -⟩ := Run.run_invariant (I := NumberedInv P sid) (fun s op hs hC => by
      obtain ⟨H, F, T, h⟩ := hs
      obtain ⟨o', ho', -⟩ := runClientOp_atRest hN hfuel hsid h.cursors.atRest op
      have hstep := congrArg (Option.map (s.observe sid)) ho'
      exact ⟨_, hstep, NumberedInv.step hsid ⟨H, F, T, h⟩ hC hstep⟩) ⟨_, _, _, hinit⟩ hsafe
    exact ⟨st, hrun⟩

/-- A one-page submit with no buffer locked. -/
def tinyWrite (lba : ℕ) : ClientOp := .submitBioIpu (fun _ _ => .unlocked) (pages lba 1) true

def noopFlush : List ClientOp := [tinyWrite 10, tinyWrite 11, .flushNoop]

/-- After two submits the noop flush leaves `flushed` behind `head`, and a truncation brings
both entries back. -/
theorem noop_flush_revives_entries :
    (∃ st, Run.run (Numbered.step Params.tiny 2 5) (Numbered.init 5 tinyLoaded) noopFlush
        = some st ∧ (st.o.stream 5).head = 2 ∧ (st.o.stream 5).flushed = 0 ∧
      (st.o.stream 5).tail = 2 ∧ st.published = 2 ∧ st.live Params.tiny 5 = []) ∧
    ∃ st, Run.run (Numbered.step Params.tiny 2 5) (Numbered.init 5 tinyLoaded)
        (noopFlush ++ [.truncate fun _ _ => .unlocked]) = some st ∧
      (st.o.stream 5).head = 0 ∧ st.live Params.tiny 5 = [0, 1] := by
  decide +kernel

instance (sid : ℕ) (st : Numbered) : (op : ClientOp) → Decidable (SafeNoop sid st op)
  | .flushNoop => inferInstanceAs (Decidable (_ ∨ _))
  | .submitBio _ _ | .submitBioIpu _ _ _ | .allocBlock _ _ _ | .commitTx _ | .flush _
  | .truncate _ | .checkpoint _ _ => isTrue trivial

/-- Submits with a flush before the noop flush, in a ring of four that is used twice. -/
def flushedNoop : List ClientOp :=
  [tinyWrite 10, tinyWrite 11, .flush [⟨0, 1⟩], .flushNoop, tinyWrite 12, .commitTx 1,
    tinyWrite 13, .truncate fun _ _ => .unlocked, .flush [⟨0, 1⟩], .flushNoop, .flushNoop,
    tinyWrite 14]

theorem retired_stay_retired_iff_flushedNoop :
    Idle Params.tiny (tinyLoaded.stream 5) ∧
      (∃ st, Run.run (Numbered.step Params.tiny 2 5) (Numbered.init 5 tinyLoaded) flushedNoop
        = some st ∧ st.published = 5 ∧ st.live Params.tiny 5 = [4]) ∧
      RetiredStayRetired Params.tiny 2 5 (Numbered.init 5 tinyLoaded) flushedNoop := by
  have hidle : Idle Params.tiny (tinyLoaded.stream 5) := ⟨by decide, rfl, rfl, rfl⟩
  have hsafe : Run.Along (Numbered.step Params.tiny 2 5) (SafeNoop 5) (Numbered.init 5 tinyLoaded)
      flushedNoop := by decide +kernel
  exact ⟨hidle, by decide +kernel,
    (retired_stay_retired_iff Params.tiny 2 5 tinyLoaded (by decide) hidle flushedNoop).1.mpr hsafe⟩

end CcNvme

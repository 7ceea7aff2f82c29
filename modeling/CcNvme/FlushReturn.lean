/-
CcNvme/FlushReturn.lean

What the caller of `stream_blkdev_issue_flush` may conclude from a returned 0.  The call
returns at once when the ring is empty, although most data never has an entry in the ring:
new blocks are written by `submit_bio` (`ext4_io_submit`), and a checkpoint empties the ring
under entries whose data nobody has flushed.  Otherwise a flush is issued to each device, its
result is not looked at, and the returned variable `ret` is never assigned.

The machine has the writes of all threads, with or without an entry, and any number of calls
in progress; between their steps the ring changes in any way.  Each call that has returned
leaves a record of the writes it should have made durable and of those that are not.
`flush_return_covers` says when there are none: a call that finds the ring empty must have
nothing to do, and where a device flush of another call fails, the writes that it was for must
be among those that a flush of some other call was for, which succeeded in time.
-/
import CcNvme.Durability
import CcNvme.CheckpointRegion

namespace CcNvme

/-! ### The machine -/

/-- A call of `stream_blkdev_issue_flush` in progress; its `upto` is here the value of `tail`
that was read. -/
structure PendingFlush where
  call : FlushCall
  /-- the writes to the listed devices that had completed, and were not durable, when the call
  began -/
  atRisk : List ℕ
  /-- a device flush has failed -/
  failed : Bool
  /-- the devices of which a flush has succeeded -/
  flushed : List BlockDevice
  deriving DecidableEq, Repr

/-- A call that has returned. -/
structure FlushReturn where
  ret : ℤ
  /-- it did so at once, with no device to flush or with an empty ring -/
  early : Bool
  failed : Bool
  atRisk : List ℕ
  /-- the writes of `atRisk` to devices of which no flush by the call has succeeded -/
  exposed : List ℕ
  /-- the device flushes of all calls that had succeeded by then -/
  succeeded : List DevFlush
  /-- the writes of `atRisk` that were not durable on return -/
  lacking : List ℕ
  deriving DecidableEq, Repr

structure ReturnState where
  s : Stream
  /-- every write sent to a device, with or without an entry in the ring -/
  writes : List EntryBio
  calls : List PendingFlush
  /-- the device flushes that have succeeded -/
  succeeded : List DevFlush
  returned : List FlushReturn

inductive ReturnOp where
  | write (d : BlockDevice)
  /-- write `i` completes -/
  | complete (i : ℕ)
  /-- submits, commits and checkpoints: the ring is `s` afterwards -/
  | ring (s : Stream)
  /-- the call begins, and returns at once or reads `tail` -/
  | flushBegin (bdevs : List BlockDevice)
  /-- the `k`-th call issues its next device flush -/
  | issue (k : ℕ)
  /-- the `j`-th device flush of the `k`-th call finishes -/
  | finish (k j : ℕ) (ok : Bool)
  /-- the `k`-th call has waited for all, moves `flushed` and returns whatever is in `ret` -/
  | flushEnd (k : ℕ) (ret : ℤ)

/-- The writes to one of the devices that have completed and are not durable. -/
def atRiskOn (writes : List EntryBio) (bdevs : List BlockDevice) : List ℕ :=
  (List.range writes.length).filter fun i =>
    (writes[i]?).any fun b => b.dev ∈ bdevs ∧ b.status = .completed

/-- Those of the writes `is` that are not durable. -/
def lackingOf (writes : List EntryBio) (is : List ℕ) : List ℕ :=
  is.filter fun i => !(writes[i]?).any fun b => b.status = .durable

/-- Those of the writes `is` that are for none of the devices. -/
def exposedOf (writes : List EntryBio) (devs : List BlockDevice) (is : List ℕ) : List ℕ :=
  is.filter fun i => !(writes[i]?).any fun b => b.dev ∈ devs

def ReturnState.step (P : Params) (wc : BlockDevice → Bool) (st : ReturnState) :
    ReturnOp → Option ReturnState
  | .write d => some { st with writes := st.writes ++ [⟨d, .sent⟩] }
  | .complete i => some { st with writes := st.writes.modify i EntryBio.complete }
  | .ring s => some { st with s := s }
  | .flushBegin bdevs =>
      let risk := atRiskOn st.writes bdevs
      if bdevs = [] ∨ horaeCount st.s.head st.s.tail P.nrOmeta = 0 then
        some { st with
          returned := st.returned ++ [⟨0, true, false, risk, risk, st.succeeded, risk⟩] }
      else
        some { st with
          calls := st.calls ++ [⟨⟨st.s.tail % 2 ^ 32, [], bdevs⟩, risk, false, []⟩] }
  | .issue k =>
      (st.calls[k]?).bind fun c =>
        match c.call.todo with
        | [] => none
        | d :: rest =>
            if c.call.issued.all fun f => !c.call.waits wc f.bdev || f.finished then
              some { st with
                calls := st.calls.set k { c with call := c.call.issue st.writes d rest } }
            else none
  | .finish k j ok =>
      (st.calls[k]?).bind fun c =>
        (c.call.issued[j]?).bind fun f =>
          if f.finished then none
          else
            if ok then
              some { st with
                writes := markDurable st.writes f.covers
                calls := st.calls.set k
                  { c with call := c.call.finish j f, flushed := f.bdev :: c.flushed }
                succeeded := f :: st.succeeded }
            else
              some { st with
                calls := st.calls.set k { c with call := c.call.finish j f, failed := true } }
  | .flushEnd k ret =>
      (st.calls[k]?).bind fun c =>
        if c.call.todo = [] ∧ c.call.issued.all (·.finished) then
          some { st with
            s := { st.s with flushed := c.call.upto }
            calls := st.calls.eraseIdx k
            -- the results of the device flushes have no part in `ret`
            returned := st.returned ++
              [⟨ret, false, c.failed, c.atRisk, exposedOf st.writes c.flushed c.atRisk,
                st.succeeded, lackingOf st.writes c.atRisk⟩] }
        else none

/-- **The property.**  A call that returns 0 has left nothing volatile. -/
def FlushReturn.Covers (r : FlushReturn) : Prop := r.ret = 0 → r.lacking = []

/-! ### The invariant -/

/-- A flush that has succeeded was for write `e`. -/
def CoveredBy (succeeded : List DevFlush) (e : ℕ) : Prop := ∃ f ∈ succeeded, e ∈ f.covers

/-- What holds of a call in progress. -/
structure PendingFlush.Ok (writes : List EntryBio) (succeeded : List DevFlush)
    (c : PendingFlush) : Prop where
  /-- a write at risk gets durable by a flush that is for it -/
  risk : ∀ e ∈ c.atRisk, ∃ b, writes[e]? = some b ∧
    (b.status = .completed ∨ b.status = .durable ∧ CoveredBy succeeded e)
  /-- the flushes of the call are for all writes at risk on their device -/
  covers : ∀ f ∈ c.call.issued, ∀ e ∈ c.atRisk, ∀ b, writes[e]? = some b → b.dev = f.bdev →
    e ∈ f.covers
  valid : ∀ f ∈ c.call.issued, ∀ e ∈ f.covers, e < writes.length
  flushed : ∀ e ∈ c.atRisk, ∀ b, writes[e]? = some b → b.dev ∈ c.flushed → b.status = .durable
  /-- every device with a write at risk is still to be flushed, or has been, or the call has
  failed -/
  asked : ∀ e ∈ c.atRisk, ∀ b, writes[e]? = some b → b.dev ∈ c.call.todo ∨
    ∃ f ∈ c.call.issued, f.bdev = b.dev ∧
      (f.finished = true → b.dev ∈ c.flushed ∨ c.failed = true)

/-- What the record of a call says. -/
structure FlushReturn.Sound (r : FlushReturn) : Prop where
  early : r.early = true → r.ret = 0 ∧ r.lacking = r.atRisk
  late : r.early = false → (r.lacking = [] ↔ ∀ e ∈ r.exposed, CoveredBy r.succeeded e)
  unfailed : r.early = false → r.failed = false → r.exposed = []

structure ReturnInv (st : ReturnState) : Prop where
  calls : ∀ c ∈ st.calls, c.Ok st.writes st.succeeded
  succeeded : ∀ e, CoveredBy st.succeeded e → ∃ b, st.writes[e]? = some b ∧ b.status = .durable
  returned : ∀ r ∈ st.returned, r.Sound

variable {P : Params} {wc : BlockDevice → Bool} {st st' : ReturnState}

theorem mem_atRiskOn {writes : List EntryBio} {bdevs : List BlockDevice} {e : ℕ}
    (h : e ∈ atRiskOn writes bdevs) :
    ∃ b, writes[e]? = some b ∧ b.dev ∈ bdevs ∧ b.status = .completed := by
  obtain ⟨-, hany⟩ := List.mem_filter.mp h
  rcases hb : writes[e]? with - | b
  · rw [hb] at hany
    cases hany
  · rw [hb] at hany
    exact ⟨b, rfl, of_decide_eq_true hany⟩

theorem lackingOf_eq_nil_iff {writes : List EntryBio} {is : List ℕ} :
    lackingOf writes is = [] ↔ ∀ e ∈ is, ∃ b, writes[e]? = some b ∧ b.status = .durable := by
  rw [lackingOf, List.filter_eq_nil_iff]
  refine forall_congr' fun e => forall_congr' fun _ => ?_
  rcases writes[e]? with - | b <;> simp

theorem mem_exposedOf {writes : List EntryBio} {devs : List BlockDevice} {is : List ℕ} {e : ℕ}
    {b : EntryBio} (hb : writes[e]? = some b) :
    e ∈ exposedOf writes devs is ↔ e ∈ is ∧ b.dev ∉ devs := by
  rw [exposedOf, List.mem_filter, hb]
  simp

/-- The writes have gone on, and those that have become durable are covered. -/
structure Progress (writes writes' : List EntryBio) (succeeded succeeded' : List DevFlush) :
    Prop where
  forward : ∀ (e : ℕ) (b : EntryBio), writes[e]? = some b →
    ∃ b' : EntryBio, writes'[e]? = some b' ∧ b'.dev = b.dev ∧
      (b.status = .durable → b'.status = .durable) ∧
      (b.status = .completed → b'.status = .completed ∨
        b'.status = .durable ∧ CoveredBy succeeded' e)
  kept : ∀ e, CoveredBy succeeded e → CoveredBy succeeded' e

namespace PendingFlush.Ok

variable {writes writes' : List EntryBio} {succeeded succeeded' : List DevFlush}
  {c : PendingFlush}

/-- A write at risk is there, and on the same device, when the writes have gone on. -/
theorem back (h : c.Ok writes succeeded) (hp : Progress writes writes' succeeded succeeded')
    {e : ℕ} (he : e ∈ c.atRisk) {b' : EntryBio} (hb' : writes'[e]? = some b') :
    ∃ b, writes[e]? = some b ∧ b'.dev = b.dev ∧ (b.status = .durable → b'.status = .durable) := by
  obtain ⟨b, hb, -⟩ := h.risk e he
  obtain ⟨b₁, hb₁, hdev, hdurable, -⟩ := hp.forward e b hb
  obtain rfl := Option.some.inj (hb₁.symm.trans hb')
  exact ⟨b, hb, hdev, hdurable⟩

theorem progress (h : c.Ok writes succeeded) (hp : Progress writes writes' succeeded succeeded') :
    c.Ok writes' succeeded' where
  risk := by
    intro e he
    obtain ⟨b, hb, hstatus⟩ := h.risk e he
    obtain ⟨b', hb', -, hdurable, hcompleted⟩ := hp.forward e b hb
    refine ⟨b', hb', ?_⟩
    rcases hstatus with hs | ⟨hs, hcovered⟩
    · exact hcompleted hs
    · exact Or.inr ⟨hdurable hs, hp.kept e hcovered⟩
  covers := by
    intro f hf e he b' hb' hdev
    obtain ⟨b, hb, hsame, -⟩ := h.back hp he hb'
    exact h.covers f hf e he b hb (hsame ▸ hdev)
  valid := by
    intro f hf e he
    obtain ⟨b', hb', -⟩ := hp.forward e _ (List.getElem?_eq_getElem (h.valid f hf e he))
    exact (List.getElem?_eq_some_iff.mp hb').1
  flushed := by
    intro e he b' hb' hdev
    obtain ⟨b, hb, hsame, hdurable⟩ := h.back hp he hb'
    exact hdurable (h.flushed e he b hb (hsame ▸ hdev))
  asked := by
    intro e he b' hb'
    obtain ⟨b, hb, hsame, -⟩ := h.back hp he hb'
    rw [hsame]
    exact h.asked e he b hb

/-- The flush of a device is issued, for what has completed there by then. -/
theorem issue (h : c.Ok writes succeeded) {d : BlockDevice} {rest : List BlockDevice}
    (htodo : c.call.todo = d :: rest) :
    PendingFlush.Ok writes succeeded { c with call := c.call.issue writes d rest } where
  risk := h.risk
  covers := by
    intro f hf e he b hb hdev
    rcases List.mem_append.mp hf with hf | hf
    · exact h.covers f hf e he b hb hdev
    · obtain rfl := List.mem_singleton.mp hf
      obtain ⟨b₁, hb₁, hstatus⟩ := h.risk e he
      obtain rfl := Option.some.inj (hb.symm.trans hb₁)
      have hdone : b.done = true := by
        rcases hstatus with hs | ⟨hs, -⟩ <;> simp [EntryBio.done, hs]
      show e ∈ completedOn writes d
      rw [show d = b.dev from hdev.symm]
      exact mem_completedOn hb hdone
  valid := by
    intro f hf e he
    rcases List.mem_append.mp hf with hf | hf
    · exact h.valid f hf e he
    · obtain rfl := List.mem_singleton.mp hf
      exact List.mem_range.mp (List.mem_of_mem_filter he)
  flushed := h.flushed
  asked := by
    intro e he b hb
    rcases h.asked e he b hb with hmem | ⟨f, hf, hdev, hfinished⟩
    · rw [htodo] at hmem
      rcases List.mem_cons.mp hmem with rfl | hmem
      · refine Or.inr ⟨_, List.mem_append_right _ (List.mem_singleton_self _), rfl, fun h => ?_⟩
        cases h
      · exact Or.inl hmem
    · exact Or.inr ⟨f, List.mem_append_left _ hf, hdev, hfinished⟩

/-- What was asked of a flush that has finished. -/
theorem asked_finish (h : c.Ok writes succeeded) {j : ℕ} {f : DevFlush}
    (hf : c.call.issued[j]? = some f) {flushed : List BlockDevice} {failed : Bool}
    (hmono : ∀ d, d ∈ c.flushed ∨ c.failed = true → d ∈ flushed ∨ failed = true)
    (hdone : f.bdev ∈ flushed ∨ failed = true) {e : ℕ} (he : e ∈ c.atRisk) {b : EntryBio}
    (hb : writes[e]? = some b) :
    b.dev ∈ (c.call.finish j f).todo ∨ ∃ g ∈ (c.call.finish j f).issued, g.bdev = b.dev ∧
      (g.finished = true → b.dev ∈ flushed ∨ failed = true) := by
  obtain ⟨hj, hget⟩ := List.getElem?_eq_some_iff.mp hf
  rcases h.asked e he b hb with hmem | ⟨g, hg, hdev, hfinished⟩
  · exact Or.inl hmem
  · refine Or.inr ?_
    by_cases hgf : g = f
    · subst hgf
      exact ⟨_, List.mem_set hj _, hdev, fun _ => hdev ▸ hdone⟩
    · obtain ⟨i, hi, hgi⟩ := List.getElem_of_mem hg
      have hij : j ≠ i := by
        rintro rfl
        exact hgf (hgi.symm.trans hget)
      refine ⟨g, ?_, hdev, fun hfin => hmono _ (hfinished hfin)⟩
      refine List.mem_of_getElem? (i := i) ?_
      show (c.call.issued.set j _)[i]? = some g
      rw [List.getElem?_set_ne hij, List.getElem?_eq_getElem hi, hgi]

/-- The flush `f` of the call has finished, and is for what it was for. -/
theorem issued_finish {p : DevFlush → Prop} {j : ℕ} {f : DevFlush}
    (hf : c.call.issued[j]? = some f) (hp : ∀ g ∈ c.call.issued, p g)
    (hfinish : p f → p { f with finished := true }) :
    ∀ g ∈ (c.call.finish j f).issued, p g := by
  intro g hg
  rcases List.mem_or_eq_of_mem_set hg with hg | rfl
  · exact hp g hg
  · exact hfinish (hp f (List.mem_of_getElem? hf))

theorem failed (h : c.Ok writes succeeded) {j : ℕ} {f : DevFlush}
    (hf : c.call.issued[j]? = some f) :
    PendingFlush.Ok writes succeeded { c with call := c.call.finish j f, failed := true } where
  risk := h.risk
  covers := issued_finish hf h.covers id
  valid := issued_finish hf h.valid id
  flushed := h.flushed
  asked := fun _ he _ hb => h.asked_finish hf (fun _ _ => Or.inr rfl) (Or.inr rfl) he hb

/-- A flush that succeeds makes durable what it is for, and with it all that was at risk on its
device. -/
theorem succeeds (h : c.Ok writes succeeded) {j : ℕ} {f : DevFlush}
    (hf : c.call.issued[j]? = some f)
    (hp : Progress writes (markDurable writes f.covers) succeeded (f :: succeeded)) :
    PendingFlush.Ok (markDurable writes f.covers) (f :: succeeded)
      { c with call := c.call.finish j f, flushed := f.bdev :: c.flushed } where
  risk := (h.progress hp).risk
  covers := issued_finish hf (h.progress hp).covers id
  valid := issued_finish hf (h.progress hp).valid id
  flushed := by
    intro e he b' hb' hdev
    rcases List.mem_cons.mp hdev with hdev | hdev
    · obtain ⟨b, hb, hsame, -⟩ := h.back hp he hb'
      have hcov := h.covers f (List.mem_of_getElem? hf) e he b hb (hsame ▸ hdev)
      have hdurable := getElem?_markDurable f.covers hb
      rw [if_pos hcov] at hdurable
      exact (Option.some.inj (hb'.symm.trans hdurable)) ▸ rfl
    · exact (h.progress hp).flushed e he b' hb' hdev
  asked := fun _ he _ hb => (h.progress hp).asked_finish hf
    (fun _ hd => hd.imp_left (List.mem_cons_of_mem _)) (Or.inl List.mem_cons_self) he hb

/-- The record of the call when it returns. -/
theorem sound (h : c.Ok writes succeeded)
    (hsucceeded : ∀ e, CoveredBy succeeded e → ∃ b, writes[e]? = some b ∧ b.status = .durable)
    (htodo : c.call.todo = []) (hall : c.call.issued.all (·.finished) = true) (ret : ℤ) :
    FlushReturn.Sound ⟨ret, false, c.failed, c.atRisk, exposedOf writes c.flushed c.atRisk,
      succeeded, lackingOf writes c.atRisk⟩ where
  early := by
    intro h
    cases h
  late := by
    intro _
    show lackingOf writes c.atRisk = [] ↔
      ∀ e ∈ exposedOf writes c.flushed c.atRisk, CoveredBy succeeded e
    rw [lackingOf_eq_nil_iff]
    constructor
    · intro hdurable e he
      obtain ⟨b, hb, hs⟩ := hdurable e (List.mem_of_mem_filter he)
      obtain ⟨b₁, hb₁, hstatus⟩ := h.risk e (List.mem_of_mem_filter he)
      obtain rfl := Option.some.inj (hb.symm.trans hb₁)
      rcases hstatus with hs' | ⟨-, hcovered⟩
      · rw [hs] at hs'
        cases hs'
      · exact hcovered
    · intro hexposed e he
      obtain ⟨b, hb, -⟩ := h.risk e he
      by_cases hdev : b.dev ∈ c.flushed
      · exact ⟨b, hb, h.flushed e he b hb hdev⟩
      · exact hsucceeded e (hexposed e ((mem_exposedOf hb).mpr ⟨he, hdev⟩))
  unfailed := by
    intro _ hfailed
    show exposedOf writes c.flushed c.atRisk = []
    rw [List.eq_nil_iff_forall_not_mem]
    intro e he
    obtain ⟨b, hb, -⟩ := h.risk e (List.mem_of_mem_filter he)
    obtain ⟨hrisk, hdev⟩ := (mem_exposedOf hb).mp he
    rcases h.asked e hrisk b hb with hmem | ⟨f, hf, -, hfinished⟩
    · rw [htodo] at hmem
      cases hmem
    · rcases hfinished (List.all_eq_true.mp hall f hf) with hmem | hbad
      · exact hdev hmem
      · exact Bool.false_ne_true (hfailed.symm.trans hbad)

end PendingFlush.Ok

/-! ### The steps -/

namespace ReturnInv

/-- The writes have gone on. -/
theorem progress (h : ReturnInv st) {writes' : List EntryBio}
    (hp : Progress st.writes writes' st.succeeded st.succeeded) :
    ReturnInv { st with writes := writes' } := by
  refine ⟨fun c hc => (h.calls c hc).progress hp, fun e he => ?_, h.returned⟩
  obtain ⟨b, hb, hs⟩ := h.succeeded e he
  obtain ⟨b', hb', -, hdurable, -⟩ := hp.forward e b hb
  exact ⟨b', hb', hdurable hs⟩

/-- One call has gone on. -/
theorem setCall (h : ReturnInv st) (k : ℕ) {c : PendingFlush}
    (hc : c.Ok st.writes st.succeeded) : ReturnInv { st with calls := st.calls.set k c } :=
  ⟨fun c' hc' => (List.mem_or_eq_of_mem_set hc').elim (h.calls c') (· ▸ hc), h.succeeded,
    h.returned⟩

theorem addReturn (h : ReturnInv st) {r : FlushReturn} (hr : r.Sound) :
    ReturnInv { st with returned := st.returned ++ [r] } :=
  ⟨h.calls, h.succeeded, fun r' hr' => (List.mem_append.mp hr').elim (h.returned r') fun hr' =>
    List.mem_singleton.mp hr' ▸ hr⟩

/-- A new write takes none away. -/
theorem write (h : ReturnInv st) (d : BlockDevice) :
    ReturnInv { st with writes := st.writes ++ [⟨d, .sent⟩] } := by
  refine h.progress ⟨fun e b hb => ⟨b, ?_, rfl, id, Or.inl⟩, fun _ => id⟩
  obtain ⟨hlt, -⟩ := List.getElem?_eq_some_iff.mp hb
  rw [List.getElem?_append_left hlt, hb]

/-- A write that completes is not durable yet. -/
theorem complete (h : ReturnInv st) (i : ℕ) :
    ReturnInv { st with writes := st.writes.modify i EntryBio.complete } := by
  refine h.progress ⟨fun e b hb => ?_, fun _ => id⟩
  rw [List.getElem?_modify, hb]
  by_cases hei : i = e
  · refine ⟨b.complete, by simp [hei], ?_, fun hs => ?_, fun hs => Or.inl ?_⟩
    · unfold EntryBio.complete
      split_ifs <;> rfl
    · simp [EntryBio.complete, hs]
    · simp [EntryBio.complete, hs]
  · exact ⟨b, by simp [hei], rfl, id, Or.inl⟩

/-- A device flush that succeeds. -/
theorem finish (h : ReturnInv st) {k j : ℕ} {c : PendingFlush} {f : DevFlush}
    (hc : st.calls[k]? = some c) (hf : c.call.issued[j]? = some f) :
    ReturnInv { st with
      writes := markDurable st.writes f.covers
      calls := st.calls.set k
        { c with call := c.call.finish j f, flushed := f.bdev :: c.flushed }
      succeeded := f :: st.succeeded } := by
  have hcok := h.calls c (List.mem_of_getElem? hc)
  have hp : Progress st.writes (markDurable st.writes f.covers) st.succeeded
      (f :: st.succeeded) := by
    refine ⟨fun e b hb => ⟨_, getElem?_markDurable f.covers hb, ?_⟩, fun e ⟨g, hg, he⟩ =>
      ⟨g, List.mem_cons_of_mem _ hg, he⟩⟩
    split_ifs with he
    · exact ⟨rfl, fun _ => rfl, fun _ => Or.inr ⟨rfl, f, List.mem_cons_self, he⟩⟩
    · exact ⟨rfl, id, Or.inl⟩
  refine ⟨fun c' hc' => ?_, fun e he => ?_, h.returned⟩
  · rcases List.mem_or_eq_of_mem_set hc' with hc' | rfl
    · exact (h.calls c' hc').progress hp
    · exact hcok.succeeds hf hp
  · obtain ⟨g, hg, heg⟩ := he
    rcases List.mem_cons.mp hg with rfl | hg
    · have hlt := hcok.valid g (List.mem_of_getElem? hf) e heg
      have hdurable := getElem?_markDurable g.covers (List.getElem?_eq_getElem hlt)
      rw [if_pos heg] at hdurable
      exact ⟨_, hdurable, rfl⟩
    · obtain ⟨b, hb, hs⟩ := h.succeeded e ⟨g, hg, heg⟩
      obtain ⟨b', hb', -, hdurable, -⟩ := hp.forward e b hb
      exact ⟨b', hb', hdurable hs⟩

/-- **One step.** -/
theorem step (h : ReturnInv st) {op : ReturnOp} (hstep : st.step P wc op = some st') :
    ReturnInv st' := by
  cases op with
  | write d =>
      obtain rfl := Option.some.inj hstep
      exact h.write d
  | complete i =>
      obtain rfl := Option.some.inj hstep
      exact h.complete i
  | ring s =>
      obtain rfl := Option.some.inj hstep
      exact ⟨h.calls, h.succeeded, h.returned⟩
  | flushBegin bdevs =>
      simp only [ReturnState.step] at hstep
      split_ifs at hstep
      · obtain rfl := Option.some.inj hstep
        refine h.addReturn ⟨fun _ => ⟨rfl, rfl⟩, fun hlate => ?_, fun hlate => ?_⟩
        · cases hlate
        · cases hlate
      · obtain rfl := Option.some.inj hstep
        refine ⟨fun c hc => (List.mem_append.mp hc).elim (h.calls c) fun hc => ?_, h.succeeded,
          h.returned⟩
        obtain rfl := List.mem_singleton.mp hc
        -- every device is still to be flushed
        refine ⟨fun e he => ?_, by simp, by simp, by simp, fun e he b hb => ?_⟩
        · obtain ⟨b, hb, -, hstatus⟩ := mem_atRiskOn he
          exact ⟨b, hb, Or.inl hstatus⟩
        · obtain ⟨b₁, hb₁, hdev, -⟩ := mem_atRiskOn he
          obtain rfl := Option.some.inj (hb.symm.trans hb₁)
          exact Or.inl hdev
  | issue k =>
      obtain ⟨c, hc, hstep⟩ := Option.bind_eq_some_iff.mp hstep
      rcases htodo : c.call.todo with - | ⟨d, rest⟩
      · rw [htodo] at hstep
        cases hstep
      · rw [htodo] at hstep
        dsimp only at hstep
        split_ifs at hstep
        obtain rfl := Option.some.inj hstep
        exact h.setCall k ((h.calls c (List.mem_of_getElem? hc)).issue htodo)
  | finish k j ok =>
      obtain ⟨c, hc, hstep⟩ := Option.bind_eq_some_iff.mp hstep
      obtain ⟨f, hf, hstep⟩ := Option.bind_eq_some_iff.mp hstep
      split_ifs at hstep
      · obtain rfl := Option.some.inj hstep
        exact h.finish hc hf
      · obtain rfl := Option.some.inj hstep
        exact h.setCall k ((h.calls c (List.mem_of_getElem? hc)).failed hf)
  | flushEnd k ret =>
      obtain ⟨c, hc, hstep⟩ := Option.bind_eq_some_iff.mp hstep
      split_ifs at hstep with hdone
      obtain rfl := Option.some.inj hstep
      have hreturned := h.addReturn ((h.calls c (List.mem_of_getElem? hc)).sound h.succeeded
        hdone.1 hdone.2 ret)
      exact ⟨fun c' hc' => h.calls c' (List.mem_of_mem_eraseIdx hc'), h.succeeded,
        hreturned.returned⟩

end ReturnInv

/-- **What a returned 0 means.**  From any ring and any writes, and whatever else happens
meanwhile: a call that finds the ring empty returns 0, and is right exactly when there is
nothing to make durable.  Any other call is right exactly when it returns no 0, or each write at
risk on a device that it has not flushed, because its flush failed, is one that a flush was for
that has succeeded; if none of its flushes fails there are no such writes. -/
theorem flush_return_covers (P : Params) (wc : BlockDevice → Bool) (s : Stream)
    (writes : List EntryBio) (ops : List ReturnOp) (st : ReturnState)
    (hrun : Run.run (ReturnState.step P wc) ⟨s, writes, [], [], []⟩ ops = some st) :
    ∀ r ∈ st.returned, (r.early = true → (r.Covers ↔ r.atRisk = [])) ∧
      (r.early = false →
        (r.Covers ↔ (r.ret = 0 → ∀ e ∈ r.exposed, CoveredBy r.succeeded e))) ∧
      (r.early = false → r.failed = false → r.exposed = [] ∧ r.Covers) := by
  have hinit : ReturnInv ⟨s, writes, [], [], []⟩ :=
    ⟨by simp, fun e ⟨f, hf, _⟩ => absurd hf List.not_mem_nil, by simp⟩
  have hinv := Run.run_keeps (fun _ _ _ h hstep => ReturnInv.step h hstep) hinit hrun
  intro r hr
  have hsound := hinv.returned r hr
  refine ⟨fun hearly => ?_, fun hlate => ?_, fun hlate hfailed => ?_⟩
  · obtain ⟨hret, hlacking⟩ := hsound.early hearly
    rw [FlushReturn.Covers, hlacking]
    exact ⟨fun h => h hret, fun h _ => h⟩
  · rw [FlushReturn.Covers, hsound.late hlate]
  · have hexposed := hsound.unfailed hlate hfailed
    refine ⟨hexposed, fun _ => (hsound.late hlate).mpr fun e he => ?_⟩
    rw [hexposed] at he
    cases he

/-- A write completes, and its device is flushed with the given result; `ret` holds 0. -/
def flushOnce (ok : Bool) : List ReturnOp :=
  [.write ⟨0, 1⟩, .complete 0, .flushBegin [⟨0, 1⟩], .issue 0, .finish 0 0 ok, .flushEnd 0 0]

/-- The flush succeeds; or it fails, and that of a second call succeeds before the first
returns. -/
theorem flush_return_covers_flushOnce :
    (∃ st, Run.run (ReturnState.step Params.tiny fun _ => true)
        ⟨tinyFull.stream 8, [], [], [], []⟩ (flushOnce true) = some st ∧
      st.returned = [⟨0, false, false, [0], [], [⟨⟨0, 1⟩, [0], false⟩], []⟩] ∧
      ∀ r ∈ st.returned, r.Covers) ∧
    ∃ st, Run.run (ReturnState.step Params.tiny fun _ => true)
        ⟨tinyFull.stream 8, [], [], [], []⟩
        ((flushOnce false).take 5 ++
          [.flushBegin [⟨0, 1⟩], .issue 1, .finish 1 0 true, .flushEnd 0 0]) = some st ∧
      st.returned = [⟨0, false, true, [0], [0], [⟨⟨0, 1⟩, [0], false⟩], []⟩] ∧
      ∀ r ∈ st.returned, r.Covers := by
  constructor
  · have hend : (Run.run (ReturnState.step Params.tiny fun _ => true)
        ⟨tinyFull.stream 8, [], [], [], []⟩ (flushOnce true)).map (·.returned)
        = some [⟨0, false, false, [0], [], [⟨⟨0, 1⟩, [0], false⟩], []⟩] := by decide +kernel
    obtain ⟨st, hrun, hreturned⟩ := Option.map_eq_some_iff.mp hend
    refine ⟨st, hrun, hreturned, fun r hr => ?_⟩
    obtain ⟨-, -, hok⟩ := flush_return_covers Params.tiny _ _ _ _ st hrun r hr
    rw [hreturned] at hr
    obtain rfl := List.mem_singleton.mp hr
    exact (hok rfl rfl).2
  · have hend : (Run.run (ReturnState.step Params.tiny fun _ => true)
        ⟨tinyFull.stream 8, [], [], [], []⟩ ((flushOnce false).take 5 ++
          [.flushBegin [⟨0, 1⟩], .issue 1, .finish 1 0 true, .flushEnd 0 0])).map (·.returned)
        = some [⟨0, false, true, [0], [0], [⟨⟨0, 1⟩, [0], false⟩], []⟩] := by decide +kernel
    obtain ⟨st, hrun, hreturned⟩ := Option.map_eq_some_iff.mp hend
    refine ⟨st, hrun, hreturned, fun r hr => ?_⟩
    obtain ⟨-, hlate, -⟩ := flush_return_covers Params.tiny _ _ _ _ st hrun r hr
    rw [hreturned] at hr
    obtain rfl := List.mem_singleton.mp hr
    exact (hlate rfl).mpr fun _ e he => ⟨_, List.mem_cons_self, he⟩

/-- Two calls that return 0 and leave the write volatile: right after `stream_do_checkpoint` has
emptied a full ring nothing is flushed at all, and a device flush that fails goes unnoticed. -/
theorem flush_returns_zero_volatile :
    ((streamDoCheckpoint Params.tiny (fun _ _ => .unlocked) tinyFull 8 1).bind fun o =>
      (Run.run (ReturnState.step Params.tiny fun _ => true) ⟨o.stream 8, [], [], [], []⟩
        ((flushOnce true).take 3)).map (·.returned))
      = some [⟨0, true, false, [0], [0], [], [0]⟩] ∧
    (Run.run (ReturnState.step Params.tiny fun _ => true) ⟨tinyFull.stream 8, [], [], [], []⟩
      (flushOnce false)).map (·.returned) = some [⟨0, false, true, [0], [0], [], [0]⟩] ∧
    ¬ FlushReturn.Covers ⟨0, true, false, [0], [0], [], [0]⟩ ∧
    ¬ FlushReturn.Covers ⟨0, false, true, [0], [0], [], [0]⟩ := by
  refine ⟨by decide +kernel, by decide +kernel, fun h => ?_, fun h => ?_⟩
  · exact absurd (h rfl) (by decide)
  · exact absurd (h rfl) (by decide)

end CcNvme

/-
CcNvme/Durability.lean

What recovery trusts the `flushed` cursor for: the data of the entries before it is on
the devices.  The machine is that of `MultiProducer`, extended by what happens to the
bio of an entry.  `stream_submit_bio` publishes the entry first and calls `submit_bio`
afterwards; the bio completes at some later time; and `stream_blkdev_issue_flush` reads
`tail`, flushes one device after another, waits, and then moves `flushed`, whatever the
flushes have returned.

A flush makes durable what had completed when it was issued.  So `flushed` covers data
that is not durable when a flush reads `tail` before the bio of a published entry has
completed, when the device of an entry is not among those flushed, and when a device
flush fails.  `FlushSafe` excludes the three; `flushed_covers_durable` is the statement
about runs.
-/
import CcNvme.MultiProducer
import Mathlib.Data.List.InsertIdx

namespace CcNvme

/-! ### The machine -/

/-- What has become of the bio of a published entry. -/
inductive BioStatus where
  /-- `submit_bio` has not been called yet -/
  | published
  | sent
  | completed
  /-- completed before a flush of its device that succeeded -/
  | durable
  deriving DecidableEq, Repr

/-- The bio of an entry and the device it is for. -/
structure EntryBio where
  dev : BlockDevice
  status : BioStatus
  deriving DecidableEq, Repr

namespace EntryBio

def send (b : EntryBio) : EntryBio :=
  if b.status = .published then { b with status := .sent } else b

def complete (b : EntryBio) : EntryBio :=
  if b.status = .sent then { b with status := .completed } else b

/-- The bio has completed. -/
def done (b : EntryBio) : Bool := b.status = .completed ∨ b.status = .durable

end EntryBio

/-- A device flush that has been issued, and the entries whose bios it makes durable if it
succeeds. -/
structure DevFlush where
  bdev : BlockDevice
  covers : List ℕ
  finished : Bool
  deriving DecidableEq, Repr

/-- A call of `stream_blkdev_issue_flush` that has read `tail`. -/
structure FlushCall where
  /-- how many entries had been published then -/
  upto : ℕ
  issued : List DevFlush
  /-- the devices that the loop has not come to -/
  todo : List BlockDevice
  deriving DecidableEq, Repr

/-- `blkdev_issue_flush` is called for the device, which waits; otherwise
`blkdev_issue_flush_async`, which does not. -/
def FlushCall.waits (wc : BlockDevice → Bool) (w : FlushCall) (d : BlockDevice) : Bool :=
  w.issued.length + w.todo.length = 1 ∨ wc d = false

structure FlushState where
  p : Producers
  /-- the bios of the entries, in the order of their publication -/
  bios : List EntryBio
  /-- the device of the bio that a submitter is at -/
  dev : ℕ → BlockDevice
  /-- the entry that a submitter has published without having sent its bio -/
  unsent : ℕ → Option ℕ
  calls : List FlushCall

inductive FlushOp where
  /-- `stream_submit_bio` with a bio for device `d` -/
  | submit (t : ℕ) (a : SubmitArgs) (d : BlockDevice)
  /-- submitter `t` takes its next step in `stream_submit_bio_core` -/
  | advance (t : ℕ)
  /-- `submit_bio` -/
  | send (t : ℕ)
  /-- the bio of entry `i` completes -/
  | complete (i : ℕ)
  /-- `stream_blkdev_issue_flush` up to the reading of `tail` -/
  | flushBegin (bdevs : List BlockDevice)
  /-- the `k`-th call issues its next device flush -/
  | issue (k : ℕ)
  /-- the `j`-th device flush of the `k`-th call finishes -/
  | finish (k j : ℕ) (ok : Bool)
  /-- the `k`-th call has waited for all and moves `flushed` -/
  | flushEnd (k : ℕ)
  /-- an allocator wraps the journal -/
  | wrap

/-- The entries for device `d` whose bios have completed. -/
def completedOn (bios : List EntryBio) (d : BlockDevice) : List ℕ :=
  (List.range bios.length).filter fun i => (bios[i]?).any fun b => b.dev = d && b.done

/-- The flush of device `d` is issued, and `rest` is still to come. -/
def FlushCall.issue (w : FlushCall) (bios : List EntryBio) (d : BlockDevice)
    (rest : List BlockDevice) : FlushCall :=
  { w with issued := w.issued ++ [⟨d, completedOn bios d, false⟩], todo := rest }

/-- The `j`-th flush, which is `f`, has finished. -/
def FlushCall.finish (w : FlushCall) (j : ℕ) (f : DevFlush) : FlushCall :=
  { w with issued := w.issued.set j { f with finished := true } }

def markDurable (bios : List EntryBio) (is : List ℕ) : List EntryBio :=
  bios.mapIdx fun i b => if i ∈ is then { b with status := .durable } else b

/-- `wc` tells the devices with a volatile write cache, `QUEUE_FLAG_WC`. -/
def FlushState.step (P : Params) (sid : ℕ) (wc : BlockDevice → Bool) (st : FlushState) :
    FlushOp → Option FlushState
  | .submit t a d =>
      if st.unsent t = none then
        (st.p.step P sid (.submit t a)).map fun p =>
          { st with p := p, dev := Function.update st.dev t d }
      else none
  | .advance t =>
      (st.p.step P sid (.advance t)).map fun p =>
        if st.p.publishes (.advance t) then
          { st with
            p := p
            bios := st.bios ++ [⟨st.dev t, .published⟩]
            unsent := Function.update st.unsent t (some st.bios.length) }
        else { st with p := p }
  | .send t =>
      (st.unsent t).map fun i =>
        { st with
          bios := st.bios.modify i EntryBio.send
          unsent := Function.update st.unsent t none }
  | .complete i => some { st with bios := st.bios.modify i EntryBio.complete }
  | .flushBegin bdevs =>
      -- A call for no device returns at once.  So does one that finds the ring empty, but
      -- it looks before it has the lock, and the ring may be empty here all the same.
      if bdevs = [] then none
      else
        (st.p.step P sid .flushBegin).map fun p =>
          { st with p := p, calls := st.calls ++ [⟨st.bios.length, [], bdevs⟩] }
  | .issue k =>
      (st.calls[k]?).bind fun w =>
        match w.todo with
        | [] => none
        | d :: rest =>
            if w.issued.all fun f => !w.waits wc f.bdev || f.finished then
              some { st with calls := st.calls.set k (w.issue st.bios d rest) }
            else none
  | .finish k j ok =>
      (st.calls[k]?).bind fun w =>
        (w.issued[j]?).bind fun f =>
          if f.finished then none
          else
            some { st with
              bios := if ok then markDurable st.bios f.covers else st.bios
              calls := st.calls.set k (w.finish j f) }
  | .flushEnd k =>
      (st.calls[k]?).bind fun w =>
        if w.todo = [] ∧ w.issued.all (·.finished) then
          (st.p.step P sid (.flushEnd k)).map fun p =>
            { st with p := p, calls := st.calls.eraseIdx k }
        else none
  | .wrap => (st.p.step P sid .wrap).map fun p => { st with p := p }

/-! ### The property and the condition -/

/-- Entry `i` is the last one published in slot `x`. -/
structure LastIn (P : Params) (bios : List EntryBio) (x i : ℕ) : Prop where
  lt : i < bios.length
  slot : i % P.nrOmeta = x
  last : ∀ j < bios.length, j % P.nrOmeta = x → j ≤ i

/-- **The property.**  The bio of every entry in `[head, flushed)` had completed before a
flush of its device that succeeded. -/
def FlushedDurable (P : Params) (st : FlushState) : Prop :=
  ∀ x ∈ slotsOf P st.p.s.head st.p.s.flushed,
    ∃ i b, LastIn P st.bios x i ∧ st.bios[i]? = some b ∧ b.status = .durable

/-- The step of the ring that an operation takes. -/
def FlushOp.ring : FlushOp → Option ProducerOp
  | .submit t a _ => some (.submit t a)
  | .advance t => some (.advance t)
  | .flushBegin _ => some .flushBegin
  | .flushEnd k => some (.flushEnd k)
  | .wrap => some .wrap
  | _ => none

/-- The cursors keep their order; a flush that reads `tail` finds the bios of all live
entries completed, and flushes the devices of those that are not durable; and no device
flush fails. -/
structure FlushSafe (P : Params) (st : FlushState) (op : FlushOp) : Prop where
  ring : ∀ q, op.ring = some q → SafeStep P st.p q
  covers : ∀ bdevs, op = .flushBegin bdevs → ∀ x ∈ slotsOf P st.p.s.head st.p.s.tail,
    ∀ i b, LastIn P st.bios x i → st.bios[i]? = some b →
      b.status = .durable ∨ b.status = .completed ∧ b.dev ∈ bdevs
  succeeds : ∀ k j ok, op = .finish k j ok → ok = true

/-! ### The invariant -/

/-- The call has still to wait for a flush that makes entry `e`, of device `d`, durable. -/
def FlushCall.Awaits (w : FlushCall) (e : ℕ) (d : BlockDevice) : Prop :=
  d ∈ w.todo ∨ ∃ f ∈ w.issued, f.finished = false ∧ e ∈ f.covers

/-- Entry `e` is durable, or will be when the call ends. -/
def EntryOk (bios : List EntryBio) (w : FlushCall) (e : ℕ) : Prop :=
  ∃ b, bios[e]? = some b ∧ (b.status = .durable ∨ b.status = .completed ∧ w.Awaits e b.dev)

/-- The entries of `[H, F)` are durable, and those a call in progress will cover are taken
care of; `upto` is the counter behind the `tail` that the call has read. -/
structure FlushInv (P : Params) (st : FlushState) (H F T W : ℕ) : Prop where
  ring : ProducersInv P st.p H F T W
  count : st.bios.length = T
  flushed : ∀ i, H ≤ i → i < F → ∃ b, st.bios[i]? = some b ∧ b.status = .durable
  tails : st.p.flushing = st.calls.map fun w => w.upto % P.nrOmeta
  bounds : ∀ w ∈ st.calls, H ≤ w.upto ∧ w.upto ≤ T
  entries : ∀ w ∈ st.calls, ∀ e, H ≤ e → e < w.upto → EntryOk st.bios w e

variable {P : Params} {sid : ℕ}

/-- The counters of the window name the entries that the slots hold. -/
theorem FlushInv.lastIn {st : FlushState} {H F T W i : ℕ} (h : FlushInv P st H F T W)
    (hHi : H ≤ i) (hiT : i < T) : LastIn P st.bios (i % P.nrOmeta) i := by
  have hcount := h.count
  refine ⟨by omega, rfl, fun j hj he => ?_⟩
  by_contra hlt
  have hw := h.ring.window
  have hTW := hw.tail_le
  have := hw.slot_inj hHi (by omega) (by omega) (by omega) he.symm
  omega

theorem FlushInv.flushedDurable {st : FlushState} {H F T W : ℕ} (h : FlushInv P st H F T W) :
    FlushedDurable P st := by
  intro x hx
  have hw := h.ring.window
  have hFT := hw.flushed_le
  have hTW := hw.tail_le
  have hWn := hw.window
  rw [hw.head_eq, hw.flushed_eq, mem_slotsOf_mod hw.head_le (by omega)] at hx
  obtain ⟨i, hHi, hiF, rfl⟩ := hx
  obtain ⟨b, hb, hdur⟩ := h.flushed i hHi hiF
  exact ⟨i, b, h.lastIn hHi (by omega), hb, hdur⟩

/-! ### Bios go forward -/

/-- Bios have gone on: the completed ones are still completed, and the durable ones
durable. -/
structure Advances (bios bios' : List EntryBio) : Prop where
  length_eq : bios'.length = bios.length
  forward : ∀ (e : ℕ) (b : EntryBio), bios[e]? = some b →
    ∃ b' : EntryBio, bios'[e]? = some b' ∧ b'.dev = b.dev ∧
      (b.status = .durable → b'.status = .durable) ∧
      (b.status = .completed → b'.status = .completed ∨ b'.status = .durable)

/-- A bio that has not completed goes from status `s` to status `s'`. -/
theorem advances_modify (bios : List EntryBio) (i : ℕ) (s s' : BioStatus)
    (hcomp : s ≠ .completed) (hdur : s ≠ .durable) :
    Advances bios (bios.modify i fun b => if b.status = s then { b with status := s' } else b) := by
  refine ⟨List.length_modify .., fun e b hb => ?_⟩
  rw [List.getElem?_modify, hb]
  by_cases hei : i = e
  · simp only [if_pos hei]
    refine ⟨if b.status = s then { b with status := s' } else b, rfl,
      ?_, fun hs => ?_, fun hs => Or.inl ?_⟩
    · split_ifs <;> rfl
    · rw [if_neg (hs ▸ hdur.symm), hs]
    · rw [if_neg (hs ▸ hcomp.symm), hs]
  · exact ⟨b, by simp [hei], rfl, id, Or.inl⟩

theorem getElem?_markDurable {bios : List EntryBio} {e : ℕ} {b : EntryBio} (is : List ℕ)
    (hb : bios[e]? = some b) :
    (markDurable bios is)[e]? = some (if e ∈ is then { b with status := .durable } else b) := by
  rw [markDurable, List.getElem?_mapIdx, hb]
  rfl

theorem advances_markDurable (bios : List EntryBio) (is : List ℕ) :
    Advances bios (markDurable bios is) := by
  refine ⟨List.length_mapIdx, fun e b hb => ⟨_, getElem?_markDurable is hb, ?_⟩⟩
  split_ifs
  · exact ⟨rfl, fun _ => rfl, fun _ => Or.inr rfl⟩
  · exact ⟨rfl, id, Or.inl⟩

theorem EntryOk.advances {bios bios' : List EntryBio} {w : FlushCall} {e : ℕ}
    (h : EntryOk bios w e) (hadv : Advances bios bios') : EntryOk bios' w e := by
  obtain ⟨b, hb, hok⟩ := h
  obtain ⟨b', hb', hdev, hdur, hcomp⟩ := hadv.forward e b hb
  refine ⟨b', hb', ?_⟩
  rcases hok with hs | ⟨hs, haw⟩
  · exact Or.inl (hdur hs)
  · exact (hcomp hs).symm.imp_right fun hs' => ⟨hs', hdev ▸ haw⟩

theorem mem_completedOn {bios : List EntryBio} {e : ℕ} {b : EntryBio} (hb : bios[e]? = some b)
    (hdone : b.done = true) : e ∈ completedOn bios b.dev := by
  obtain ⟨hlt, -⟩ := List.getElem?_eq_some_iff.mp hb
  rw [completedOn, List.mem_filter, List.mem_range, hb]
  exact ⟨hlt, by simp [hdone]⟩

/-- An entry waits for the flush of its device when that is issued. -/
theorem EntryOk.issue {bios : List EntryBio} {w : FlushCall} {e : ℕ} {d : BlockDevice}
    {rest : List BlockDevice} (h : EntryOk bios w e) (htodo : w.todo = d :: rest) :
    EntryOk bios (w.issue bios d rest) e := by
  obtain ⟨b, hb, hok⟩ := h
  refine ⟨b, hb, hok.imp_right ?_⟩
  rintro ⟨hs, haw⟩
  refine ⟨hs, ?_⟩
  rcases haw with hd | ⟨f, hf, hfin, he⟩
  · rw [htodo, List.mem_cons] at hd
    rcases hd with rfl | hd
    · refine Or.inr ⟨_, List.mem_append_right _ (List.mem_singleton_self _), rfl, ?_⟩
      exact mem_completedOn hb (by simp [EntryBio.done, hs])
    · exact Or.inl hd
  · exact Or.inr ⟨f, List.mem_append_left _ hf, hfin, he⟩

/-- An entry is durable when the flush it waits for has succeeded. -/
theorem EntryOk.finish {bios : List EntryBio} {w : FlushCall} {e j : ℕ} {f : DevFlush}
    (h : EntryOk bios w e) (hj : w.issued[j]? = some f) :
    EntryOk (markDurable bios f.covers) (w.finish j f) e := by
  by_cases hcov : e ∈ f.covers
  · obtain ⟨b, hb, -⟩ := h
    exact ⟨_, getElem?_markDurable f.covers hb, Or.inl (by rw [if_pos hcov])⟩
  · obtain ⟨b, hb, hok⟩ := h.advances (advances_markDurable bios f.covers)
    refine ⟨b, hb, hok.imp_right ?_⟩
    rintro ⟨hs, haw⟩
    refine ⟨hs, haw.imp_right ?_⟩
    rintro ⟨g, hg, hfin, he⟩
    obtain ⟨j', hj'⟩ := List.mem_iff_getElem?.mp hg
    have hne : j ≠ j' := by
      rintro rfl
      exact hcov (Option.some.inj (hj.symm.trans hj') ▸ he)
    refine ⟨g, List.mem_iff_getElem?.mpr ⟨j', ?_⟩, hfin, he⟩
    show (w.issued.set j _)[j']? = some g
    rw [List.getElem?_set_ne hne, hj']

/-! ### Steps -/

/-- A submitter that publishes holds a reserved slot. -/
theorem ProducersInv.publishes_le {st : Producers} {H F T W : ℕ} (h : ProducersInv P st H F T W)
    (op : ProducerOp) : T + (st.publishes op).toNat ≤ W := by
  have hTW := h.window.tail_le
  cases op with
  | advance t =>
      show T + (st.pc t).isFilled.toNat ≤ W
      rcases hpc : st.pc t with - | a | ⟨a, x⟩ | ⟨a, x⟩ | a | ⟨a, stage⟩ | ⟨a, x⟩ | ⟨a, x⟩
      case filled =>
        obtain ⟨i, hTi, hiW, -⟩ := (h.place t).held x (by rw [hpc]; rfl)
        show T + 1 ≤ W
        omega
      all_goals exact hTW
  | submit t a => exact hTW
  | flushBegin => exact hTW
  | flushEnd k => exact hTW
  | wrap => exact hTW

/-- A step of a submitter does not change the flushes in progress. -/
theorem flushing_advance {st st' : Producers} {t : ℕ} (h : st.advance P sid t = some st') :
    st'.flushing = st.flushing := by
  unfold Producers.advance at h
  rcases hpc : st.pc t with - | a | ⟨a, x⟩ | ⟨a, x⟩ | a | ⟨a, - | - | - | -⟩ | ⟨a, x⟩ | ⟨a, x⟩ <;>
    rw [hpc] at h <;> dsimp only at h
  case idle => cases h
  all_goals
    try split_ifs at h
    all_goals
      obtain rfl := Option.some.inj h
      rfl

/-- The flushes in progress are those that have begun and not ended. -/
theorem flushing_step {st st' : Producers} {q : ProducerOp} (hbegin : q ≠ .flushBegin)
    (hend : ∀ k, q ≠ .flushEnd k) (h : st.step P sid q = some st') :
    st'.flushing = st.flushing := by
  cases q with
  | submit t a =>
      simp only [Producers.step] at h
      split_ifs at h
      obtain rfl := Option.some.inj h
      rfl
  | advance t => exact flushing_advance h
  | flushBegin => exact absurd rfl hbegin
  | flushEnd k => exact absurd rfl (hend k)
  | wrap =>
      obtain rfl := Option.some.inj h
      rfl

namespace FlushInv

variable {st : FlushState} {H F T W : ℕ}

/-- The bios go forward. -/
theorem advances (h : FlushInv P st H F T W) {bios' : List EntryBio}
    (hadv : Advances st.bios bios') (unsent : ℕ → Option ℕ) :
    FlushInv P { st with bios := bios', unsent := unsent } H F T W where
  ring := h.ring
  count := hadv.length_eq.trans h.count
  flushed := by
    intro i hHi hiF
    obtain ⟨b, hb, hdur⟩ := h.flushed i hHi hiF
    obtain ⟨b', hb', -, hdur', -⟩ := hadv.forward i b hb
    exact ⟨b', hb', hdur' hdur⟩
  tails := h.tails
  bounds := h.bounds
  entries := fun w hw e hHe heu => (h.entries w hw e hHe heu).advances hadv

/-- A call goes on. -/
theorem setCall (h : FlushInv P st H F T W) {k : ℕ} {w w' : FlushCall}
    (hk : st.calls[k]? = some w) (hupto : w'.upto = w.upto)
    (hok : ∀ e, H ≤ e → e < w.upto → EntryOk st.bios w' e) :
    FlushInv P { st with calls := st.calls.set k w' } H F T W := by
  have hmem := List.mem_of_getElem? hk
  refine ⟨h.ring, h.count, h.flushed, ?_, fun v hv => ?_, fun v hv => ?_⟩
  · show st.p.flushing = (st.calls.set k w').map _
    have hself : (st.calls.map fun w => w.upto % P.nrOmeta)[k]? = some (w.upto % P.nrOmeta) := by
      rw [List.getElem?_map, hk, Option.map_some]
    obtain ⟨_, he⟩ := List.getElem?_eq_some_iff.mp hself
    rw [h.tails, List.map_set, hupto, ← he, List.set_getElem_self]
  · rcases List.mem_or_eq_of_mem_set hv with hv | rfl
    · exact h.bounds v hv
    · exact hupto ▸ h.bounds w hmem
  · rcases List.mem_or_eq_of_mem_set hv with hv | rfl
    · exact h.entries v hv
    · exact hupto ▸ hok

/-- A step of the ring outside the end of a flush: the counters behind the flushes in
progress stay in the window. -/
theorem ringStep (h : FlushInv P st H F T W) {q : ProducerOp} {p' : Producers}
    (hsafe : SafeStep P st.p q) (hstep : st.p.step P sid q = some p')
    (hq : ∀ k, q ≠ .flushEnd k) (hkeep : ∀ x ∈ st.p.flushing, x ∈ p'.flushing) :
    ∃ H' F' W', ProducersInv P p' H' F' (T + (st.p.publishes q).toNat) W' ∧ H ≤ H' ∧
      (F' = F ∨ F' = H') ∧ ∀ w ∈ st.calls, H' ≤ w.upto := by
  obtain ⟨H', F', W', h', hmove⟩ := producers_step_inv h.ring hsafe hstep
  have hret : Retires H F H' F' := by
    cases q with
    | flushEnd k => exact absurd rfl (hq k)
    | _ => exact hmove
  refine ⟨H', F', W', h', hret.1, hret.2, fun w hw => ?_⟩
  have hx : w.upto % P.nrOmeta ∈ st.p.flushing := by
    rw [h.tails]
    exact List.mem_map_of_mem hw
  obtain ⟨i, hHi, hiT, he⟩ := h'.flushing _ (hkeep _ hx)
  obtain ⟨hHu, huT⟩ := h.bounds w hw
  have hTW := h.ring.window.tail_le
  have hle := h.ring.publishes_le q
  have : w.upto = i := h.ring.window.slot_inj hHu (by omega) (hret.1.trans hHi) (by omega) he
  omega

/-- A step of the ring with the bios of the entries it publishes. -/
theorem publish (h : FlushInv P st H F T W) {q : ProducerOp} {p' : Producers}
    (hsafe : SafeStep P st.p q) (hstep : st.p.step P sid q = some p') (hbegin : q ≠ .flushBegin)
    (hend : ∀ k, q ≠ .flushEnd k) (new : List EntryBio)
    (hnew : new.length = (st.p.publishes q).toNat) (dev : ℕ → BlockDevice)
    (unsent : ℕ → Option ℕ) :
    ∃ H' F' T' W', FlushInv P ⟨p', st.bios ++ new, dev, unsent, st.calls⟩ H' F' T' W' := by
  have hflush := flushing_step hbegin hend hstep
  obtain ⟨H', F', W', h', hHH, hF, hup⟩ := h.ringStep hsafe hstep hend fun x hx => hflush ▸ hx
  have hold : ∀ {e : ℕ} {b : EntryBio}, st.bios[e]? = some b → (st.bios ++ new)[e]? = some b := by
    intro e b hb
    obtain ⟨hlt, -⟩ := List.getElem?_eq_some_iff.mp hb
    rw [List.getElem?_append_left hlt, hb]
  refine ⟨H', F', _, W', h', ?_, ?_, hflush.trans h.tails, ?_, ?_⟩
  · rw [List.length_append, h.count, hnew]
  · intro i hHi hiF
    obtain ⟨b, hb, hdur⟩ := h.flushed i (hHH.trans hHi) (by omega)
    exact ⟨b, hold hb, hdur⟩
  · intro w hw
    have := (h.bounds w hw).2
    exact ⟨hup w hw, by omega⟩
  · intro w hw e hHe heu
    obtain ⟨b, hb, hok⟩ := h.entries w hw e (hHH.trans hHe) heu
    exact ⟨b, hold hb, hok⟩

/-- A step of the ring that publishes nothing. -/
theorem quiet (h : FlushInv P st H F T W) {q : ProducerOp} {p' : Producers}
    (hsafe : SafeStep P st.p q) (hstep : st.p.step P sid q = some p') (hbegin : q ≠ .flushBegin)
    (hend : ∀ k, q ≠ .flushEnd k) (hpub : st.p.publishes q = false) (dev : ℕ → BlockDevice) :
    ∃ H' F' T' W', FlushInv P { st with p := p', dev := dev } H' F' T' W' := by
  have := h.publish hsafe hstep hbegin hend [] (by rw [hpub]; rfl) dev st.unsent
  rwa [List.append_nil] at this

/-- **The beginning of a flush** that finds the live entries completed. -/
theorem begin (h : FlushInv P st H F T W) {bdevs : List BlockDevice}
    (hcovers : ∀ x ∈ slotsOf P st.p.s.head st.p.s.tail, ∀ i b, LastIn P st.bios x i →
      st.bios[i]? = some b → b.status = .durable ∨ b.status = .completed ∧ b.dev ∈ bdevs)
    {p' : Producers} (hsafe : SafeStep P st.p .flushBegin)
    (hstep : st.p.step P sid .flushBegin = some p') :
    ∃ H' F' T' W', FlushInv P
      { st with p := p', calls := st.calls ++ [⟨st.bios.length, [], bdevs⟩] } H' F' T' W' := by
  have hfl : p'.flushing = st.p.flushing ++ [st.p.s.tail % 2 ^ 32] := by
    simp only [Producers.step] at hstep
    split_ifs at hstep
    obtain rfl := Option.some.inj hstep
    rfl
  obtain ⟨H', F', W', h', hHH, hF, hup⟩ := h.ringStep hsafe hstep (by simp) fun x hx => by
    rw [hfl]
    exact List.mem_append_left _ hx
  have hT : H' ≤ T ∧ F' ≤ T := ⟨h'.window.head_le.trans h'.window.flushed_le, h'.window.flushed_le⟩
  refine ⟨H', F', T, W', h', h.count, ?_, ?_, ?_, ?_⟩
  · intro i hHi hiF
    exact h.flushed i (hHH.trans hHi) (by omega)
  · show p'.flushing = (st.calls ++ [_]).map _
    rw [hfl, h.tails, h.ring.window.tail_eq, slot_uint, List.map_append, List.map_singleton,
      h.count]
  · intro w hw
    rcases List.mem_append.mp hw with hw | hw
    · exact ⟨hup w hw, (h.bounds w hw).2⟩
    · obtain rfl := List.mem_singleton.mp hw
      exact ⟨h.count.symm ▸ hT.1, h.count.le⟩
  · intro w hw e hHe heu
    rcases List.mem_append.mp hw with hw | hw
    · exact h.entries w hw e (hHH.trans hHe) heu
    · -- every live entry will be flushed by the new call, if it is not durable
      obtain rfl := List.mem_singleton.mp hw
      change e < st.bios.length at heu
      have heT : e < T := h.count ▸ heu
      have hlive := h.ring.window.mem_live_iff.mpr ⟨e, hHH.trans hHe, heT, rfl⟩
      obtain ⟨b, hb⟩ : ∃ b, st.bios[e]? = some b := ⟨_, List.getElem?_eq_getElem heu⟩
      refine ⟨b, hb, ?_⟩
      refine (hcovers _ hlive e b (h.lastIn (hHH.trans hHe) heT) hb).imp_right fun hc => ?_
      exact ⟨hc.1, Or.inl hc.2⟩

/-- **The end of a flush** that has waited for all its devices. -/
theorem finishCall (h : FlushInv P st H F T W) {k : ℕ} {w : FlushCall}
    (hk : st.calls[k]? = some w) (htodo : w.todo = []) (hfin : w.issued.all (·.finished) = true)
    {p' : Producers} (hsafe : SafeStep P st.p (.flushEnd k))
    (hstep : st.p.step P sid (.flushEnd k) = some p') :
    ∃ H' F' T' W', FlushInv P { st with p := p', calls := st.calls.eraseIdx k } H' F' T' W' := by
  obtain ⟨H', F', W', h', hread, rfl⟩ := producers_step_inv h.ring hsafe hstep
  have hfl : p'.flushing = st.p.flushing.eraseIdx k := by
    obtain ⟨x, -, rfl⟩ := Option.map_eq_some_iff.mp hstep
    rfl
  have hmem := List.mem_of_getElem? hk
  obtain ⟨hHu, huT⟩ := h.bounds w hmem
  -- `flushed` is now at the counter of the call
  have hF : F' = w.upto := by
    rw [h.tails, List.getElem?_map, hk, Option.map_some, Option.some.injEq] at hread
    have hTW := h.ring.window.tail_le
    have hFT : F' ≤ T := h'.window.flushed_le
    exact h.ring.window.slot_inj h'.window.head_le (by omega) hHu (by omega) hread.symm
  subst hF
  refine ⟨H', w.upto, T, W', h', h.count, ?_, ?_, ?_, ?_⟩
  · intro i hHi hiu
    obtain ⟨b, hb, hdur | ⟨-, hd | ⟨f, hf, hunf, -⟩⟩⟩ := h.entries w hmem i hHi hiu
    · exact ⟨b, hb, hdur⟩
    · rw [htodo] at hd
      cases hd
    · rw [List.all_eq_true.mp hfin f hf] at hunf
      cases hunf
  · show p'.flushing = (st.calls.eraseIdx k).map _
    rw [hfl, h.tails, List.eraseIdx_map]
  · exact fun v hv => h.bounds v (List.mem_of_mem_eraseIdx hv)
  · exact fun v hv => h.entries v (List.mem_of_mem_eraseIdx hv)

end FlushInv

/-- **One safe step** keeps the invariant. -/
theorem flush_step {wc : BlockDevice → Bool} {st st' : FlushState} {op : FlushOp} {H F T W : ℕ}
    (h : FlushInv P st H F T W) (hsafe : FlushSafe P st op)
    (hstep : st.step P sid wc op = some st') : ∃ H' F' T' W', FlushInv P st' H' F' T' W' := by
  cases op with
  | submit t a d =>
      rw [FlushState.step] at hstep
      split_ifs at hstep
      obtain ⟨p', hp', rfl⟩ := Option.map_eq_some_iff.mp hstep
      exact h.quiet (hsafe.ring _ rfl) hp' nofun nofun rfl _
  | advance t =>
      obtain ⟨p', hp', rfl⟩ := Option.map_eq_some_iff.mp hstep
      split_ifs with hf
      · exact h.publish (hsafe.ring _ rfl) hp' nofun nofun [_] (by rw [hf]; rfl) st.dev _
      · exact h.quiet (hsafe.ring _ rfl) hp' nofun nofun (Bool.eq_false_iff.mpr hf) st.dev
  | send t =>
      obtain ⟨i, -, rfl⟩ := Option.map_eq_some_iff.mp hstep
      have hadv := advances_modify st.bios i .published .sent nofun nofun
      exact ⟨H, F, T, W, h.advances hadv _⟩
  | complete i =>
      obtain rfl := Option.some.inj hstep
      have hadv := advances_modify st.bios i .sent .completed nofun nofun
      exact ⟨H, F, T, W, h.advances hadv st.unsent⟩
  | flushBegin bdevs =>
      rw [FlushState.step] at hstep
      split_ifs at hstep
      obtain ⟨p', hp', rfl⟩ := Option.map_eq_some_iff.mp hstep
      exact h.begin (hsafe.covers bdevs rfl) (hsafe.ring _ rfl) hp'
  | issue k =>
      obtain ⟨w, hk, hw⟩ := Option.bind_eq_some_iff.mp hstep
      rcases e : w.todo with - | ⟨d, rest⟩ <;> rw [e] at hw <;> dsimp only at hw
      · cases hw
      split_ifs at hw
      obtain rfl := Option.some.inj hw
      refine ⟨H, F, T, W, h.setCall hk rfl fun i hHi hiu => ?_⟩
      exact (h.entries w (List.mem_of_getElem? hk) i hHi hiu).issue e
  | finish k j ok =>
      obtain ⟨w, hk, hw⟩ := Option.bind_eq_some_iff.mp hstep
      obtain ⟨f, hj, hf⟩ := Option.bind_eq_some_iff.mp hw
      obtain rfl := hsafe.succeeds k j ok rfl
      rw [if_pos rfl] at hf
      split_ifs at hf
      obtain rfl := Option.some.inj hf
      have hadv := h.advances (advances_markDurable st.bios f.covers) st.unsent
      refine ⟨H, F, T, W, hadv.setCall hk (rfl : (w.finish j f).upto = w.upto) ?_⟩
      intro i hHi hiu
      exact (h.entries w (List.mem_of_getElem? hk) i hHi hiu).finish hj
  | flushEnd k =>
      obtain ⟨w, hk, hw⟩ := Option.bind_eq_some_iff.mp hstep
      split_ifs at hw with hdone
      obtain ⟨p', hp', rfl⟩ := Option.map_eq_some_iff.mp hw
      exact h.finishCall hk hdone.1 hdone.2 (hsafe.ring _ rfl) hp'
  | wrap =>
      rw [FlushState.step] at hstep
      obtain ⟨p', hp', rfl⟩ := Option.map_eq_some_iff.mp hstep
      exact h.quiet (hsafe.ring _ rfl) hp' nofun nofun rfl st.dev

/-! ### Runs -/

/-- A ring just set up, which nobody uses yet. -/
def FlushState.init (P : Params) (mem : ℕ → Ometa) (lastTxid sid : ℕ) : FlushState where
  p := Producers.init P mem lastTxid sid
  bios := []
  dev := fun _ => P.cpDev
  unsent := fun _ => none
  calls := []

theorem flushInv_init (mem : ℕ → Ometa) (lastTxid : ℕ) :
    FlushInv P (FlushState.init P mem lastTxid sid) 0 0 0 0 where
  ring := producersInv_init mem lastTxid
  count := rfl
  flushed := fun _ _ h => absurd h (Nat.not_lt_zero _)
  tails := rfl
  bounds := fun _ h => absurd h List.not_mem_nil
  entries := fun _ h => absurd h List.not_mem_nil

/-- **`flushed` covers durable data only**, in every state that submitters, flushes and
allocators can reach by safe steps in any order. -/
theorem flushed_covers_durable (P : Params) (sid : ℕ) (wc : BlockDevice → Bool)
    (mem : ℕ → Ometa) (lastTxid : ℕ) (ops : List FlushOp) (st : FlushState)
    (hsafe : Run.Along (FlushState.step P sid wc) (FlushSafe P)
      (FlushState.init P mem lastTxid sid) ops)
    (hrun : Run.run (FlushState.step P sid wc) (FlushState.init P mem lastTxid sid) ops
      = some st) : FlushedDurable P st := by
  obtain ⟨H, F, T, W, h⟩ := Run.run_preserves (I := fun st => ∃ H F T W, FlushInv P st H F T W)
    (fun st op st' ⟨H, F, T, W, h⟩ hs hstep => flush_step h hs hstep)
    ⟨0, 0, 0, 0, flushInv_init mem lastTxid⟩ hsafe hrun
  exact h.flushedDurable

/-! ### Concrete runs -/

/-- A whole submit by `t` of a bio for `d`, but for `submit_bio`. -/
def publishFor (t : ℕ) (d : BlockDevice) : List FlushOp :=
  .submit t someEntry d :: List.replicate 5 (.advance t)

/-- The bio of the first entry, published by submitter 0, is sent and completes. -/
def completeFirst : List FlushOp := [.send 0, .complete 0]

/-- A flush of one device that nothing interrupts. -/
def soloFlush (d : BlockDevice) (ok : Bool) : List FlushOp :=
  [.flushBegin [d], .issue 0, .finish 0 0 ok, .flushEnd 0]

def tinyFlushRun (ops : List FlushOp) : Option FlushState :=
  Run.run (FlushState.step Params.tiny 0 fun _ => true)
    (FlushState.init Params.tiny (fun _ => Ometa.zero) 0 0) ops

theorem not_flushedDurable {st : FlushState} {b : EntryBio}
    (hlive : 0 ∈ slotsOf P st.p.s.head st.p.s.flushed) (hbios : st.bios = [b])
    (hb : b.status ≠ .durable) : ¬ FlushedDurable P st := by
  intro hdur
  obtain ⟨i, b', hlast, hb', hs⟩ := hdur 0 hlive
  rw [hbios] at hlast hb'
  obtain rfl : i = 0 := Nat.lt_one_iff.mp hlast.lt
  exact hb (Option.some.inj hb' ▸ hs)

/-- `flushed` covers an entry whose bio has not been sent; one whose device flush has
failed; and one for a device that was not flushed. -/
theorem flushed_covers_unsent_bio :
    (∃ st, tinyFlushRun (publishFor 0 ⟨0, 1⟩ ++ soloFlush ⟨0, 1⟩ true) = some st ∧
      st.bios = [⟨⟨0, 1⟩, .published⟩] ∧ ¬ FlushedDurable Params.tiny st) ∧
    (∃ st, tinyFlushRun (publishFor 0 ⟨0, 1⟩ ++ completeFirst ++ soloFlush ⟨0, 1⟩ false) = some st ∧
      st.bios = [⟨⟨0, 1⟩, .completed⟩] ∧ ¬ FlushedDurable Params.tiny st) ∧
    ∃ st, tinyFlushRun (publishFor 0 ⟨0, 1⟩ ++ completeFirst ++ soloFlush ⟨1, 1⟩ true) = some st ∧
      st.bios = [⟨⟨0, 1⟩, .completed⟩] ∧ ¬ FlushedDurable Params.tiny st := by
  have hruns : ∀ ops b,
      (∃ st, tinyFlushRun ops = some st ∧ 0 ∈ slotsOf Params.tiny st.p.s.head st.p.s.flushed ∧
        st.bios = [b] ∧ b.status ≠ .durable) →
      ∃ st, tinyFlushRun ops = some st ∧ st.bios = [b] ∧ ¬ FlushedDurable Params.tiny st := by
    rintro ops b ⟨st, hrun, hlive, hbios, hb⟩
    exact ⟨st, hrun, hbios, not_flushedDurable hlive hbios hb⟩
  exact ⟨hruns _ _ (by decide +kernel), hruns _ _ (by decide +kernel),
    hruns _ _ (by decide +kernel)⟩

/-- A condition that can be evaluated: a flush finds the bios of all entries completed. -/
def AllCompleted (P : Params) (st : FlushState) : FlushOp → Prop
  | .advance t => SafeStep P st.p (.advance t)
  | .wrap => SafeStep P st.p .wrap
  | .flushBegin bdevs => ∀ b ∈ st.bios, b.done = true ∧ b.dev ∈ bdevs
  | .finish _ _ ok => ok = true
  | _ => True

instance (st : FlushState) : (op : FlushOp) → Decidable (AllCompleted P st op)
  | .advance _ | .wrap => inferInstanceAs (Decidable (SafeStep P _ _))
  | .flushBegin bdevs => inferInstanceAs (Decidable (∀ b ∈ st.bios, b.done = true ∧ b.dev ∈ bdevs))
  | .finish _ _ ok => inferInstanceAs (Decidable (ok = true))
  | .submit .. | .send _ | .complete _ | .issue _ | .flushEnd _ => inferInstanceAs (Decidable True)

theorem flushSafe_of_allCompleted (st : FlushState) (op : FlushOp) (h : AllCompleted P st op) :
    FlushSafe P st op := by
  refine ⟨fun q hq => ?_, ?_, ?_⟩
  · cases op with
    | advance t => exact Option.some.inj hq ▸ h
    | wrap => exact Option.some.inj hq ▸ h
    | submit t a d =>
        obtain rfl := Option.some.inj hq
        exact ⟨nofun, trivial⟩
    | flushBegin bdevs =>
        obtain rfl := Option.some.inj hq
        exact ⟨nofun, trivial⟩
    | flushEnd k =>
        obtain rfl := Option.some.inj hq
        exact ⟨nofun, trivial⟩
    | _ => cases hq
  · rintro bdevs rfl x - i b - hb
    obtain ⟨hdone, hdev⟩ := h b (List.mem_of_getElem? hb)
    rw [EntryBio.done, decide_eq_true_eq] at hdone
    exact hdone.symm.imp_right fun hc => ⟨hc, hdev⟩
  · rintro k j ok rfl
    exact h

/-- Two submitters send bios to two devices; a flush of both has read `tail` when a third
entry is published, and its device flushes finish in the other order. -/
def twoDevices : List FlushOp :=
  List.flatten
    [publishFor 0 ⟨0, 1⟩, publishFor 1 ⟨1, 1⟩, completeFirst, [.send 1, .complete 1],
      [.flushBegin [⟨0, 1⟩, ⟨1, 1⟩], .issue 0, .issue 0], publishFor 0 ⟨0, 1⟩,
      [.finish 0 1 true, .finish 0 0 true, .flushEnd 0]]

theorem flushed_covers_durable_twoDevices :
    ∃ st, tinyFlushRun twoDevices = some st ∧
      slotsOf Params.tiny st.p.s.head st.p.s.flushed = [0, 1] ∧ FlushedDurable Params.tiny st := by
  have hsafe : Run.Along (FlushState.step Params.tiny 0 fun _ => true) (AllCompleted Params.tiny)
      (FlushState.init Params.tiny (fun _ => Ometa.zero) 0 0) twoDevices := by
    decide +kernel
  have hslots : ∃ st, tinyFlushRun twoDevices = some st ∧
      slotsOf Params.tiny st.p.s.head st.p.s.flushed = [0, 1] := by
    decide +kernel
  obtain ⟨st, hrun, hst⟩ := hslots
  exact ⟨st, hrun, hst, flushed_covers_durable Params.tiny 0 _ _ 0 twoDevices st
    (hsafe.mono flushSafe_of_allCompleted) hrun⟩

end CcNvme

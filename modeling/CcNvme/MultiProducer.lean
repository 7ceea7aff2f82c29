/-
CcNvme/MultiProducer.lean

Concurrent submitters on one stream.  `stream_submit_bio_core` takes no lock: a
submitter reads `tail_watermark`, tests the space behind it against `head`,
reserves the slot by a compare-and-swap on `tail_watermark`, fills it, and
publishes it by a compare-and-swap on `tail`.  Each of these is a step here.  So
are the two halves of a flush, which hold `cp_rwsem` for reading, the parts of
`stream_do_checkpoint`, which hold it for writing, and the wrap of the journal
by an allocator, which moves `head` without it.

The compare-and-swap compares slots, and slots come back: between the space
test and the swap a whole round of the ring may be submitted, after which the
swap succeeds although the ring is full.  The other way to lose the order of the
cursors is a wrap of the journal during a flush: the flush may then write a
`flushed` that lies behind the new `head`.  `SafeStep` excludes both, and
`run_ring_safe` finds the ring safe along every run that meets it.
-/
import CcNvme.Cursors
import CcNvme.Lib.Run
import CcNvme.Lib.Pool

namespace CcNvme

/-! ### The machine -/

/-- Where in `stream_do_checkpoint` its caller is. -/
inductive CpStage where
  /-- before the first test of the space -/
  | test
  /-- before `truncate_ordering_log` -/
  | truncate
  /-- before the second test -/
  | retest
  /-- before `head = flushed = tail` -/
  | retireAll
  deriving DecidableEq, Repr

/-- Where in `stream_submit_bio_core` a submitter is. -/
inductive SubmitPc where
  | idle
  /-- at `retry`, or at the head of the `do` loop -/
  | start (a : SubmitArgs)
  /-- `tail_old` has been read -/
  | read (a : SubmitArgs) (tailOld : ℕ)
  /-- the space has been tested -/
  | tested (a : SubmitArgs) (tailOld : ℕ)
  /-- the test failed, before `down_write(&cp_rwsem)` -/
  | full (a : SubmitArgs)
  /-- inside `stream_do_checkpoint`, with the lock -/
  | locked (a : SubmitArgs) (stage : CpStage)
  /-- the slot is reserved -/
  | reserved (a : SubmitArgs) (tailOld : ℕ)
  /-- the slot is filled, waiting for `tail` to arrive -/
  | filled (a : SubmitArgs) (tailOld : ℕ)
  deriving DecidableEq, Repr

/-- The slot a submitter has reserved and not yet published. -/
def SubmitPc.slot : SubmitPc → Option ℕ
  | .reserved _ x | .filled _ x => some x
  | _ => none

structure Producers where
  s : Stream
  /-- the slot holds a complete entry -/
  full : ℕ → Bool
  pc : ℕ → SubmitPc
  /-- the submitter that holds `cp_rwsem` for writing -/
  cpOwner : Option ℕ
  /-- the `tail_old` of every flush in progress -/
  flushing : List ℕ

inductive ProducerOp where
  /-- a submitter enters `stream_submit_bio_core` -/
  | submit (t : ℕ) (a : SubmitArgs)
  /-- submitter `t` takes its next step -/
  | advance (t : ℕ)
  /-- `down_read(&cp_rwsem); tail_old = READ_ONCE(tail)` -/
  | flushBegin
  /-- `WRITE_ONCE(flushed, tail_old); up_read(&cp_rwsem)` of the `k`-th flush -/
  | flushEnd (k : ℕ)
  /-- `head = flushed; j_write_ptr = off_in_journal` in an allocator -/
  | wrap

/-- Submitter `t` goes on at `q`. -/
def Producers.goto (st : Producers) (t : ℕ) (q : SubmitPc) : Producers :=
  { st with pc := Function.update st.pc t q }

/-- The next step of submitter `t`; `none` when it has to wait. -/
def Producers.advance (P : Params) (sid : ℕ) (st : Producers) (t : ℕ) : Option Producers :=
  match st.pc t with
  | .idle => none
  | .start a => some (st.goto t (.read a (st.s.tailWatermark % 2 ^ 32)))
  | .read a x =>
      some (st.goto t (if horaeRingSpace st.s.head x P.nrOmeta < 1 then .full a else .tested a x))
  | .tested a x =>
      if st.s.tailWatermark = x then
        some ({ st with
          s := { st.s with tailWatermark := (x + 1) % 2 ^ 32 % P.nrOmeta }
          full := Function.update st.full x false }.goto t (.reserved a x))
      else some (st.goto t (.start a))
  | .full a =>
      if st.cpOwner = none ∧ st.flushing = [] then
        some ({ st with cpOwner := some t }.goto t (.locked a .test))
      else none
  | .locked a .test =>
      if horaeRingSpace st.s.head st.s.tail P.nrOmeta ≥ 1 then
        some ({ st with cpOwner := none }.goto t (.start a))
      else some (st.goto t (.locked a .truncate))
  | .locked a .truncate =>
      some ({ st with
        s := if st.s.head = st.s.flushed then st.s else st.s.retire P sid }.goto t
          (.locked a .retest))
  | .locked a .retest =>
      if horaeRingSpace st.s.head st.s.tail P.nrOmeta ≥ 1 then
        some ({ st with cpOwner := none }.goto t (.start a))
      else some (st.goto t (.locked a .retireAll))
  | .locked a .retireAll =>
      some ({ st with s := st.s.retireAll, cpOwner := none }.goto t (.start a))
  | .reserved a x =>
      some ({ st with
        s := { st.s with
          ometa := Function.update st.s.ometa x (fillOmeta (st.s.ometa x) st.s.committed a)
          committed := submitCommitted st.s.committed a.flags }
        full := Function.update st.full x true }.goto t (.filled a x))
  | .filled _ x =>
      if st.s.tail = x then
        some ({ st with s := { st.s with tail := (x + 1) % 2 ^ 32 % P.nrOmeta } }.goto t .idle)
      else none

def Producers.step (P : Params) (sid : ℕ) (st : Producers) : ProducerOp → Option Producers
  | .submit t a => if st.pc t = .idle then some (st.goto t (.start a)) else none
  | .advance t => st.advance P sid t
  | .flushBegin =>
      if st.cpOwner = none then some { st with flushing := st.flushing ++ [st.s.tail % 2 ^ 32] }
      else none
  | .flushEnd k =>
      (st.flushing[k]?).map fun x =>
        { st with s := { st.s with flushed := x }, flushing := st.flushing.eraseIdx k }
  | .wrap => some { st with s := st.s.retire P sid }

/-! ### Without interference -/

variable {P : Params} {sid : ℕ}

/-- **Alone, the steps of a submitter are `stream_submit_bio_core`.** -/
theorem solo_submit (bc : BufferCache) {o : Olayer} {st : Producers} {t H F T fuel : ℕ}
    (a : SubmitArgs) (hs : st.s = o.stream sid) (h : Cursors P st.s H F T)
    (hspace : T - H + 1 < P.nrOmeta) (hidle : st.pc t = .idle) :
    ∃ q, streamSubmitBioCore P bc sid a (fuel + 1) o = some q ∧
      Run.run (Producers.step P sid) st (.submit t a :: List.replicate 5 (.advance t))
        = some { st with
            s := q.1.stream sid
            full := Function.update st.full q.2 true } := by
  have hroom : ¬ horaeRingSpace st.s.head (T % P.nrOmeta) P.nrOmeta < 1 := by
    have := h.space_ge_one_iff.mpr hspace
    rw [h.tail_eq] at this
    omega
  have hpc : Function.update st.pc t .idle = st.pc := by rw [← hidle, Function.update_eq_self]
  refine ⟨_, streamSubmitBioCore_of_space bc a (hs ▸ h) hspace, ?_⟩
  rw [publish_stream, ← hs]
  simp only [List.replicate, Run.run_cons, Run.run_nil, Producers.step, Producers.advance,
    Producers.goto, hidle, h.watermark_eq, slot_uint, hroom, h.tail_eq, next_slot, if_true,
    if_false, Function.update_self, Function.update_idem, Option.bind_some, hpc]

/-- **Alone, the locked steps are what `stream_do_checkpoint` does to the stream**,
through whichever of its exits. -/
theorem solo_checkpoint {st : Producers} {t H F T : ℕ} {a : SubmitArgs}
    (h : Cursors P st.s H F T) (hpc : st.pc t = .full a) (hfree : st.cpOwner = none)
    (hfl : st.flushing = []) :
    ∃ n, Run.run (Producers.step P sid) st (List.replicate n (.advance t))
      = some ({ st with s := st.s.makeRoom P sid }.goto t (.start a)) := by
  unfold Stream.makeRoom
  by_cases hroom : horaeRingSpace st.s.head st.s.tail P.nrOmeta ≥ 1
  · -- another checkpoint has made room meanwhile
    refine ⟨2, ?_⟩
    simp only [List.replicate, Run.run_cons, Run.run_nil, Producers.step, Producers.advance,
      Producers.goto, hpc, hfree, hfl, and_self, hroom, if_true, Function.update_self,
      Function.update_idem, Option.bind_some]
  by_cases hhf : st.s.head = st.s.flushed
  · -- nothing is flushed: all stages are taken
    refine ⟨5, ?_⟩
    simp only [List.replicate, Run.run_cons, Run.run_nil, Producers.step, Producers.advance,
      Producers.goto, hpc, hfree, hfl, and_self, hhf ▸ hroom, hhf, if_true, if_false,
      Function.update_self, Function.update_idem, Option.bind_some]
  · refine ⟨4, ?_⟩
    simp only [List.replicate, Run.run_cons, Run.run_nil, Producers.step, Producers.advance,
      Producers.goto, hpc, hfree, hfl, and_self, hroom, h.space_retire sid hhf, hhf, if_true,
      if_false, Function.update_self, Function.update_idem, Option.bind_some]

/-! ### The property -/

/-- The slots reserved by submitters, and the slots of `[head, tail)`, are what they
should be. -/
structure RingSafe (P : Params) (st : Producers) : Prop where
  bounded : horaeCount st.s.head st.s.tailWatermark P.nrOmeta ≤ P.nrOmeta - 1
  exclusive : ∀ t t' x, t ≠ t' → (st.pc t).slot = some x → (st.pc t').slot ≠ some x
  outside : ∀ t x, (st.pc t).slot = some x → x ∉ slotsOf P st.s.head st.s.tail
  complete : ∀ x ∈ slotsOf P st.s.head st.s.tail, st.full x = true

/-- The step is a successful compare-and-swap on `tail_watermark`. -/
def Producers.reserves (st : Producers) : ProducerOp → Bool
  | .advance t =>
      match st.pc t with
      | .tested _ x => st.s.tailWatermark = x
      | _ => false
  | _ => false

/-- Each reservation increases the distance from `head` by one. -/
def ReservesOne (P : Params) (st st' : Producers) (op : ProducerOp) : Prop :=
  st.reserves op = true → horaeCount st'.s.head st'.s.tailWatermark P.nrOmeta
    = horaeCount st.s.head st.s.tailWatermark P.nrOmeta + 1

/-- The condition: when a reservation succeeds there still is space behind
`tail_watermark`, and when an allocator wraps the journal no flush in progress has
read its `tail` before `flushed`. -/
def SafeStep (P : Params) (st : Producers) (op : ProducerOp) : Prop :=
  (st.reserves op = true → horaeRingSpace st.s.head st.s.tailWatermark P.nrOmeta ≥ 1) ∧
    match op with
    | .wrap => ∀ x ∈ st.flushing,
        horaeCount st.s.head st.s.flushed P.nrOmeta ≤ horaeCount st.s.head x P.nrOmeta
    | _ => True

/-- No submitter, no flush, and a ring just set up. -/
def Producers.init (P : Params) (mem : ℕ → Ometa) (lastTxid sid : ℕ) : Producers where
  s := initStream P mem lastTxid sid
  full := fun _ => false
  pc := fun _ => .idle
  cpOwner := none
  flushing := []

/-! ### Counters -/

theorem horaeCount_mod {h i : ℕ} (hi : h ≤ i) (hlt : i < h + P.nrOmeta) :
    horaeCount (h % P.nrOmeta) (i % P.nrOmeta) P.nrOmeta = i - h := by
  rw [horaeCount_eq (Nat.mod_lt _ nrOmeta_pos) (Nat.mod_lt _ nrOmeta_pos) nrOmeta_le,
    Circular.dist_mod hi hlt]

/-- The cursors of a stream with submitters on the way: `tail_watermark` is ahead
of `tail`. -/
structure Window (P : Params) (s : Stream) (H F T W : ℕ) : Prop where
  head_le : H ≤ F
  flushed_le : F ≤ T
  tail_le : T ≤ W
  window : W < H + P.nrOmeta
  head_eq : s.head = H % P.nrOmeta
  flushed_eq : s.flushed = F % P.nrOmeta
  tail_eq : s.tail = T % P.nrOmeta
  watermark_eq : s.tailWatermark = W % P.nrOmeta

namespace Window

variable {s : Stream} {H F T W : ℕ}

theorem count_eq (h : Window P s H F T W) :
    horaeCount s.head s.tailWatermark P.nrOmeta = W - H := by
  rw [h.head_eq, h.watermark_eq]
  exact horaeCount_mod (h.head_le.trans (h.flushed_le.trans h.tail_le)) h.window

theorem space_ge_one_iff (h : Window P s H F T W) :
    horaeRingSpace s.head s.tailWatermark P.nrOmeta ≥ 1 ↔ W + 1 < H + P.nrOmeta := by
  have hHW := h.head_le.trans (h.flushed_le.trans h.tail_le)
  rw [h.head_eq, h.watermark_eq, horaeRingSpace_eq (Nat.mod_lt _ nrOmeta_pos)
    (Nat.mod_lt _ nrOmeta_pos) nrOmeta_le, Circular.dist_mod hHW h.window]
  omega

theorem mem_live_iff (h : Window P s H F T W) {x : ℕ} :
    x ∈ slotsOf P s.head s.tail ↔ ∃ i, H ≤ i ∧ i < T ∧ x = i % P.nrOmeta := by
  rw [h.head_eq, h.tail_eq]
  exact mem_slotsOf_mod (h.head_le.trans h.flushed_le) (h.tail_le.trans_lt h.window)

/-- Counters of the window are told apart by their slots. -/
theorem slot_inj (h : Window P s H F T W) {i j : ℕ} (hi : H ≤ i) (hiW : i ≤ W) (hj : H ≤ j)
    (hjW : j ≤ W) (he : i % P.nrOmeta = j % P.nrOmeta) : i = j :=
  Circular.mod_inj_of_window hi (hiW.trans_lt h.window) hj (hjW.trans_lt h.window) he

/-- `head = flushed` -/
theorem retire (h : Window P s H F T W) (sid : ℕ) : Window P (s.retire P sid) F F T W where
  head_le := le_rfl
  flushed_le := h.flushed_le
  tail_le := h.tail_le
  window := by have := h.window; have := h.head_le; omega
  head_eq := h.flushed_eq
  flushed_eq := h.flushed_eq
  tail_eq := h.tail_eq
  watermark_eq := h.watermark_eq

/-- `head = flushed = tail`; the slots between `tail` and `tail_watermark` stay
reserved. -/
theorem retireAll (h : Window P s H F T W) : Window P s.retireAll T T T W where
  head_le := le_rfl
  flushed_le := le_rfl
  tail_le := h.tail_le
  window := by have := h.window; have := h.head_le; have := h.flushed_le; omega
  head_eq := h.tail_eq
  flushed_eq := h.tail_eq
  tail_eq := h.tail_eq
  watermark_eq := h.watermark_eq

end Window

/-! ### The invariant -/

/-- What holds of submitter `t` at `p`: a slot it has reserved is that of a counter in
`[T, W)`, and complete once filled; inside the checkpoint it has the lock. -/
structure PlaceOk (P : Params) (full : ℕ → Bool) (cpOwner : Option ℕ) (T W t : ℕ)
    (p : SubmitPc) : Prop where
  held : ∀ x, p.slot = some x → ∃ i, T ≤ i ∧ i < W ∧ x = i % P.nrOmeta
  ready : ∀ a x, p = .filled a x → full x = true
  owner : ∀ a g, p = .locked a g → cpOwner = some t

/-- Submitters are where they should be and hold different slots, every slot of `[H, T)`
is complete, and a flush in progress has read a tail between `H` and `T`. -/
structure ProducersInv (P : Params) (st : Producers) (H F T W : ℕ) : Prop where
  window : Window P st.s H F T W
  place : ∀ t, PlaceOk P st.full st.cpOwner T W t (st.pc t)
  exclusive : ∀ t t' x, t ≠ t' → (st.pc t).slot = some x → (st.pc t').slot ≠ some x
  live : ∀ i, H ≤ i → i < T → st.full (i % P.nrOmeta) = true
  flushing : ∀ x ∈ st.flushing, ∃ i, H ≤ i ∧ i ≤ T ∧ x = i % P.nrOmeta
  excludes : st.cpOwner ≠ none → st.flushing = []

/-- A submitter that has reserved no slot. -/
theorem PlaceOk.of_slot_none {full : ℕ → Bool} {cpOwner : Option ℕ} {T W t : ℕ} {p : SubmitPc}
    (hslot : p.slot = none) (hlock : ∀ a g, p = .locked a g → cpOwner = some t) :
    PlaceOk P full cpOwner T W t p := by
  refine ⟨fun x hx => ?_, ?_, hlock⟩
  · rw [hslot] at hx
    cases hx
  · rintro a x rfl
    cases hslot

/-- What holds of the new place of `t` and of the other submitters holds of all. -/
theorem Producers.forall_goto {R : ℕ → SubmitPc → Prop} {st : Producers} {t : ℕ} {q : SubmitPc}
    (hq : R t q) (h : ∀ t' ≠ t, R t' (st.pc t')) : ∀ t', R t' ((st.goto t q).pc t') :=
  (Function.forall_update_iff st.pc R).mpr ⟨hq, h⟩

/-- Slots stay exclusive when `t` goes to a place whose slot nobody else holds. -/
theorem Producers.exclusive_goto {st : Producers} {t : ℕ} {q : SubmitPc}
    (h : ∀ t₁ t₂ x, t₁ ≠ t₂ → (st.pc t₁).slot = some x → (st.pc t₂).slot ≠ some x)
    (hq : ∀ t' ≠ t, ∀ x, (st.pc t').slot = some x → q.slot ≠ some x) (t₁ t₂ x : ℕ)
    (hne : t₁ ≠ t₂) (h₁ : ((st.goto t q).pc t₁).slot = some x) :
    ((st.goto t q).pc t₂).slot ≠ some x := by
  refine Pool.pairwise_update (R := fun p p' : SubmitPc => ∀ x, p.slot = some x → p'.slot ≠ some x)
    (fun t₁ t₂ hne x => h t₁ t₂ x hne) (fun t' hne' => ⟨fun y hy hy' => ?_, ?_⟩) t₁ t₂ hne x h₁
  · exact hq t' hne' y hy' hy
  · exact hq t' hne'

namespace ProducersInv

variable {st st' : Producers} {H F T W : ℕ}

theorem ringSafe (h : ProducersInv P st H F T W) : RingSafe P st where
  bounded := by
    rw [h.window.count_eq]
    have := h.window.window
    omega
  exclusive := h.exclusive
  outside := by
    intro t x hx hlive
    obtain ⟨i, hTi, hiW, rfl⟩ := (h.place t).held x hx
    obtain ⟨j, hHj, hjT, he⟩ := h.window.mem_live_iff.mp hlive
    have hHT := h.window.head_le.trans h.window.flushed_le
    have := h.window.slot_inj (hHT.trans hTi) hiW.le hHj (by omega) he
    omega
  complete := by
    intro x hx
    obtain ⟨i, hHi, hiT, rfl⟩ := h.window.mem_live_iff.mp hx
    exact h.live i hHi hiT

/-- A submitter goes on to a place where it holds no slot, and the lock only if it has
it. -/
theorem goto (h : ProducersInv P st H F T W) {t : ℕ} {q : SubmitPc} (hslot : q.slot = none)
    (hlock : ∀ a g, q = .locked a g → st.cpOwner = some t) :
    ProducersInv P (st.goto t q) H F T W where
  window := h.window
  place := Producers.forall_goto (.of_slot_none hslot hlock) fun t' _ => h.place t'
  exclusive := Producers.exclusive_goto h.exclusive fun _ _ _ _ => by simp [hslot]
  live := h.live
  flushing := h.flushing
  excludes := h.excludes

/-- The cursors move but for `tail` and `tail_watermark`, and the flushes change. -/
theorem move (h : ProducersInv P st H F T W) {s' : Stream} {fl : List ℕ} {H' F' : ℕ}
    (hw : Window P s' H' F' T W) (hH : H ≤ H')
    (hfl : ∀ x ∈ fl, ∃ i, H' ≤ i ∧ i ≤ T ∧ x = i % P.nrOmeta)
    (hlock : st.cpOwner ≠ none → fl = []) :
    ProducersInv P { st with s := s', flushing := fl } H' F' T W where
  window := hw
  place := h.place
  exclusive := h.exclusive
  live := fun i hi hiT => h.live i (hH.trans hi) hiT
  flushing := hfl
  excludes := hlock

/-- The holder of `cp_rwsem` moves `head` and `flushed`: no flush is in progress. -/
theorem move_locked (h : ProducersInv P st H F T W) {s' : Stream} {H' F' : ℕ}
    (hw : Window P s' H' F' T W) (hH : H ≤ H') (hown : st.cpOwner ≠ none) :
    ProducersInv P { st with s := s' } H' F' T W := by
  have hfl := h.excludes hown
  apply h.move hw hH
  · intro x hx
    rw [hfl] at hx
    cases hx
  · exact fun _ => hfl

/-- `up_write(&cp_rwsem)`, and back to `retry` -/
theorem unlock (h : ProducersInv P st H F T W) {t : ℕ} (hown : st.cpOwner = some t)
    (a : SubmitArgs) :
    ProducersInv P ({ st with cpOwner := none }.goto t (.start a)) H F T W where
  window := h.window
  place := by
    refine Producers.forall_goto (.of_slot_none rfl fun _ _ he => nomatch he) fun t' hne => ?_
    refine ⟨(h.place t').held, (h.place t').ready, fun a' g hx => ?_⟩
    -- no other submitter is inside the checkpoint
    have hown' := (h.place t').owner a' g hx
    rw [hown] at hown'
    exact absurd (Option.some.inj hown').symm hne
  exclusive := Producers.exclusive_goto h.exclusive fun _ _ _ _ he => nomatch he
  live := h.live
  flushing := h.flushing
  excludes := fun hc => absurd rfl hc

/-- `down_write(&cp_rwsem)` -/
theorem lock (h : ProducersInv P st H F T W) {t : ℕ} (hfree : st.cpOwner = none)
    (hfl : st.flushing = []) (a : SubmitArgs) :
    ProducersInv P ({ st with cpOwner := some t }.goto t (.locked a .test)) H F T W where
  window := h.window
  place := by
    refine Producers.forall_goto (.of_slot_none rfl fun _ _ _ => rfl) fun t' _ => ?_
    refine ⟨(h.place t').held, (h.place t').ready, fun a' g hx => ?_⟩
    have hown' := (h.place t').owner a' g hx
    rw [hfree] at hown'
    cases hown'
  exclusive := Producers.exclusive_goto h.exclusive fun _ _ _ _ he => nomatch he
  live := h.live
  flushing := h.flushing
  excludes := fun _ => hfl

/-- **A reservation** takes the slot of `W`, which no submitter holds and which is not
live. -/
theorem reserve (h : ProducersInv P st H F T W) (hspace : W + 1 < H + P.nrOmeta) (t : ℕ)
    (a : SubmitArgs) {x : ℕ} (hx : st.s.tailWatermark = x) :
    ProducersInv P
      ({ st with
        s := { st.s with tailWatermark := (x + 1) % 2 ^ 32 % P.nrOmeta }
        full := Function.update st.full x false }.goto t (.reserved a x)) H F T (W + 1) := by
  have hw := h.window
  have hHT := hw.head_le.trans hw.flushed_le
  obtain rfl : x = W % P.nrOmeta := hx.symm.trans hw.watermark_eq
  -- a counter below `W` has another slot
  have hne : ∀ i, H ≤ i → i < W → i % P.nrOmeta ≠ W % P.nrOmeta := by
    intro i hi hiW he
    have := hw.slot_inj hi hiW.le (hHT.trans hw.tail_le) le_rfl he
    omega
  have hfree : ∀ t' y, (st.pc t').slot = some y → y ≠ W % P.nrOmeta := by
    rintro t' y hy rfl
    obtain ⟨i, hTi, hiW, he⟩ := (h.place t').held _ hy
    exact hne i (hHT.trans hTi) hiW he.symm
  refine ⟨⟨hw.head_le, hw.flushed_le, hw.tail_le.trans (Nat.le_succ W), hspace, hw.head_eq,
    hw.flushed_eq, hw.tail_eq, next_slot W⟩, ?_, ?_, ?_, h.flushing, h.excludes⟩
  · apply Producers.forall_goto
    · refine ⟨fun y hy => ?_, fun _ _ he => (nomatch he), fun _ _ he => nomatch he⟩
      exact ⟨W, hw.tail_le, Nat.lt_succ_self W, (Option.some.inj hy).symm⟩
    · intro t' _
      refine ⟨fun y hy => ?_, fun a' y hy => ?_, (h.place t').owner⟩
      · obtain ⟨i, hTi, hiW, he⟩ := (h.place t').held y hy
        exact ⟨i, hTi, hiW.trans (Nat.lt_succ_self W), he⟩
      · have hslot : (st.pc t').slot = some y := by rw [show st.pc t' = _ from hy]; rfl
        exact (Function.update_of_ne (hfree t' y hslot) ..).trans ((h.place t').ready a' y hy)
  · apply Producers.exclusive_goto h.exclusive
    intro t' _ y hy hq
    exact hfree t' y hy (Option.some.inj hq).symm
  · intro i hi hiT
    exact (Function.update_of_ne (hne i hi (hiT.trans_le hw.tail_le)) ..).trans (h.live i hi hiT)

/-- Filling a reserved slot. -/
theorem fill (h : ProducersInv P st H F T W) {t : ℕ} {a : SubmitArgs} {x : ℕ}
    (hpc : st.pc t = .reserved a x) (ometa : ℕ → Ometa) (committed : Bool) :
    ProducersInv P
      ({ st with
        s := { st.s with ometa := ometa, committed := committed }
        full := Function.update st.full x true }.goto t (.filled a x)) H F T W := by
  have hw := h.window
  have hslot : (st.pc t).slot = some x := by rw [hpc]; rfl
  have hfull : ∀ y, st.full y = true → Function.update st.full x true y = true := by
    intro y hy
    rcases eq_or_ne y x with rfl | hne
    · exact Function.update_self ..
    · exact (Function.update_of_ne hne ..).trans hy
  refine ⟨⟨hw.head_le, hw.flushed_le, hw.tail_le, hw.window, hw.head_eq, hw.flushed_eq, hw.tail_eq,
    hw.watermark_eq⟩, ?_, ?_, fun i hi hiT => hfull _ (h.live i hi hiT), h.flushing, h.excludes⟩
  · apply Producers.forall_goto
    · -- the submitter keeps its slot
      refine ⟨fun y hy => (h.place t).held y (hslot.trans hy), ?_, fun _ _ he => nomatch he⟩
      intro a' y he
      cases he
      exact Function.update_self ..
    · intro t' _
      exact ⟨(h.place t').held, fun a' y hy => hfull y ((h.place t').ready a' y hy),
        (h.place t').owner⟩
  · apply Producers.exclusive_goto h.exclusive
    intro t' hne y hy hq
    exact h.exclusive t' t y hne hy (hslot.trans hq)

/-- **Publication.**  The slot at `tail` is that of the submitter, who has filled it. -/
theorem publish (h : ProducersInv P st H F T W) {t : ℕ} {a : SubmitArgs} {x : ℕ}
    (hpc : st.pc t = .filled a x) (hx : st.s.tail = x) :
    ProducersInv P
      ({ st with s := { st.s with tail := (x + 1) % 2 ^ 32 % P.nrOmeta } }.goto t .idle)
      H F (T + 1) W := by
  have hw := h.window
  have hHT := hw.head_le.trans hw.flushed_le
  have hslot : (st.pc t).slot = some x := by rw [hpc]; rfl
  obtain rfl : x = T % P.nrOmeta := hx.symm.trans hw.tail_eq
  -- hence `T` itself is among the reserved counters
  obtain ⟨i, hTi, hiW, he⟩ := (h.place t).held _ hslot
  obtain rfl : T = i := hw.slot_inj hHT hw.tail_le (hHT.trans hTi) hiW.le he
  refine ⟨⟨hw.head_le, hw.flushed_le.trans (Nat.le_succ T), hiW, hw.window, hw.head_eq,
    hw.flushed_eq, next_slot T, hw.watermark_eq⟩, ?_, ?_, ?_, ?_, h.excludes⟩
  · refine Producers.forall_goto (.of_slot_none rfl fun _ _ he => nomatch he) fun t' hne => ?_
    refine ⟨fun y hy => ?_, (h.place t').ready, (h.place t').owner⟩
    obtain ⟨j, hTj, hjW, rfl⟩ := (h.place t').held y hy
    -- the slot of `T` is held by `t` alone
    have hj : j ≠ T := by
      rintro rfl
      exact h.exclusive t' t _ hne hy hslot
    exact ⟨j, by omega, hjW, rfl⟩
  · exact Producers.exclusive_goto h.exclusive fun _ _ _ _ he => nomatch he
  · intro j hj hjT
    rcases eq_or_ne j T with rfl | hne
    · exact (h.place t).ready a _ hpc
    · exact h.live j hj (by omega)
  · intro y hy
    obtain ⟨j, hHj, hjT, rfl⟩ := h.flushing y hy
    exact ⟨j, hHj, by omega, rfl⟩

end ProducersInv

/-! ### Steps and runs -/

/-- The submitter is about to publish its entry. -/
def SubmitPc.isFilled : SubmitPc → Bool
  | .filled _ _ => true
  | _ => false

/-- The step, when it is possible, publishes an entry. -/
def Producers.publishes (st : Producers) : ProducerOp → Bool
  | .advance t => (st.pc t).isFilled
  | _ => false

/-- What a step outside a flush does to `head` and `flushed`: `head` does not go back, and
`flushed` stays or is caught up with. -/
def Retires (H F H' F' : ℕ) : Prop := H ≤ H' ∧ (F' = F ∨ F' = H')

theorem retires_refl (H F : ℕ) : Retires H F H F := ⟨le_rfl, Or.inl rfl⟩

/-- What a step does to `head` and `flushed`: at the end of a flush `flushed` goes to the
`tail` that the flush has read. -/
def CursorMove (P : Params) (st : Producers) (op : ProducerOp) (H F H' F' : ℕ) : Prop :=
  match op with
  | .flushEnd k => st.flushing[k]? = some (F' % P.nrOmeta) ∧ H' = H
  | _ => Retires H F H' F'

/-- A step inside `stream_do_checkpoint` keeps `tail` and `tail_watermark`. -/
theorem locked_inv {st st' : Producers} {H F T W t : ℕ} {a : SubmitArgs} {stage : CpStage}
    (h : ProducersInv P st H F T W) (hpc : st.pc t = .locked a stage)
    (hstep : st.advance P sid t = some st') :
    ∃ H' F', ProducersInv P st' H' F' T W ∧ Retires H F H' F' := by
  have hown := (h.place t).owner a stage hpc
  have hne : st.cpOwner ≠ none := by simp [hown]
  -- going on to stage `g` after the stream has changed
  have hstay : ∀ {st₁ : Producers} {H₁ F₁ : ℕ} (g : CpStage), st₁.cpOwner = st.cpOwner →
      ProducersInv P st₁ H₁ F₁ T W → ProducersInv P (st₁.goto t (.locked a g)) H₁ F₁ T W :=
    fun g he h₁ => h₁.goto rfl fun _ _ _ => he.trans hown
  cases stage with
  | test =>
      simp only [Producers.advance, hpc] at hstep
      split_ifs at hstep <;> cases hstep
      · exact ⟨H, F, h.unlock hown a, retires_refl H F⟩
      · exact ⟨H, F, hstay _ rfl h, retires_refl H F⟩
  | truncate =>
      simp only [Producers.advance, hpc, Option.some.injEq] at hstep
      subst hstep
      split_ifs
      · exact ⟨H, F, hstay _ rfl h, retires_refl H F⟩
      · exact ⟨F, F, hstay _ rfl (h.move_locked (h.window.retire sid) h.window.head_le hne),
          h.window.head_le, Or.inr rfl⟩
  | retest =>
      simp only [Producers.advance, hpc] at hstep
      split_ifs at hstep <;> cases hstep
      · exact ⟨H, F, h.unlock hown a, retires_refl H F⟩
      · exact ⟨H, F, hstay _ rfl h, retires_refl H F⟩
  | retireAll =>
      simp only [Producers.advance, hpc, Option.some.injEq] at hstep
      subst hstep
      have hHT := h.window.head_le.trans h.window.flushed_le
      exact ⟨T, T, (h.move_locked h.window.retireAll hHT hne).unlock hown a, hHT, Or.inr rfl⟩

/-- A step of a submitter preserves the invariant, if its reservation finds space; `tail`
moves when it publishes. -/
theorem advance_inv {st st' : Producers} {H F T W t : ℕ} (h : ProducersInv P st H F T W)
    (hsafe : st.reserves (.advance t) = true →
      horaeRingSpace st.s.head st.s.tailWatermark P.nrOmeta ≥ 1)
    (hstep : st.advance P sid t = some st') :
    ∃ H' F' W', ProducersInv P st' H' F' (T + (st.publishes (.advance t)).toNat) W' ∧
      Retires H F H' F' := by
  show ∃ H' F' W', ProducersInv P st' H' F' (T + (st.pc t).isFilled.toNat) W' ∧
    Retires H F H' F'
  cases hpc : st.pc t with
  | idle =>
      simp only [Producers.advance, hpc, reduceCtorEq] at hstep
  | start a =>
      simp only [Producers.advance, hpc, Option.some.injEq] at hstep
      subst hstep
      exact ⟨H, F, W, h.goto rfl (fun _ _ he => nomatch he), retires_refl H F⟩
  | read a x =>
      simp only [Producers.advance, hpc, Option.some.injEq] at hstep
      subst hstep
      refine ⟨H, F, W, h.goto ?_ fun _ _ he => ?_, retires_refl H F⟩
      · split_ifs <;> rfl
      · split_ifs at he
  | tested a x =>
      simp only [Producers.advance, hpc] at hstep
      split_ifs at hstep with hx <;> cases hstep
      · have hres : st.reserves (.advance t) = true := by simp [Producers.reserves, hpc, hx]
        have hspace := h.window.space_ge_one_iff.mp (hsafe hres)
        exact ⟨H, F, W + 1, h.reserve hspace t a hx, retires_refl H F⟩
      · -- the compare-and-swap has failed
        exact ⟨H, F, W, h.goto rfl (fun _ _ he => nomatch he), retires_refl H F⟩
  | full a =>
      simp only [Producers.advance, hpc] at hstep
      split_ifs at hstep with hfree
      cases hstep
      exact ⟨H, F, W, h.lock hfree.1 hfree.2 a, retires_refl H F⟩
  | locked a stage =>
      obtain ⟨H', F', h', hret⟩ := locked_inv h hpc hstep
      exact ⟨H', F', W, h', hret⟩
  | reserved a x =>
      simp only [Producers.advance, hpc, Option.some.injEq] at hstep
      subst hstep
      exact ⟨H, F, W, h.fill hpc _ _, retires_refl H F⟩
  | filled a x =>
      simp only [Producers.advance, hpc] at hstep
      split_ifs at hstep with hx
      cases hstep
      exact ⟨H, F, W, h.publish hpc hx, retires_refl H F⟩

/-- **One safe step** preserves the invariant, and `tail` moves when an entry is
published. -/
theorem producers_step_inv {st st' : Producers} {op : ProducerOp} {H F T W : ℕ}
    (h : ProducersInv P st H F T W) (hsafe : SafeStep P st op)
    (hstep : st.step P sid op = some st') :
    ∃ H' F' W', ProducersInv P st' H' F' (T + (st.publishes op).toNat) W' ∧
      CursorMove P st op H F H' F' := by
  have hw := h.window
  have hHT := hw.head_le.trans hw.flushed_le
  cases op with
  | submit t a =>
      simp only [Producers.step] at hstep
      split_ifs at hstep
      obtain rfl := Option.some.inj hstep
      exact ⟨H, F, W, h.goto rfl (fun _ _ he => nomatch he), retires_refl H F⟩
  | advance t => exact advance_inv h hsafe.1 hstep
  | flushBegin =>
      simp only [Producers.step] at hstep
      split_ifs at hstep with hfree
      obtain rfl := Option.some.inj hstep
      refine ⟨H, F, W, h.move hw le_rfl ?_ fun hc => absurd hfree hc, retires_refl H F⟩
      intro x hx
      rcases List.mem_append.mp hx with hx | hx
      · exact h.flushing x hx
      · rw [List.mem_singleton.mp hx, hw.tail_eq, slot_uint]
        exact ⟨T, hHT, le_rfl, rfl⟩
  | flushEnd k =>
      obtain ⟨x, hx, rfl⟩ := Option.map_eq_some_iff.mp hstep
      obtain ⟨i, hHi, hiT, rfl⟩ := h.flushing x (List.mem_of_getElem? hx)
      have hw' : Window P { st.s with flushed := i % P.nrOmeta } H i T W :=
        ⟨hHi, hiT, hw.tail_le, hw.window, hw.head_eq, rfl, hw.tail_eq, hw.watermark_eq⟩
      refine ⟨H, i, W, h.move hw' le_rfl ?_ ?_, hx, rfl⟩
      · exact fun y hy => h.flushing y (List.mem_of_mem_eraseIdx hy)
      · intro hc
        rw [h.excludes hc, List.eraseIdx_nil]
  | wrap =>
      obtain rfl := Option.some.inj hstep
      refine ⟨F, F, W, h.move (hw.retire sid) hw.head_le ?_ h.excludes, hw.head_le, Or.inr rfl⟩
      intro x hx
      obtain ⟨i, hHi, hiT, rfl⟩ := h.flushing x hx
      -- the flush has not read its tail before `flushed`
      have hle := hsafe.2 _ hx
      have hWn := hw.window
      have hTW := hw.tail_le
      rw [hw.head_eq, hw.flushed_eq, horaeCount_mod hw.head_le (by have := hw.flushed_le; omega),
        horaeCount_mod hHi (by omega)] at hle
      exact ⟨i, by omega, hiT, rfl⟩

/-- A reservation with space behind `tail_watermark` adds one to the distance. -/
theorem reserves_one {st st' : Producers} {op : ProducerOp} {H F T W : ℕ}
    (h : ProducersInv P st H F T W) (hsafe : SafeStep P st op)
    (hstep : st.step P sid op = some st') : ReservesOne P st st' op := by
  intro hres
  have hspace := h.window.space_ge_one_iff.mp (hsafe.1 hres)
  have hHW := h.window.head_le.trans (h.window.flushed_le.trans h.window.tail_le)
  cases op with
  | advance t =>
      rcases hpc : st.pc t with - | a | ⟨a, x⟩ | ⟨a, x⟩ | a | ⟨a, stage⟩ | ⟨a, x⟩ | ⟨a, x⟩ <;>
        simp only [Producers.reserves, hpc, Bool.false_eq_true, decide_eq_true_eq] at hres
      simp only [Producers.step, Producers.advance, hpc, if_pos hres] at hstep
      obtain rfl := Option.some.inj hstep
      rw [h.window.count_eq, (h.reserve hspace t a hres).window.count_eq]
      omega
  | _ => simp [Producers.reserves] at hres

theorem producersInv_init (mem : ℕ → Ometa) (lastTxid : ℕ) :
    ProducersInv P (Producers.init P mem lastTxid sid) 0 0 0 0 where
  window := ⟨le_rfl, le_rfl, le_rfl, by have := nrOmeta_pos (P := P); omega,
    (Nat.zero_mod _).symm, (Nat.zero_mod _).symm, (Nat.zero_mod _).symm, (Nat.zero_mod _).symm⟩
  place := fun _ => .of_slot_none rfl fun _ _ he => nomatch he
  exclusive := fun _ _ _ _ h => nomatch h
  live := fun _ _ h => absurd h (Nat.not_lt_zero _)
  flushing := fun _ h => nomatch h
  excludes := fun h => absurd rfl h

/-- **The ring is safe along every run whose reservations find space and whose wraps do
not overtake a flush**: before and after each step no slot is reserved twice or while it
is live, every live slot is complete, and a reservation adds one to the distance from
`head` to `tail_watermark`, which stays below `nr_ometa`. -/
theorem run_ring_safe (P : Params) (sid : ℕ) (mem : ℕ → Ometa) (lastTxid : ℕ)
    (ops : List ProducerOp) (op : ProducerOp) (st st' : Producers)
    (hsafe : Run.Along (Producers.step P sid) (SafeStep P) (Producers.init P mem lastTxid sid)
      (ops ++ [op]))
    (hrun : Run.run (Producers.step P sid) (Producers.init P mem lastTxid sid) ops = some st)
    (hstep : st.step P sid op = some st') :
    RingSafe P st ∧ RingSafe P st' ∧ ReservesOne P st st' op := by
  apply Run.run_last (I := fun st => ∃ H F T W, ProducersInv P st H F T W)
    (Q := fun st op st' => RingSafe P st ∧ RingSafe P st' ∧ ReservesOne P st st' op)
    (fun st op st' h hC hs => ?_) ⟨0, 0, 0, 0, producersInv_init mem lastTxid⟩ hsafe hrun hstep
  obtain ⟨H, F, T, W, h⟩ := h
  obtain ⟨H', F', W', h', -⟩ := producers_step_inv h hC hs
  exact ⟨⟨H', F', _, W', h'⟩, h.ringSafe, h'.ringSafe, reserves_one h hC hs⟩

/-! ### Concrete interleavings -/

instance (st : Producers) (op : ProducerOp) : Decidable (SafeStep P st op) :=
  match op with
  | .wrap => inferInstanceAs (Decidable (_ ∧ ∀ _ ∈ _, _))
  | .submit _ _ | .advance _ | .flushBegin | .flushEnd _ => inferInstanceAs (Decidable (_ ∧ True))

/-- An ordinary entry of one page. -/
def someEntry : SubmitArgs := ⟨100, 1, 0, 0, .tx⟩

/-- A whole submit by `t`, when there is space. -/
def soloSubmit (t : ℕ) : List ProducerOp := .submit t someEntry :: List.replicate 5 (.advance t)

/-- Submitter 0 tests the space of the empty ring.  Before its compare-and-swap
submitter 1 sends one entry, which is flushed, fills the ring, has it truncated, and
fills it again: `tail_watermark` is back at slot 0. -/
def roundOfTheRing : List ProducerOp :=
  [ProducerOp.submit 0 someEntry, .advance 0, .advance 0] ++ soloSubmit 1 ++
    [ProducerOp.flushBegin, .flushEnd 0] ++ soloSubmit 1 ++ soloSubmit 1 ++
    ProducerOp.submit 1 someEntry :: List.replicate 11 (ProducerOp.advance 1)

/-- The swap of submitter 0 succeeds on the full ring: the distance falls from three to
zero, and the next reservation takes slot 1, which is live. -/
theorem stale_test_overfills_ring :
    ∃ st st' st'', Run.run (Producers.step Params.tiny 0)
        (Producers.init Params.tiny (fun _ => Ometa.zero) 0 0) roundOfTheRing = some st ∧
      st.step Params.tiny 0 (.advance 0) = some st' ∧
      horaeCount st.s.head st.s.tailWatermark Params.tiny.nrOmeta = 3 ∧
      horaeCount st'.s.head st'.s.tailWatermark Params.tiny.nrOmeta = 0 ∧
      ¬ ReservesOne Params.tiny st st' (.advance 0) ∧
      Run.run (Producers.step Params.tiny 0) st'
        (.submit 1 someEntry :: List.replicate 3 (.advance 1)) = some st'' ∧
      (st''.pc 1).slot = some 1 ∧ ¬ RingSafe Params.tiny st'' := by
  have hrun : ∃ st, Run.run (Producers.step Params.tiny 0)
        (Producers.init Params.tiny (fun _ => Ometa.zero) 0 0) roundOfTheRing = some st ∧
      ∃ st', st.step Params.tiny 0 (.advance 0) = some st' ∧
      ∃ st'', Run.run (Producers.step Params.tiny 0) st'
        (.submit 1 someEntry :: List.replicate 3 (.advance 1)) = some st'' ∧
      horaeCount st.s.head st.s.tailWatermark Params.tiny.nrOmeta = 3 ∧
      horaeCount st'.s.head st'.s.tailWatermark Params.tiny.nrOmeta = 0 ∧
      st.reserves (.advance 0) = true ∧ (st''.pc 1).slot = some 1 ∧
      1 ∈ slotsOf Params.tiny st''.s.head st''.s.tail := by decide +kernel
  obtain ⟨st, hst, st', hst', st'', hst'', hbefore, hafter, hres, hslot, hlive⟩ := hrun
  refine ⟨st, st', st'', hst, hst', hbefore, hafter, ?_, hst'', hslot, ?_⟩
  · intro hone
    have := hone hres
    omega
  · intro hsafe
    exact hsafe.outside 1 1 hslot hlive

/-- Two submitters read the same `tail_watermark`; one of them has to try again, and
publishes after the other. -/
def twoSubmitters : List ProducerOp :=
  [.submit 0 someEntry, .submit 1 someEntry, .advance 0, .advance 1, .advance 0, .advance 1,
    .advance 0, .advance 1, .advance 1, .advance 1]

theorem run_ring_safe_twoSubmitters :
    ∃ st st', Run.run (Producers.step Params.tiny 0)
        (Producers.init Params.tiny (fun _ => Ometa.zero) 0 0) twoSubmitters = some st ∧
      st.step Params.tiny 0 (.advance 1) = some st' ∧ st.reserves (.advance 1) = true ∧
      RingSafe Params.tiny st ∧ RingSafe Params.tiny st' ∧
      ReservesOne Params.tiny st st' (.advance 1) := by
  have hrun : ∃ st, Run.run (Producers.step Params.tiny 0)
      (Producers.init Params.tiny (fun _ => Ometa.zero) 0 0) twoSubmitters = some st ∧
      st.reserves (.advance 1) = true ∧ (st.step Params.tiny 0 (.advance 1)).isSome = true := by
    decide +kernel
  obtain ⟨st, hst, hres, hsome⟩ := hrun
  obtain ⟨st', hst'⟩ := Option.isSome_iff_exists.mp hsome
  exact ⟨st, st', hst, hst', hres,
    run_ring_safe Params.tiny 0 _ 0 twoSubmitters (.advance 1) st st' (by decide +kernel) hst hst'⟩

end CcNvme

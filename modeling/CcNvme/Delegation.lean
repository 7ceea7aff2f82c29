/-
CcNvme/Delegation.lean

The submitter ring of `ccnvme/submitter.c`.  Any number of threads call `delegate_bio`:
each reserves a slot by moving `tail_watermark`, or submits the bio itself when the ring is
full, then writes the slot and moves `tail` when its turn comes.  The thread
`bio_delegater` takes bios from its private `head` up to `tail`, submits them, and writes
its `head` back to the ring at the end of a batch.

Every one of these is a step here, in any order.  What the reservations put in the ring is
logged in `placed`, in their order; `delegated_once` compares with it what is published and
what the consumer submits.
-/
import CcNvme.Horae
import CcNvme.Lib.Pool
import CcNvme.Lib.Run

namespace CcNvme

variable {β : Type*}

/-! ### The machine -/

/-- `struct submitter_ring`; `len` is a parameter, and of the flags there is one. -/
structure SubmitterRing (β : Type*) where
  head : ℕ
  tail : ℕ
  tailWatermark : ℕ
  bioSqes : ℕ → β
  /-- `HORAE_SUBMITTER_NEED_WAKEUP` -/
  needWakeup : Bool

/-- Where in `delegate_bio` a producer is. -/
inductive DelegatePc (β : Type*) where
  | idle
  /-- slot `tailOld` is reserved -/
  | reserved (b : β) (tailOld : ℕ)
  /-- the slot is written, waiting for `tail` to arrive -/
  | written (b : β) (tailOld : ℕ)
  /-- before the test of the flag -/
  | published

/-- The slot a producer has reserved and not yet published. -/
def DelegatePc.slot : DelegatePc β → Option ℕ
  | .reserved _ x | .written _ x => some x
  | _ => none

/-- Where in `bio_delegater` the consumer is. -/
inductive DelegaterPc (β : Type*) where
  | top
  /-- before the test of `tail` -/
  | loop (head : ℕ)
  /-- before it reads the slot -/
  | fetch (head : ℕ)
  /-- before `olayer_submit_bio(sqe)` -/
  | send (head : ℕ) (sqe : β)
  /-- before `ring->head = head` -/
  | writeBack (head : ℕ)
  /-- before the test of the timeout -/
  | idleTest
  /-- the flag is set, the state not yet -/
  | flagged
  /-- the state is `TASK_INTERRUPTIBLE`, before or in `schedule` -/
  | asleep
  /-- before the flag is cleared -/
  | woken

structure Delegation (β : Type*) where
  ring : SubmitterRing β
  pc : ℕ → DelegatePc β
  consumer : DelegaterPc β
  /-- the calls, and whether the bio was placed in the ring -/
  calls : List (β × Bool)
  /-- the bios placed in the ring, in the order of the reservations -/
  placed : List β
  published : List β
  /-- what the consumer has submitted -/
  submitted : List β
  /-- what producers have submitted themselves -/
  bySelf : List β
  /-- the slot has been written and not been read since -/
  unread : ℕ → Bool

inductive DelegateOp (β : Type*) where
  /-- producer `p` calls `delegate_bio`: the space test and the CAS on `tail_watermark` -/
  | reserve (p : ℕ) (b : β)
  /-- `bio_sqes[tail_old] = src_bio` -/
  | write (p : ℕ)
  /-- the CAS on `tail` succeeds -/
  | publish (p : ℕ)
  /-- the test of the flag, and `wake_up_process` -/
  | wake (p : ℕ)
  /-- the consumer takes its next step; `idle` tells that the timeout is over -/
  | consume (idle : Bool)

def Delegation.goto (st : Delegation β) (p : ℕ) (q : DelegatePc β) : Delegation β :=
  { st with pc := Function.update st.pc p q }

/-- The space test and the CAS on `tail_watermark`, as one step. -/
def Delegation.reserve (len : ℕ) (st : Delegation β) (p : ℕ) (b : β) : Delegation β :=
  let tailOld := st.ring.tailWatermark
  if horaeRingSpace st.ring.head tailOld len < 1 then
    -- do by myself
    { st with calls := st.calls ++ [(b, false)], bySelf := st.bySelf ++ [b] }
  else
    { st with
      ring := { st.ring with tailWatermark := (tailOld + 1) % 2 ^ 64 % len }
      calls := st.calls ++ [(b, true)]
      placed := st.placed ++ [b] }.goto p (.reserved b tailOld)

/-- The next step of `bio_delegater`; `none` while it sleeps. -/
def Delegation.consume (len : ℕ) (idle : Bool) (st : Delegation β) : Option (Delegation β) :=
  match st.consumer with
  | .top => some { st with consumer := .loop st.ring.head }
  | .loop head =>
      some { st with consumer := if head = st.ring.tail then .writeBack head else .fetch head }
  | .fetch head =>
      some { st with
        consumer := .send head (st.ring.bioSqes head)
        unread := Function.update st.unread head false }
  | .send head sqe =>
      some { st with
        consumer := .loop ((head + 1) % 2 ^ 64 % len)
        submitted := st.submitted ++ [sqe] }
  | .writeBack head =>
      some { st with ring := { st.ring with head := head }, consumer := .idleTest }
  | .idleTest =>
      if idle then
        some { st with ring := { st.ring with needWakeup := true }, consumer := .flagged }
      else some { st with consumer := .top }
  | .flagged => some { st with consumer := .asleep }
  | .asleep => none
  | .woken => some { st with ring := { st.ring with needWakeup := false }, consumer := .top }

def Delegation.step (len : ℕ) (st : Delegation β) : DelegateOp β → Option (Delegation β)
  | .reserve p b =>
      match st.pc p with
      | .idle => some (st.reserve len p b)
      | _ => none
  | .write p =>
      match st.pc p with
      | .reserved b x =>
          some ({ st with
            ring := { st.ring with bioSqes := Function.update st.ring.bioSqes x b }
            unread := Function.update st.unread x true }.goto p (.written b x))
      | _ => none
  | .publish p =>
      match st.pc p with
      | .written b x =>
          if st.ring.tail = x then
            some ({ st with
              ring := { st.ring with tail := (x + 1) % 2 ^ 64 % len }
              published := st.published ++ [b] }.goto p .published)
          else none
      | _ => none
  | .wake p =>
      match st.pc p, st.ring.needWakeup, st.consumer with
      | .published, true, .asleep => some ({ st with consumer := .woken }.goto p .idle)
      | .published, _, _ => some (st.goto p .idle)
      | _, _, _ => none
  | .consume idle => st.consume len idle

/-- A ring just set up, with whatever `kmalloc` returned in its slots. -/
def Delegation.init (mem : ℕ → β) : Delegation β where
  ring := ⟨0, 0, 0, mem, false⟩
  pc := fun _ => .idle
  consumer := .top
  calls := []
  placed := []
  published := []
  submitted := []
  bySelf := []
  unread := fun _ => false

/-! ### The property -/

/-- A slot that is written has been read since it was last written; a slot that is read has
been written since it was last read. -/
def SlotAccess (st : Delegation β) : DelegateOp β → Prop
  | .write p => ∀ b x, st.pc p = .reserved b x → st.unread x = false
  | .consume _ => ∀ head, st.consumer = .fetch head → st.unread head = true
  | _ => True

/-- What has been submitted by whom. -/
structure DelegatedOnce (st : Delegation β) : Prop where
  submitted : st.submitted <+: st.published
  published : st.published <+: st.placed
  placed : st.placed = (st.calls.filter (·.2)).map Prod.fst
  bySelf : st.bySelf = (st.calls.filter (!·.2)).map Prod.fst

/-- The consumer is neither asleep nor on the way to sleep. -/
def DelegaterPc.awake : DelegaterPc β → Bool
  | .flagged | .asleep => false
  | _ => true

/-- The consumer, left alone, submits all that is published. -/
def Drains (len : ℕ) (st : Delegation β) : Prop :=
  ∃ n st', Run.run (Delegation.step len) st (List.replicate n (.consume false)) = some st' ∧
    st'.published = st.published ∧ st'.submitted = st.published

/-! ### Counters -/

/-- The cursors are the slots of the counters `H ≤ T ≤ W`, less than a ring apart. -/
structure RingAt (len : ℕ) (r : SubmitterRing β) (H T W : ℕ) : Prop where
  head_le : H ≤ T
  tail_le : T ≤ W
  window : W < H + len
  head_eq : r.head = H % len
  tail_eq : r.tail = T % len
  watermark_eq : r.tailWatermark = W % len

variable {len H T W : ℕ} {r : SubmitterRing β}

/-- The next slot, as the source computes it. -/
theorem next_slot_u64 (hlen : 0 < len) (hmax : len ≤ 2 ^ 63) (i : ℕ) :
    (i % len + 1) % 2 ^ 64 % len = (i + 1) % len := by
  have hlt := Nat.mod_lt i hlen
  have hfits : (i % len + 1) % 2 ^ 64 = i % len + 1 := Nat.mod_eq_of_lt (by omega)
  rw [hfits, Circular.slot_succ]

namespace RingAt

/-- Counters of the window are told apart by their slots. -/
theorem slot_inj (h : RingAt len r H T W) {i j : ℕ} (hi : H ≤ i) (hiW : i ≤ W) (hj : H ≤ j)
    (hjW : j ≤ W) (he : i % len = j % len) : i = j :=
  Circular.mod_inj_of_window hi (hiW.trans_lt h.window) hj (hjW.trans_lt h.window) he

theorem space_ge_one_iff (h : RingAt len r H T W) (hmax : len ≤ 2 ^ 63) :
    horaeRingSpace r.head r.tailWatermark len ≥ 1 ↔ W + 1 < H + len := by
  have hHW := h.head_le.trans h.tail_le
  have hwindow := h.window
  have hlen : 0 < len := by omega
  rw [h.head_eq, h.watermark_eq, horaeRingSpace_eq (Nat.mod_lt _ hlen) (Nat.mod_lt _ hlen) hmax,
    Circular.dist_mod hHW h.window]
  omega

theorem reserve (h : RingAt len r H T W) (hlen : 0 < len) (hmax : len ≤ 2 ^ 63)
    (hroom : W + 1 < H + len) :
    RingAt len { r with tailWatermark := (r.tailWatermark + 1) % 2 ^ 64 % len } H T (W + 1) :=
  ⟨h.head_le, Nat.le_succ_of_le h.tail_le, hroom, h.head_eq, h.tail_eq, by
    rw [← next_slot_u64 hlen hmax, h.watermark_eq]⟩

theorem publish (h : RingAt len r H T W) (hlen : 0 < len) (hmax : len ≤ 2 ^ 63) (hT : T < W) :
    RingAt len { r with tail := (r.tail + 1) % 2 ^ 64 % len } H (T + 1) W :=
  ⟨Nat.le_succ_of_le h.head_le, hT, h.window, h.head_eq, by
    rw [← next_slot_u64 hlen hmax, h.tail_eq], h.watermark_eq⟩

/-- `ring->head = head` -/
theorem writeBack (h : RingAt len r H T W) {C : ℕ} (hH : H ≤ C) (hC : C ≤ T) :
    RingAt len { r with head := C % len } C T W :=
  ⟨hC, h.tail_le, by have := h.window; omega, rfl, h.tail_eq, h.watermark_eq⟩

end RingAt

/-! ### The invariant -/

/-- The bio that has been read and not yet submitted. -/
def DelegaterPc.inHand : DelegaterPc β → ℕ
  | .send _ _ => 1
  | _ => 0

/-- What holds of the consumer when `C` bios are submitted: its private `head` is the slot of
`C`, and outside a batch so is that of the ring. -/
def ConsumerOk (len H C T : ℕ) (placed : List β) : DelegaterPc β → Prop
  | .loop head | .writeBack head => head = C % len
  | .fetch head => head = C % len ∧ C < T
  | .send head sqe => head = C % len ∧ C < T ∧ placed[C]? = some sqe
  | _ => H = C

/-- What holds of a producer: its slot is that of a counter in `[T, W)`, at which its bio was
placed, and it holds the bio once written. -/
structure DelegateOk (len T : ℕ) (placed : List β) (sqes : ℕ → β) (unread : ℕ → Bool)
    (q : DelegatePc β) : Prop where
  held : ∀ x, q.slot = some x → ∃ i, T ≤ i ∧ i < placed.length ∧ x = i % len ∧
    ∀ b, q = .reserved b x ∨ q = .written b x → placed[i]? = some b
  ready : ∀ b x, q = .written b x → sqes x = b ∧ unread x = true

theorem DelegateOk.of_slot_none {placed : List β} {sqes : ℕ → β} {unread : ℕ → Bool}
    {q : DelegatePc β} (h : q.slot = none) : DelegateOk len T placed sqes unread q := by
  refine ⟨fun x hx => ?_, ?_⟩
  · rw [h] at hx
    cases hx
  · rintro b x rfl
    cases h

/-- The slots that have been written and not been read are those of the bios published and not
read, and those written and not yet published. -/
structure DelegationInv (len : ℕ) (st : Delegation β) (H : ℕ) : Prop where
  ring : RingAt len st.ring H st.published.length st.placed.length
  acked : H ≤ st.submitted.length
  once : DelegatedOnce st
  consumer : ConsumerOk len H st.submitted.length st.published.length st.placed st.consumer
  producers : ∀ p, DelegateOk len st.published.length st.placed st.ring.bioSqes st.unread (st.pc p)
  exclusive : ∀ p p', p ≠ p' → ∀ x, (st.pc p).slot = some x → (st.pc p').slot ≠ some x
  filled : ∀ i, st.submitted.length + st.consumer.inHand ≤ i → i < st.published.length →
    st.placed[i]? = some (st.ring.bioSqes (i % len)) ∧ st.unread (i % len) = true
  fresh : ∀ x, st.unread x = true →
    (∃ i, st.submitted.length + st.consumer.inHand ≤ i ∧ i < st.published.length ∧ x = i % len) ∨
      ∃ p b, st.pc p = .written b x

namespace DelegationInv

variable {st : Delegation β}

theorem submitted_le (h : DelegationInv len st H) :
    st.submitted.length ≤ st.published.length := h.once.submitted.length_le

/-- What has been read has been published. -/
theorem read_le (h : DelegationInv len st H) :
    st.submitted.length + st.consumer.inHand ≤ st.published.length := by
  have hconsumer := h.consumer
  have hle := h.submitted_le
  rcases e : st.consumer with - | x | x | ⟨x, b⟩ | x | - | - | - | - <;> rw [e] at hconsumer
  case send =>
    exact hconsumer.2.1
  all_goals exact hle

/-- The slot a producer has reserved holds no unread bio of `[R, T)`. -/
theorem slot_ne (h : DelegationInv len st H) {p x i : ℕ} (hx : (st.pc p).slot = some x)
    (hi : st.submitted.length + st.consumer.inHand ≤ i) (hiT : i < st.published.length) :
    i % len ≠ x := by
  obtain ⟨k, hTk, hkW, rfl, -⟩ := (h.producers p).held x hx
  have hacked := h.acked
  intro he
  have := h.ring.slot_inj (by omega) (by omega) (by omega) (by omega) he
  omega

end DelegationInv

/-! ### Steps of the producers -/

/-- A bio placed behind `W` changes nothing for the producers on the way. -/
theorem DelegateOk.place {placed : List β} {sqes : ℕ → β} {unread : ℕ → Bool}
    {q : DelegatePc β} (h : DelegateOk len T placed sqes unread q) (b : β) :
    DelegateOk len T (placed ++ [b]) sqes unread q := by
  refine ⟨fun x hx => ?_, h.ready⟩
  obtain ⟨i, hTi, hi, hxi, hb⟩ := h.held x hx
  refine ⟨i, hTi, by rw [List.length_append]; omega, hxi, fun b' hq => ?_⟩
  rw [List.getElem?_append_left hi]
  exact hb b' hq

theorem ConsumerOk.place {C : ℕ} {placed : List β} {q : DelegaterPc β}
    (h : ConsumerOk len H C T placed q) (hT : T ≤ placed.length) (b : β) :
    ConsumerOk len H C T (placed ++ [b]) q := by
  cases q with
  | send x sqe =>
      obtain ⟨hx, hC, hsqe⟩ := h
      exact ⟨hx, hC, by rw [List.getElem?_append_left (by omega)]; exact hsqe⟩
  | _ => exact h

/-- A producer that moves on from another place leaves those that have written. -/
theorem exists_written_update {pc : ℕ → DelegatePc β} {p y : ℕ} {q : DelegatePc β}
    (hp : ∀ b, pc p ≠ .written b y) (h : ∃ p' b, pc p' = .written b y) :
    ∃ p' b, Function.update pc p q p' = .written b y := by
  obtain ⟨p', b, hp'⟩ := h
  have hne : p' ≠ p := by
    rintro rfl
    exact hp b hp'
  exact ⟨p', b, by rw [Function.update_of_ne hne, hp']⟩

namespace DelegationInv

variable {st st' : Delegation β}

theorem reserve (hlen : 0 < len) (hmax : len ≤ 2 ^ 63) (h : DelegationInv len st H) {p : ℕ}
    (hp : st.pc p = .idle) (b : β) : DelegationInv len (st.reserve len p b) H := by
  have hring := h.ring
  unfold Delegation.reserve
  dsimp only
  split_ifs with hspace
  · -- the ring is full
    refine ⟨h.ring, h.acked, ⟨h.once.submitted, h.once.published, ?_, ?_⟩, h.consumer, h.producers,
      h.exclusive, h.filled, h.fresh⟩
    · simpa using h.once.placed
    · simpa using h.once.bySelf
  · have hroom := (hring.space_ge_one_iff hmax).mp (by omega)
    have hTW := hring.tail_le
    have hother : ∀ p', p' ≠ p → ∀ x, (st.pc p').slot = some x → x ≠ st.placed.length % len := by
      rintro p' - x hx rfl
      obtain ⟨i, hTi, hi, he, -⟩ := (h.producers p').held _ hx
      have hHT := hring.head_le
      have := hring.slot_inj (by omega) (le_refl _) (by omega) (by omega) he
      omega
    have hring' : RingAt len { st.ring with
        tailWatermark := (st.ring.tailWatermark + 1) % 2 ^ 64 % len } H st.published.length
        (st.placed ++ [b]).length := by
      rw [List.length_append]
      exact hring.reserve hlen hmax hroom
    refine ⟨hring', h.acked, ⟨h.once.submitted, h.once.published.trans (List.prefix_append _ _), ?_,
      ?_⟩, h.consumer.place hTW b, ?_, ?_, fun i hi hiT => ?_, fun x hx => ?_⟩
    · simpa [Delegation.goto] using h.once.placed
    · simpa [Delegation.goto] using h.once.bySelf
    · refine (Function.forall_update_iff st.pc fun _ q => DelegateOk len st.published.length
        (st.placed ++ [b]) st.ring.bioSqes st.unread q).mpr
        ⟨?_, fun p' _ => (h.producers p').place b⟩
      refine ⟨fun x hx => ⟨st.placed.length, hTW, by simp, ?_, ?_⟩, nofun⟩
      · rw [← hring.watermark_eq]
        exact (Option.some.inj hx).symm
      · rintro b' (he | he)
        · obtain ⟨rfl, -⟩ := DelegatePc.reserved.inj he
          simp
        · cases he
    · refine Pool.pairwise_update (R := fun q q' : DelegatePc β => ∀ x, q.slot = some x →
        q'.slot ≠ some x) h.exclusive fun p' hp' => ⟨fun x hx hx' => ?_, fun x hx hx' => ?_⟩
      · obtain rfl := Option.some.inj hx
        exact hother p' hp' _ hx' hring.watermark_eq
      · obtain rfl := Option.some.inj hx'
        exact hother p' hp' _ hx hring.watermark_eq
    · obtain ⟨hb, hu⟩ := h.filled i hi hiT
      refine ⟨?_, hu⟩
      show (st.placed ++ [b])[i]? = _
      rw [List.getElem?_append_left (lt_of_lt_of_le hiT hTW)]
      exact hb
    · exact (h.fresh x hx).imp id (exists_written_update (by simp [hp]))

theorem write (h : DelegationInv len st H) {p x : ℕ} {b : β} (hp : st.pc p = .reserved b x) :
    DelegationInv len ({ st with
      ring := { st.ring with bioSqes := Function.update st.ring.bioSqes x b }
      unread := Function.update st.unread x true }.goto p (.written b x)) H := by
  have hslot : (st.pc p).slot = some x := by rw [hp]; rfl
  have hring := h.ring
  refine ⟨⟨hring.head_le, hring.tail_le, hring.window, hring.head_eq, hring.tail_eq,
    hring.watermark_eq⟩, h.acked, ⟨h.once.submitted, h.once.published, h.once.placed,
    h.once.bySelf⟩, h.consumer, ?_, ?_, fun i hi hiT => ?_, fun y hy => ?_⟩
  · refine (Function.forall_update_iff st.pc fun _ q => DelegateOk len st.published.length st.placed
      (Function.update st.ring.bioSqes x b) (Function.update st.unread x true) q).mpr
      ⟨?_, fun p' hp' => ?_⟩
    · refine ⟨fun y hy => ?_, ?_⟩
      · obtain rfl := Option.some.inj hy
        obtain ⟨i, hTi, hi, hxi, hb⟩ := (h.producers p).held _ hslot
        refine ⟨i, hTi, hi, hxi, ?_⟩
        rintro b' (he | he)
        · cases he
        · obtain ⟨rfl, -⟩ := DelegatePc.written.inj he
          exact hb _ (Or.inl hp)
      · rintro b' y he
        obtain ⟨rfl, rfl⟩ := DelegatePc.written.inj he
        exact ⟨Function.update_self .., Function.update_self ..⟩
    · refine ⟨(h.producers p').held, fun b' y hy => ?_⟩
      have hne : y ≠ x := by
        rintro rfl
        exact h.exclusive p p' hp'.symm y hslot (by rw [hy]; rfl)
      rw [Function.update_of_ne hne, Function.update_of_ne hne]
      exact (h.producers p').ready b' y hy
  · refine Pool.pairwise_update (R := fun q q' : DelegatePc β => ∀ x, q.slot = some x →
      q'.slot ≠ some x) h.exclusive fun p' hp' => ⟨fun y hy => ?_, fun y hy hy' => ?_⟩
    · obtain rfl := Option.some.inj hy
      exact h.exclusive p p' hp'.symm _ hslot
    · obtain rfl := Option.some.inj hy'
      exact h.exclusive p' p hp' _ hy hslot
  · have hne := h.slot_ne hslot hi hiT
    show st.placed[i]? = some (Function.update st.ring.bioSqes x b (i % len)) ∧
      Function.update st.unread x true (i % len) = true
    rw [Function.update_of_ne hne, Function.update_of_ne hne]
    exact h.filled i hi hiT
  · by_cases hyx : y = x
    · subst hyx
      exact Or.inr ⟨p, b, Function.update_self ..⟩
    · have hold : st.unread y = true := by
        rw [← hy]
        exact (Function.update_of_ne hyx _ _).symm
      exact (h.fresh y hold).imp id (exists_written_update (by simp [hp]))

theorem publish (hlen : 0 < len) (hmax : len ≤ 2 ^ 63) (h : DelegationInv len st H) {p x : ℕ}
    {b : β} (hp : st.pc p = .written b x) (hx : st.ring.tail = x) :
    DelegationInv len ({ st with
      ring := { st.ring with tail := (x + 1) % 2 ^ 64 % len }
      published := st.published ++ [b] }.goto p .published) H := by
  have hslot : (st.pc p).slot = some x := by rw [hp]; rfl
  have hring := h.ring
  have hread := h.read_le
  obtain ⟨i, hTi, hi, hxi, hb⟩ := (h.producers p).held x hslot
  obtain ⟨hsqe, hunread⟩ := (h.producers p).ready b x hp
  -- the counter of its slot is that of `tail`
  obtain rfl : i = st.published.length := by
    have hHT := hring.head_le
    exact hring.slot_inj (by omega) (by omega) (by omega) (by omega)
      (hxi.symm.trans (hx.symm.trans hring.tail_eq))
  have hplaced := hb b (Or.inr hp)
  have hlength : (st.published ++ [b]).length = st.published.length + 1 := by simp
  have hring' : RingAt len { st.ring with tail := (x + 1) % 2 ^ 64 % len } H
      (st.published ++ [b]).length st.placed.length := by
    rw [hlength, ← hx]
    exact hring.publish hlen hmax hi
  refine ⟨hring', h.acked, ⟨h.once.submitted.trans (List.prefix_append _ _), ?_, h.once.placed,
    h.once.bySelf⟩, ?_, ?_, ?_, fun j hj hjT => ?_, fun y hy => ?_⟩
  · rw [List.prefix_iff_eq_take]
    show st.published ++ [b] = st.placed.take (st.published ++ [b]).length
    rw [hlength, List.take_add_one, hplaced, ← List.prefix_iff_eq_take.mp h.once.published]
    rfl
  · have hconsumer := h.consumer
    show ConsumerOk len H st.submitted.length (st.published ++ [b]).length st.placed st.consumer
    rw [hlength]
    rcases e : st.consumer with - | y | y | ⟨y, c⟩ | y | - | - | - | - <;> rw [e] at hconsumer
    case fetch => exact ⟨hconsumer.1, by omega⟩
    case send => exact ⟨hconsumer.1, by omega, hconsumer.2.2⟩
    all_goals exact hconsumer
  · refine (Function.forall_update_iff st.pc fun _ q => DelegateOk len (st.published ++ [b]).length
      st.placed st.ring.bioSqes st.unread q).mpr ⟨.of_slot_none rfl, fun p' hp' => ?_⟩
    refine ⟨fun y hy => ?_, (h.producers p').ready⟩
    obtain ⟨j, hTj, hj, hyj, hbj⟩ := (h.producers p').held y hy
    have hne : j ≠ st.published.length := by
      rintro rfl
      exact h.exclusive p p' hp'.symm y (by rw [hslot, hxi, hyj]) hy
    exact ⟨j, by rw [hlength]; omega, hj, hyj, hbj⟩
  · refine Pool.pairwise_update (R := fun q q' : DelegatePc β => ∀ x, q.slot = some x →
      q'.slot ≠ some x) h.exclusive fun p' _ => ⟨nofun, fun _ _ => nofun⟩
  · rcases Nat.lt_or_ge j st.published.length with hlt | hge
    · exact h.filled j hj hlt
    · obtain rfl : j = st.published.length := by
        have : j < (st.published ++ [b]).length := hjT
        omega
      rw [← hxi]
      exact ⟨hplaced.trans (congrArg some hsqe.symm), hunread⟩
  · have hold : ∀ j, st.submitted.length + st.consumer.inHand ≤ j → j ≤ st.published.length →
        y = j % len → ∃ j, st.submitted.length + st.consumer.inHand ≤ j ∧
          j < (st.published ++ [b]).length ∧ y = j % len :=
      fun j h₁ h₂ h₃ => ⟨j, h₁, by omega, h₃⟩
    rcases h.fresh y hy with ⟨j, hj, hjT, hyj⟩ | ⟨p', b', hp'⟩
    · exact Or.inl (hold j hj hjT.le hyj)
    · by_cases hpp : p' = p
      · subst hpp
        obtain ⟨-, rfl⟩ := DelegatePc.written.inj (hp.symm.trans hp')
        exact Or.inl (hold _ hread le_rfl hxi)
      · exact Or.inr ⟨p', b', by rw [← hp']; exact Function.update_of_ne hpp _ _⟩

/-- The producer has published, and returns. -/
theorem goto_idle (h : DelegationInv len st H) {p : ℕ} (hp : st.pc p = .published) :
    DelegationInv len (st.goto p .idle) H := by
  refine ⟨h.ring, h.acked, ⟨h.once.submitted, h.once.published, h.once.placed, h.once.bySelf⟩,
    h.consumer, ?_, ?_, h.filled, fun y hy => ?_⟩
  · exact (Function.forall_update_iff st.pc fun _ q => DelegateOk len st.published.length st.placed
      st.ring.bioSqes st.unread q).mpr ⟨.of_slot_none rfl, fun p' _ => h.producers p'⟩
  · exact Pool.pairwise_update (R := fun q q' : DelegatePc β => ∀ x, q.slot = some x →
      q'.slot ≠ some x) h.exclusive fun p' _ => ⟨nofun, fun _ _ => nofun⟩
  · exact (h.fresh y hy).imp id (exists_written_update (by simp [hp]))

/-! ### Steps of the consumer -/

/-- The consumer goes on without a bio in its hand, and may change the flag. -/
theorem setConsumer (h : DelegationInv len st H) {q : DelegaterPc β} (w : Bool)
    (hq : ConsumerOk len H st.submitted.length st.published.length st.placed q)
    (hhand : q.inHand = st.consumer.inHand) :
    DelegationInv len
      { st with ring := { st.ring with needWakeup := w }, consumer := q } H := by
  have hring := h.ring
  refine ⟨⟨hring.head_le, hring.tail_le, hring.window, hring.head_eq, hring.tail_eq,
    hring.watermark_eq⟩, h.acked, ⟨h.once.submitted, h.once.published, h.once.placed,
    h.once.bySelf⟩, hq, h.producers, h.exclusive, fun i hi => ?_, fun y hy => ?_⟩
  · exact h.filled i (hhand ▸ hi)
  · exact hhand.symm ▸ h.fresh y hy

/-- `sqe = bio_sqes[head]` -/
theorem fetch (h : DelegationInv len st H) {x : ℕ} (hc : st.consumer = .fetch x) :
    st.unread x = true ∧
      DelegationInv len { st with
        consumer := .send x (st.ring.bioSqes x)
        unread := Function.update st.unread x false } H := by
  have hhand : st.consumer.inHand = 0 := by rw [hc]; rfl
  have hconsumer := h.consumer
  rw [hc] at hconsumer
  obtain ⟨rfl, hC⟩ := hconsumer
  obtain ⟨hsqe, hunread⟩ := h.filled st.submitted.length (by omega) hC
  have hacked := h.acked
  have hTW := h.ring.tail_le
  refine ⟨hunread, h.ring, h.acked, ⟨h.once.submitted, h.once.published, h.once.placed,
    h.once.bySelf⟩, ⟨rfl, hC, hsqe⟩, fun p => ⟨(h.producers p).held, fun b y hy => ?_⟩, h.exclusive,
    fun i hi hiT => ?_, fun y hy => ?_⟩
  · have hne := h.slot_ne (p := p) (x := y) (by rw [hy]; rfl) (by omega) hC
    show st.ring.bioSqes y = b ∧ Function.update st.unread _ false y = true
    rw [Function.update_of_ne hne.symm]
    exact (h.producers p).ready b y hy
  · have hi : st.submitted.length + 1 ≤ i := hi
    have hiT : i < st.published.length := hiT
    have hne : i % len ≠ st.submitted.length % len := by
      intro he
      have := h.ring.slot_inj (by omega) (by omega) (by omega) (by omega) he
      omega
    show _ ∧ Function.update st.unread _ false (i % len) = true
    rw [Function.update_of_ne hne]
    exact h.filled i (by omega) hiT
  · have hne : y ≠ st.submitted.length % len := by
      rintro rfl
      have hread := Function.update_self (st.submitted.length % len) false st.unread
      exact Bool.false_ne_true (hread.symm.trans hy)
    have hold : st.unread y = true := by
      rw [← hy]
      exact (Function.update_of_ne hne _ _).symm
    rcases h.fresh y hold with ⟨i, hi, hiT, hyi⟩ | hright
    · refine Or.inl ⟨i, ?_, hiT, hyi⟩
      show st.submitted.length + 1 ≤ i
      have : i ≠ st.submitted.length := by
        rintro rfl
        exact hne hyi
      omega
    · exact Or.inr hright

/-- `olayer_submit_bio(sqe); head = (head + 1) % ring->len` -/
theorem send (hlen : 0 < len) (hmax : len ≤ 2 ^ 63) (h : DelegationInv len st H) {x : ℕ} {b : β}
    (hc : st.consumer = .send x b) :
    DelegationInv len { st with
      consumer := .loop ((x + 1) % 2 ^ 64 % len)
      submitted := st.submitted ++ [b] } H := by
  have hhand : st.consumer.inHand = 1 := by rw [hc]; rfl
  have hlength : (st.submitted ++ [b]).length = st.submitted.length + 1 := by simp
  have hconsumer := h.consumer
  rw [hc] at hconsumer
  obtain ⟨rfl, hC, hplaced⟩ := hconsumer
  have hpublished : st.published[st.submitted.length]? = some b := by
    rw [List.prefix_iff_eq_take.mp h.once.published, List.getElem?_take, if_pos hC]
    exact hplaced
  refine ⟨h.ring, h.acked.trans (by simp), ⟨?_, h.once.published, h.once.placed, h.once.bySelf⟩, ?_,
    h.producers, h.exclusive, fun i hi hiT => ?_, fun y hy => ?_⟩
  · rw [List.prefix_iff_eq_take]
    show st.submitted ++ [b] = st.published.take (st.submitted ++ [b]).length
    rw [hlength, List.take_add_one, hpublished, ← List.prefix_iff_eq_take.mp h.once.submitted]
    rfl
  · show (st.submitted.length % len + 1) % 2 ^ 64 % len = (st.submitted ++ [b]).length % len
    rw [next_slot_u64 hlen hmax, hlength]
  · have hi : (st.submitted ++ [b]).length + 0 ≤ i := hi
    exact h.filled i (by omega) hiT
  · rcases h.fresh y hy with ⟨i, hi, hiT, hyi⟩ | hright
    · refine Or.inl ⟨i, ?_, hiT, hyi⟩
      show (st.submitted ++ [b]).length + 0 ≤ i
      omega
    · exact Or.inr hright

/-- `ring->head = head` -/
theorem writeBack (h : DelegationInv len st H) {x : ℕ} (hc : st.consumer = .writeBack x) :
    DelegationInv len { st with ring := { st.ring with head := x }, consumer := .idleTest }
      st.submitted.length := by
  have hconsumer := h.consumer
  rw [hc] at hconsumer
  obtain rfl : x = st.submitted.length % len := hconsumer
  have hhand : st.consumer.inHand = 0 := by rw [hc]; rfl
  refine ⟨h.ring.writeBack h.acked h.submitted_le, le_rfl, ⟨h.once.submitted, h.once.published,
    h.once.placed, h.once.bySelf⟩, rfl, h.producers, h.exclusive, fun i hi => ?_, fun y hy => ?_⟩
  · exact h.filled i (hhand.symm ▸ hi)
  · have hfresh := h.fresh y hy
    rw [hhand] at hfresh
    exact hfresh

theorem consume (hlen : 0 < len) (hmax : len ≤ 2 ^ 63) (h : DelegationInv len st H) {idle : Bool}
    (hs : st.consume len idle = some st') : ∃ H', DelegationInv len st' H' := by
  have hconsumer := h.consumer
  unfold Delegation.consume at hs
  rcases e : st.consumer with - | x | x | ⟨x, b⟩ | x | - | - | - | - <;>
    simp only [e, Option.some.injEq, reduceCtorEq] at hs <;> rw [e] at hconsumer
  case top =>
    subst hs
    have hC : H = st.submitted.length := hconsumer
    exact ⟨H, h.setConsumer st.ring.needWakeup (hC ▸ h.ring.head_eq) (by rw [e]; rfl)⟩
  case loop =>
    subst hs
    obtain rfl : x = st.submitted.length % len := hconsumer
    refine ⟨H, h.setConsumer st.ring.needWakeup ?_ ?_⟩
    · split_ifs with htail
      · rfl
      · refine ⟨rfl, lt_of_le_of_ne h.submitted_le fun he => htail ?_⟩
        rw [he, h.ring.tail_eq]
    · rw [e]
      split_ifs <;> rfl
  case fetch =>
    subst hs
    exact ⟨H, (h.fetch e).2⟩
  case send =>
    subst hs
    exact ⟨H, h.send hlen hmax e⟩
  case writeBack =>
    subst hs
    exact ⟨_, h.writeBack e⟩
  case idleTest =>
    split_ifs at hs <;> rw [Option.some.injEq] at hs <;> subst hs
    · exact ⟨H, h.setConsumer true hconsumer (by rw [e]; rfl)⟩
    · exact ⟨H, h.setConsumer st.ring.needWakeup hconsumer (by rw [e]; rfl)⟩
  case flagged =>
    subst hs
    exact ⟨H, h.setConsumer st.ring.needWakeup hconsumer (by rw [e]; rfl)⟩
  case woken =>
    subst hs
    exact ⟨H, h.setConsumer false hconsumer (by rw [e]; rfl)⟩

/-! ### Runs -/

theorem init (hlen : 0 < len) (mem : ℕ → β) : DelegationInv len (Delegation.init mem) 0 where
  ring := ⟨le_rfl, le_rfl, by simpa [Delegation.init] using hlen, by simp [Delegation.init],
    by simp [Delegation.init], by simp [Delegation.init]⟩
  acked := le_rfl
  once := ⟨List.prefix_rfl, List.prefix_rfl, rfl, rfl⟩
  consumer := rfl
  producers := fun _ => .of_slot_none rfl
  exclusive := nofun
  filled := nofun
  fresh := nofun

theorem step (hlen : 0 < len) (hmax : len ≤ 2 ^ 63) (h : DelegationInv len st H)
    {op : DelegateOp β} (hs : st.step len op = some st') : ∃ H', DelegationInv len st' H' := by
  cases op with
  | reserve p b =>
      simp only [Delegation.step] at hs
      split at hs <;> simp only [Option.some.injEq, reduceCtorEq] at hs
      rename_i hp
      exact ⟨H, hs ▸ h.reserve hlen hmax hp b⟩
  | write p =>
      simp only [Delegation.step] at hs
      split at hs <;> simp only [Option.some.injEq, reduceCtorEq] at hs
      rename_i hp
      exact ⟨H, hs ▸ h.write hp⟩
  | publish p =>
      simp only [Delegation.step] at hs
      split at hs <;> simp only [Option.ite_none_right_eq_some, Option.some.injEq,
        reduceCtorEq] at hs
      rename_i hp
      exact ⟨H, hs.2 ▸ h.publish hlen hmax hp hs.1⟩
  | wake p =>
      simp only [Delegation.step] at hs
      split at hs <;> simp only [Option.some.injEq, reduceCtorEq] at hs
      · rename_i hp _ hc
        have hC := h.consumer
        rw [hc] at hC
        have hwoken : DelegationInv len { st with consumer := .woken } H :=
          h.setConsumer st.ring.needWakeup hC (by rw [hc]; rfl)
        exact ⟨H, hs ▸ hwoken.goto_idle hp⟩
      · rename_i hp _
        exact ⟨H, hs ▸ h.goto_idle hp⟩
  | consume idle => exact h.consume hlen hmax hs

theorem slotAccess (h : DelegationInv len st H) (op : DelegateOp β) : SlotAccess st op := by
  cases op with
  | write p =>
      intro b x hp
      have hslot : (st.pc p).slot = some x := by rw [hp]; rfl
      rw [← Bool.not_eq_true]
      intro hunread
      rcases h.fresh x hunread with ⟨i, hi, hiT, rfl⟩ | ⟨p', b', hp'⟩
      · exact h.slot_ne hslot hi hiT rfl
      · have hne : p ≠ p' := by
          rintro rfl
          cases hp.symm.trans hp'
        exact h.exclusive p p' hne x hslot (by rw [hp']; rfl)
  | consume idle => exact fun x hc => (h.fetch hc).1
  | _ => trivial

end DelegationInv

/-! ### The consumer empties the ring -/

variable {st st' : Delegation β}

theorem Delegation.consume_published {idle : Bool} (hs : st.consume len idle = some st') :
    st'.published = st.published := by
  unfold Delegation.consume at hs
  split at hs
  case h_6 => split_ifs at hs <;> cases hs <;> rfl
  all_goals
    cases hs
    try rfl

theorem Drains.of_consume (hs : st.consume len false = some st') (h : Drains len st') :
    Drains len st := by
  obtain ⟨n, st'', hrun, hkept, hall⟩ := h
  have hpublished := Delegation.consume_published hs
  refine ⟨n + 1, st'', ?_, hkept.trans hpublished, hall.trans hpublished⟩
  rw [List.replicate_succ, Run.run_cons]
  exact Option.bind_eq_some_iff.mpr ⟨st', hs, hrun⟩

/-- The steps up to the next test of `tail`. -/
def DelegaterPc.toLoop : DelegaterPc β → ℕ
  | .top | .send _ _ => 1
  | .fetch _ | .idleTest | .woken => 2
  | .writeBack _ => 3
  | _ => 0

theorem DelegaterPc.eq_loop {q : DelegaterPc β} (hawake : q.awake) (h : q.toLoop = 0) :
    ∃ x, q = .loop x := by
  cases q with
  | loop x => exact ⟨x, rfl⟩
  | flagged | asleep => cases hawake
  | _ => cases h

theorem Delegation.consume_toLoop (len : ℕ) {k : ℕ} (hk : st.consumer.toLoop = k + 1) :
    ∃ st', st.consume len false = some st' ∧ st'.consumer.awake ∧ st'.consumer.toLoop = k := by
  unfold Delegation.consume
  rcases e : st.consumer with - | x | x | ⟨x, b⟩ | x | - | - | - | - <;> rw [e] at hk
  case loop | flagged | asleep => cases hk
  all_goals exact ⟨_, rfl, rfl, Nat.succ.inj hk⟩

namespace DelegationInv

/-- Before the test of `tail`; the induction is on the number of bios left. -/
theorem drains_loop (hlen : 0 < len) (hmax : len ≤ 2 ^ 63) (n : ℕ) :
    ∀ {st : Delegation β} {H : ℕ} {x : ℕ}, DelegationInv len st H → st.consumer = .loop x →
      st.published.length = st.submitted.length + n → Drains len st := by
  induction n with
  | zero =>
      intro st H x h hc hn
      exact ⟨0, st, rfl, rfl, h.once.submitted.eq_of_length hn.symm⟩
  | succ n ih =>
      intro st H x h hc hn
      have hx := h.consumer
      rw [hc] at hx
      obtain rfl : x = st.submitted.length % len := hx
      have hne : st.submitted.length % len ≠ st.ring.tail := by
        intro he
        rw [h.ring.tail_eq] at he
        have hacked := h.acked
        have hTW := h.ring.tail_le
        have := h.ring.slot_inj (by omega) (by omega) (by omega) hTW he
        omega
      -- the test, the read and the submission of the next bio
      have hloop : st.consume len false
          = some { st with consumer := .fetch (st.submitted.length % len) } := by
        simp only [Delegation.consume, hc, if_neg hne]
      obtain ⟨H₁, h₁⟩ := h.consume hlen hmax hloop
      obtain ⟨H₂, h₂⟩ := h₁.consume hlen hmax (rfl : Delegation.consume len false _ = _)
      obtain ⟨H₃, h₃⟩ := h₂.consume hlen hmax (rfl : Delegation.consume len false _ = _)
      refine .of_consume hloop (.of_consume rfl (.of_consume rfl (ih h₃ rfl ?_)))
      show st.published.length = (st.submitted ++ [_]).length + n
      rw [List.length_append, List.length_singleton]
      omega

theorem drains (hlen : 0 < len) (hmax : len ≤ 2 ^ 63) (h : DelegationInv len st H)
    (hawake : st.consumer.awake) : Drains len st := by
  induction hk : st.consumer.toLoop generalizing st H with
  | zero =>
      obtain ⟨x, hc⟩ := st.consumer.eq_loop hawake hk
      exact drains_loop hlen hmax _ h hc (Nat.add_sub_cancel' h.submitted_le).symm
  | succ k ih =>
      obtain ⟨st', hs, hawake', hk'⟩ := Delegation.consume_toLoop len hk
      obtain ⟨H', h'⟩ := h.consume hlen hmax hs
      exact .of_consume hs (ih h' hawake' hk')

end DelegationInv

/-- Any number of producers, the consumer, and any order of their steps: a slot is written only
when what it held has been read and read only when it has been written; what the consumer
submits is what was published, in the order of the reservations, and it submits all of it
unless it sleeps; what was not placed in the ring is submitted by its producer. -/
theorem delegated_once (hlen : 0 < len) (hmax : len ≤ 2 ^ 63) (mem : ℕ → β)
    (ops : List (DelegateOp β)) :
    Run.Along (Delegation.step len) SlotAccess (Delegation.init mem) ops ∧
      ∀ st, Run.run (Delegation.step len) (Delegation.init mem) ops = some st →
        DelegatedOnce st ∧ (st.consumer.awake → Drains len st) := by
  have hinit : ∃ H, DelegationInv len (Delegation.init mem) H := ⟨0, .init hlen mem⟩
  have hstep (st : Delegation β) (op : DelegateOp β) (st' : Delegation β)
      (hinv : ∃ H, DelegationInv len st H) (hs : st.step len op = some st') :
      ∃ H, DelegationInv len st' H := by
    obtain ⟨H, h⟩ := hinv
    exact h.step hlen hmax hs
  refine ⟨Run.along_of_keeps ?_ hstep hinit, fun st hrun => ?_⟩
  · rintro st op ⟨H, h⟩
    exact h.slotAccess op
  · obtain ⟨H, h⟩ := Run.run_keeps hstep hinit hrun
    exact ⟨h.once, h.drains hlen hmax⟩

/-- In a ring of three slots a third bio finds no space; the second slot is written first. -/
def crossedWrites : List (DelegateOp ℕ) :=
  [DelegateOp.reserve 0 10, .reserve 1 11, .reserve 2 12, .write 1, .write 0, .publish 0,
    .publish 1] ++ List.replicate 7 (DelegateOp.consume false)

theorem delegated_once_crossedWrites :
    (∃ st, Run.run (Delegation.step 3) (Delegation.init fun _ => 0) crossedWrites = some st ∧
      st.submitted = [10, 11] ∧ st.bySelf = [12]) ∧
      ∀ st, Run.run (Delegation.step 3) (Delegation.init fun _ => 0) crossedWrites = some st →
        DelegatedOnce st ∧ (st.consumer.awake → Drains 3 st) :=
  ⟨by decide +kernel, (delegated_once (by decide) (by decide) _ _).2⟩

end CcNvme

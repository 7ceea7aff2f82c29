/-
CcNvme/NewestVersion.lean

What `olayer_crash_recovery` leaves in the home blocks when several committed
transactions wrote them.

Every stream holds its transactions one after another, each from a BEGIN to an
END entry, in the order of their transaction ids; the ids themselves are
labels here, because `stream_commit_tx` stores the one it is given nowhere.
The replay goes through the streams by number and through each stream by
age, so a home block ends up with the last replayed copy in *that* order.
`recovery_restores_newest_iff` says when this is the newest one.
-/
import Mathlib.Data.List.Pairwise
import CcNvme.Recovery
import CcNvme.Lib.Overlay
import CcNvme.Lib.Bump

namespace CcNvme

open Overlay

/-! ### Rings that hold committed transactions -/

/-- A transaction in a ring: its slots from the BEGIN to the END entry, and which of
them are writes that `stream_submit_bio` made in place. -/
structure RingTx where
  txid : ℕ
  first : ℕ
  inner : List ℕ
  last : ℕ
  inPlace : List ℕ
  deriving DecidableEq, Repr

def RingTx.slots (t : RingTx) : List ℕ := t.first :: (t.inner ++ [t.last])

/-- The slots of the journaled writes. -/
def RingTx.journaled (t : RingTx) : List ℕ := t.slots.filter fun k => k ∉ t.inPlace

/-- Between `head` and `flushed` the ring holds the transactions `txs`. -/
structure RingView.Holds (P : Params) (v : RingView) (txs : List RingTx) : Prop where
  layout : v.slots P = txs.flatMap RingTx.slots
  first_begin : ∀ t ∈ txs, (v.tags t.first).isBegin = true
  inner_open : ∀ t ∈ txs, ∀ k ∈ t.inner, (v.tags k).isEnd = false
  last_end : ∀ t ∈ txs, (v.tags t.last).isEnd = true

/-- The entry in slot `p.2` of stream `p.1`. -/
def Olayer.entry (o : Olayer) (p : ℕ × ℕ) : Ometa := (o.stream p.1).ometa p.2

/-- Home block `b` is among those the entry writes. -/
def Ometa.covers (e : Ometa) (b : ℕ) : Bool := e.lba ≤ b && b < e.lba + e.length

/-- The journal block that holds the entry's copy of home block `b`. -/
def Ometa.copyOf (e : Ometa) (b : ℕ) : ℕ := e.plba + (b - e.lba)

/-- The addresses and the length survive the arithmetic of
`crash_recovery_commit_write`. -/
structure Ometa.Fits (e : Ometa) : Prop where
  lba_lt : e.lba * 8 < 2 ^ 64
  plba_lt : e.plba * 8 < 2 ^ 32
  length_le : e.length ≤ 256

/-- No other journaled write uses the journal blocks of entry `p`. -/
def OwnBlocks (P : Params) (o : Olayer) (txs : ℕ → List RingTx) (p : ℕ × ℕ) : Prop :=
  ∀ i < P.nrStreams, ∀ t ∈ txs i, ∀ k ∈ t.journaled, p ≠ (i, k) →
    Bump.Extent.Disjoint ⟨(o.entry p).plba, (o.entry p).length⟩
      ⟨(o.entry (i, k)).plba, (o.entry (i, k)).length⟩

/-- The streams of `o` hold the committed transactions `txs`: in each stream by
increasing id, and every journaled write with journal blocks of its own. -/
structure CommittedRings (P : Params) (o : Olayer) (txs : ℕ → List RingTx) : Prop where
  inRing : ∀ i < P.nrStreams, (crashView P o i).InRing P
  holds : ∀ i < P.nrStreams, (crashView P o i).Holds P (txs i)
  sorted : ∀ i < P.nrStreams, (txs i).Pairwise fun t t' => t.txid < t'.txid
  inPlace : ∀ i < P.nrStreams, ∀ t ∈ txs i, ∀ k ∈ t.inPlace, (o.entry (i, k)).plba = 0
  fits : ∀ i < P.nrStreams, ∀ t ∈ txs i, ∀ k ∈ t.journaled, (o.entry (i, k)).Fits
  ownBlocks : ∀ i < P.nrStreams, ∀ t ∈ txs i, ∀ k ∈ t.journaled, OwnBlocks P o txs (i, k)

/-! ### The property -/

/-- Transaction `t` of stream `i` wrote home block `b` through the journal. -/
def Writes (o : Olayer) (i : ℕ) (t : RingTx) (b : ℕ) : Prop :=
  ∃ k ∈ t.journaled, (o.entry (i, k)).covers b = true

/-- `t`, in stream `i`, is the transaction with the greatest id that wrote `b`. -/
structure Newest (P : Params) (o : Olayer) (txs : ℕ → List RingTx) (b i : ℕ) (t : RingTx) :
    Prop where
  lt : i < P.nrStreams
  mem : t ∈ txs i
  writes : Writes o i t b
  newest : ∀ j < P.nrStreams, ∀ t' ∈ txs j, Writes o j t' b → t'.txid ≤ t.txid

/-- The slot of `t` that wrote `b` last. -/
def lastWriter (o : Olayer) (i : ℕ) (t : RingTx) (b : ℕ) : Option ℕ :=
  lastCover (fun k b => (o.entry (i, k)).covers b) t.journaled b

/-- What `t` wrote to `b`. -/
def dataOf {α : Type*} (journal : ℕ → α) (o : Olayer) (i : ℕ) (t : RingTx) (b : ℕ) : Option α :=
  (lastWriter o i t b).map fun k => journal ((o.entry (i, k)).copyOf b)

/-- Every home block written by some transaction holds the data of the newest. -/
def RestoresNewest {α : Type*} (P : Params) (o : Olayer) (txs : ℕ → List RingTx)
    (journal dev : ℕ → α) : Prop :=
  ∀ b i t, Newest P o txs b i t → dataOf journal o i t b = some (dev b)

/-- The newest writer of a block writes it last in an entry that is replayed, and no
stream scanned later replays the block. -/
def NewestReplayedLast (P : Params) (o : Olayer) (txs : ℕ → List RingTx) : Prop :=
  ∀ b i t, Newest P o txs b i t →
    (∃ k ∈ t.inner, lastWriter o i t b = some k ∧ (o.entry (i, k)).plba ≠ 0) ∧
      ∀ j < P.nrStreams, i < j → ∀ t' ∈ txs j, ∀ k ∈ t'.inner,
        (o.entry (j, k)).plba ≠ 0 → (o.entry (j, k)).covers b = false

variable {P : Params} {o : Olayer} {txs : ℕ → List RingTx}

/-! ### The replay -/

/-- The slots of `t` that are replayed. -/
def RingTx.replayed (host : ℕ → Ometa) (t : RingTx) : List ℕ :=
  t.inner.filter fun k => (host k).plba ≠ 0

/-- A ring of whole transactions hands over the inner entries of each. -/
theorem RingView.Holds.handed {v : RingView} {ts : List RingTx} (h : v.Holds P ts)
    (hv : v.InRing P) :
    v.handed P none = ts.flatMap (RingTx.replayed v.host) ∧ v.rest P none = none := by
  have hgroups : v.pairs P none = ts.map (fun t => (t.first, t.last)) ∧
      v.rest P none = none := by
    unfold RingView.pairs RingView.rest
    rw [h.layout]
    exact Bracket.pairs_groups h.first_begin h.inner_open h.last_end
  refine ⟨?_, hgroups.2⟩
  rw [RingView.handed, hgroups.1, List.flatMap_map]
  apply List.flatMap_congr
  intro t ht
  obtain ⟨us, ws, rfl⟩ := List.append_of_mem ht
  have hlayout := h.layout
  rw [List.flatMap_append, List.flatMap_cons, RingTx.slots, List.cons_append, List.append_assoc,
    List.singleton_append] at hlayout
  rw [between, slotsOf_between hv.head_lt hlayout]
  rfl

/-- When every stream ends closed, the streams are scanned independently. -/
theorem entriesOf_planFrom_of_closed {view : ℕ → RingView} {is : List ℕ}
    (h : ∀ i ∈ is, (view i).rest P none = none) :
    entriesOf (planFrom P view none is)
      = is.flatMap fun i => ((view i).handed P none).map (Prod.mk i) := by
  induction is with
  | nil => rfl
  | cons i is ih =>
      rw [entriesOf_planFrom_cons, h i List.mem_cons_self, List.flatMap_cons,
        ih fun j hj => h j (List.mem_cons_of_mem _ hj)]

/-- The entries of stream `i` that are replayed. -/
def replayOf (o : Olayer) (txs : ℕ → List RingTx) (i : ℕ) : List (ℕ × ℕ) :=
  ((txs i).flatMap (RingTx.replayed (o.stream i).ometa)).map (Prod.mk i)

theorem mem_replayOf {i : ℕ} {p : ℕ × ℕ} :
    p ∈ replayOf o txs i ↔
      p.1 = i ∧ ∃ t ∈ txs i, p.2 ∈ t.inner ∧ (o.entry (i, p.2)).plba ≠ 0 := by
  obtain ⟨j, k⟩ := p
  simp only [replayOf, RingTx.replayed, List.mem_map, List.mem_flatMap, List.mem_filter,
    decide_eq_true_eq, Prod.mk.injEq]
  constructor
  · rintro ⟨k', ⟨t, ht, hk, hp⟩, rfl, rfl⟩
    exact ⟨rfl, t, ht, hk, hp⟩
  · rintro ⟨rfl, t, ht, hk, hp⟩
    exact ⟨k, ⟨t, ht, hk, hp⟩, rfl, rfl⟩

theorem crashRecoveryCommitWrite_eq {α : Type*} (journal home : ℕ → α) {e : Ometa}
    (h : e.Fits) : crashRecoveryCommitWrite journal home e
      = fun b => if e.covers b then journal (e.copyOf b) else home b := by
  have hdst : e.lba * 8 % 2 ^ 64 / 8 = e.lba := by
    rw [Nat.mod_eq_of_lt h.lba_lt, Nat.mul_div_cancel _ (by decide)]
  have hsrc : e.plba * 8 % 2 ^ 32 / 8 = e.plba := by
    rw [Nat.mod_eq_of_lt h.plba_lt, Nat.mul_div_cancel _ (by decide)]
  unfold crashRecoveryCommitWrite
  simp only [hdst, hsrc, min_eq_left h.length_le, Ometa.covers, Ometa.copyOf, Bool.and_eq_true,
    decide_eq_true_eq]

/-- What is replayed was journaled. -/
theorem journaled_of_replayed (h : CommittedRings P o txs) {i k : ℕ} (hi : i < P.nrStreams)
    {t : RingTx} (ht : t ∈ txs i) (hk : k ∈ t.inner) (hplba : (o.entry (i, k)).plba ≠ 0) :
    k ∈ t.journaled := by
  refine List.mem_filter.mpr ⟨List.mem_cons_of_mem _ (List.mem_append_left _ hk), ?_⟩
  exact decide_eq_true fun hin => hplba (h.inPlace i hi t ht k hin)

/-- **Recovery overlays the replayed copies in scan order.** -/
theorem crashReplay_eq {α : Type*} (h : CommittedRings P o txs) (journal home : ℕ → α) :
    crashReplay P journal home o
      = some (((List.range P.nrStreams).flatMap (replayOf o txs)).foldl
          (write (fun p b => (o.entry p).covers b) fun p b => journal ((o.entry p).copyOf b))
          home) := by
  have hhanded : ∀ i ∈ List.range P.nrStreams, _ := fun i hi =>
    (h.holds i (List.mem_range.mp hi)).handed (h.inRing i (List.mem_range.mp hi))
  rw [crashReplay, olayerCrashRecovery_eq h.inRing, Option.map_some,
    entriesOf_planFrom_of_closed fun i hi => (hhanded i hi).2]
  have horder : (List.range P.nrStreams).flatMap
      (fun i => ((crashView P o i).handed P none).map (Prod.mk i))
      = (List.range P.nrStreams).flatMap (replayOf o txs) :=
    List.flatMap_congr fun i hi => by rw [(hhanded i hi).1]; rfl
  rw [horder]
  refine congrArg some (List.foldl_ext _ _ _ fun f p hp => ?_)
  obtain ⟨i, hi, hp⟩ := List.mem_flatMap.mp hp
  obtain ⟨rfl, t, ht, hk, hplba⟩ := mem_replayOf.mp hp
  have hi := List.mem_range.mp hi
  exact crashRecoveryCommitWrite_eq journal f
    (h.fits p.1 hi t ht p.2 (journaled_of_replayed h hi ht hk hplba))

/-- The replay order around stream `i`. -/
theorem exists_replay_split (o : Olayer) (txs : ℕ → List RingTx) {i : ℕ} (hi : i < P.nrStreams) :
    ∃ before, ∃ after : List ℕ, (List.range P.nrStreams).flatMap (replayOf o txs)
        = before ++ (replayOf o txs i ++ after.flatMap (replayOf o txs)) ∧
      (∀ j, j ∈ after ↔ i < j ∧ j < P.nrStreams) := by
  obtain ⟨m, hm⟩ := Nat.exists_eq_add_of_lt hi
  have hrange : List.range P.nrStreams = List.range i ++ i :: List.range' (i + 1) m := by
    rw [hm, ← List.range'_succ, List.range_eq_range', List.range_eq_range', Nat.add_assoc,
      ← List.range'_append_1, Nat.zero_add]
  refine ⟨(List.range i).flatMap (replayOf o txs), List.range' (i + 1) m, ?_, fun j => ?_⟩
  · rw [hrange, List.flatMap_append, List.flatMap_cons]
  · rw [List.mem_range'_1, hm]
    omega

/-! ### Slots and transactions -/

theorem nodup_slots (h : CommittedRings P o txs) {i : ℕ} (hi : i < P.nrStreams) :
    ((txs i).flatMap RingTx.slots).Nodup := by
  rw [← (h.holds i hi).layout]
  exact nodup_slotsOf (h.inRing i hi).head_lt

/-- A slot belongs to one transaction of its stream. -/
theorem tx_eq_of_slot (h : CommittedRings P o txs) {i k : ℕ} (hi : i < P.nrStreams)
    {t t' : RingTx} (ht : t ∈ txs i) (ht' : t' ∈ txs i) (hk : k ∈ t.slots) (hk' : k ∈ t'.slots) :
    t = t' := by
  by_contra hne
  have hsymm : Std.Symm (Function.onFun List.Disjoint RingTx.slots) :=
    ⟨fun _ _ hd _ h₁ h₂ => hd h₂ h₁⟩
  exact (List.nodup_flatMap.mp (nodup_slots h hi)).2.forall ht ht' hne hk hk'

/-- An inner slot that wrote a block last is also the last replayed one. -/
theorem lastCover_replayed (h : CommittedRings P o txs) {i b k : ℕ} (hi : i < P.nrStreams)
    {t : RingTx} (ht : t ∈ txs i) (hlast : lastWriter o i t b = some k) (hk : k ∈ t.inner)
    (hplba : (o.entry (i, k)).plba ≠ 0) :
    lastCover (fun k b => (o.entry (i, k)).covers b) (t.replayed (o.stream i).ometa) b
      = some k := by
  have hnodup := (List.nodup_flatMap.mp (nodup_slots h hi)).1 t ht
  rw [RingTx.slots, List.nodup_cons, List.nodup_append] at hnodup
  obtain ⟨hfirst, -, -, hend⟩ := hnodup
  -- what is replayed are the journaled inner slots, without those at address 0
  have hreplayed : t.replayed (o.stream i).ometa
      = (t.inner.filter fun k => k ∉ t.inPlace).filter fun k => (o.entry (i, k)).plba ≠ 0 := by
    rw [List.filter_filter]
    apply List.filter_congr
    intro x _
    by_cases hx : x ∈ t.inPlace
    · have hzero : ((o.stream i).ometa x).plba = 0 := h.inPlace i hi t ht x hx
      simp [hx, hzero]
    · rw [decide_eq_true hx, Bool.and_true]
      rfl
  rw [hreplayed]
  refine lastCover_filter ?_ (decide_eq_true hplba)
  rw [lastWriter, RingTx.journaled, RingTx.slots, ← List.singleton_append, List.filter_append,
    List.filter_append, lastCover_append, lastCover_append] at hlast
  -- neither the END nor the BEGIN slot is an inner one
  rcases e₁ : lastCover (fun k b => (o.entry (i, k)).covers b)
    ([t.last].filter fun k => k ∉ t.inPlace) b with - | x
  · rcases e₂ : lastCover (fun k b => (o.entry (i, k)).covers b)
      (t.inner.filter fun k => k ∉ t.inPlace) b with - | x
    · rw [e₁, e₂, Option.none_or, Option.none_or] at hlast
      obtain rfl := List.mem_singleton.mp (List.mem_filter.mp (lastCover_eq_some hlast).1).1
      exact absurd (List.mem_append_left _ hk) hfirst
    · rw [e₁, e₂, Option.none_or, Option.some_or] at hlast
      exact hlast
  · rw [e₁, Option.some_or, Option.some_or, Option.some.injEq] at hlast
    subst hlast
    obtain rfl := List.mem_singleton.mp (List.mem_filter.mp (lastCover_eq_some e₁).1).1
    exact absurd rfl (hend _ hk _ (List.mem_singleton_self _))

/-! ### The theorem -/

/-- Under the condition, the newest writer of a block has the last word. -/
theorem lastCover_of_newest (h : CommittedRings P o txs) (hlast : NewestReplayedLast P o txs)
    {b i : ℕ} {t : RingTx} (hnew : Newest P o txs b i t) :
    ∃ k, lastWriter o i t b = some k ∧
      lastCover (fun p b => (o.entry p).covers b)
        ((List.range P.nrStreams).flatMap (replayOf o txs)) b = some (i, k) := by
  obtain ⟨⟨k, hk, hwriter, hplba⟩, hlater⟩ := hlast b i t hnew
  refine ⟨k, hwriter, ?_⟩
  obtain ⟨before, after, hsplit, hafter⟩ := exists_replay_split o txs hnew.lt
  rw [hsplit]
  refine lastCover_append_right (lastCover_append_eq_some ?_ ?_)
  · -- in its own stream
    obtain ⟨us, vs, hus⟩ := List.append_of_mem hnew.mem
    have hsorted := h.sorted i hnew.lt
    rw [replayOf, lastCover_map, hus, List.flatMap_append, List.flatMap_cons]
    rw [hus, List.pairwise_append, List.pairwise_cons] at hsorted
    refine Option.map_eq_some_iff.mpr ⟨k, lastCover_append_right (lastCover_append_eq_some
      (lastCover_replayed h hnew.lt hnew.mem hwriter hk hplba) fun k' hk' => ?_), rfl⟩
    -- a later transaction that wrote `b` would be newer
    obtain ⟨t', ht', hk'⟩ := List.mem_flatMap.mp hk'
    obtain ⟨hinner, hplba'⟩ := List.mem_filter.mp hk'
    have hmem : t' ∈ txs i := hus ▸ List.mem_append_right _ (List.mem_cons_of_mem _ ht')
    by_contra hcov
    have hle := hnew.newest i hnew.lt t' hmem ⟨k', journaled_of_replayed h hnew.lt hmem hinner
      (of_decide_eq_true hplba'), by simpa using hcov⟩
    have hlt := hsorted.2.1.1 t' ht'
    omega
  · intro p hp
    obtain ⟨j, hj, hp⟩ := List.mem_flatMap.mp hp
    obtain ⟨hij, hjlt⟩ := (hafter j).mp hj
    obtain ⟨hpj, t', ht', hk', hplba'⟩ := mem_replayOf.mp hp
    have := hlater j hjlt hij t' ht' p.2 hk' hplba'
    rwa [← hpj] at this

/-- Two entries that read the same journal block for `b` are the same. -/
theorem entry_eq_of_copyOf (h : CommittedRings P o txs) {b i i' k k' : ℕ} {t t' : RingTx}
    (hi : i < P.nrStreams) (ht : t ∈ txs i) (hk : k ∈ t.journaled)
    (hcov : (o.entry (i, k)).covers b = true) (hi' : i' < P.nrStreams) (ht' : t' ∈ txs i')
    (hk' : k' ∈ t'.journaled) (hcov' : (o.entry (i', k')).covers b = true)
    (hcopy : (o.entry (i, k)).copyOf b = (o.entry (i', k')).copyOf b) : (i, k) = (i', k') := by
  by_contra hne
  simp only [Ometa.covers, Bool.and_eq_true, decide_eq_true_eq] at hcov hcov'
  simp only [Ometa.copyOf] at hcopy
  apply h.ownBlocks i hi t ht k hk i' hi' t' ht' k' hk' hne ((o.entry (i, k)).copyOf b)
  simp only [Bump.Extent.Covers, Ometa.copyOf]
  omega

/-- If recovery restores the newest version whatever the journal holds, the last replayed
entry that covers `b` is the one its newest writer wrote last. -/
theorem lastCover_of_restores {α : Type*} [Nontrivial α] (h : CommittedRings P o txs)
    (hrest : ∀ journal home : ℕ → α, ∃ dev, crashReplay P journal home o = some dev ∧
      RestoresNewest P o txs journal dev)
    {b i : ℕ} {t : RingTx} (hnew : Newest P o txs b i t) :
    ∃ k, lastWriter o i t b = some k ∧
      lastCover (fun p b => (o.entry p).covers b)
        ((List.range P.nrStreams).flatMap (replayOf o txs)) b = some (i, k) := by
  obtain ⟨a, c, hac⟩ := exists_pair_ne α
  obtain ⟨k₁, hk₁, hcov₁⟩ := hnew.writes
  rcases hwriter : lastWriter o i t b with - | k
  · rw [lastWriter, lastCover_eq_none_iff] at hwriter
    rw [hwriter k₁ hk₁] at hcov₁
    cases hcov₁
  obtain ⟨hk, hcov⟩ := lastCover_eq_some hwriter
  refine ⟨k, rfl, ?_⟩
  -- mark the one journal block that holds the newest copy
  obtain ⟨dev, hdev, hnewest⟩ :=
    hrest (fun n => if n = (o.entry (i, k)).copyOf b then a else c) fun _ => c
  have hmark : dev b = a := by
    have := hnewest b i t hnew
    rw [dataOf, hwriter, Option.map_some, if_pos rfl] at this
    exact (Option.some.inj this).symm
  rw [crashReplay_eq h, Option.some.injEq] at hdev
  rw [← hdev, foldl_write_apply] at hmark
  rcases e : lastCover (fun p b => (o.entry p).covers b)
    ((List.range P.nrStreams).flatMap (replayOf o txs)) b with - | ⟨i', k'⟩
  · rw [e] at hmark
    exact absurd hmark.symm hac
  · rw [e, Option.map_some, Option.getD_some] at hmark
    have hcopy : (o.entry (i', k')).copyOf b = (o.entry (i, k)).copyOf b := by
      by_contra hne
      rw [if_neg hne] at hmark
      exact hac hmark.symm
    obtain ⟨hmem, hcov'⟩ := lastCover_eq_some e
    obtain ⟨j, hj, hp⟩ := List.mem_flatMap.mp hmem
    obtain ⟨hij, t', ht', hk', hplba⟩ := mem_replayOf.mp hp
    simp only at hij hk' hplba
    subst hij
    have hj := List.mem_range.mp hj
    rw [entry_eq_of_copyOf h hj ht' (journaled_of_replayed h hj ht' hk' hplba) hcov' hnew.lt
      hnew.mem hk hcov hcopy]

/-- **Recovery restores the newest committed version, whatever the journal holds, exactly
when for every block the newest writer has the last word**: its own last write of the
block is neither its BEGIN nor its END entry nor at journal address 0, and no stream
scanned after it replays the block. -/
theorem recovery_restores_newest_iff {α : Type*} [Nontrivial α] (P : Params) (o : Olayer)
    (txs : ℕ → List RingTx) (h : CommittedRings P o txs) :
    (∀ journal home : ℕ → α, ∃ dev, crashReplay P journal home o = some dev ∧
        RestoresNewest P o txs journal dev)
      ↔ NewestReplayedLast P o txs := by
  constructor
  · intro hrest b i t hnew
    obtain ⟨k, hwriter, hlast⟩ := lastCover_of_restores h hrest hnew
    have hk := (List.mem_filter.mp (lastCover_eq_some hwriter).1).1
    obtain ⟨hmem, -⟩ := lastCover_eq_some hlast
    obtain ⟨j, hj, hp⟩ := List.mem_flatMap.mp hmem
    obtain ⟨rfl, t', ht', hk', hplba⟩ := mem_replayOf.mp hp
    obtain rfl := tx_eq_of_slot h hnew.lt hnew.mem ht' hk
      (List.mem_cons_of_mem _ (List.mem_append_left _ hk'))
    refine ⟨⟨k, hk', hwriter, hplba⟩, ?_⟩
    -- a covering entry of a later stream would come last
    obtain ⟨before, after, hsplit, hafter⟩ := exists_replay_split o txs hnew.lt
    intro j hjlt hij t'' ht'' k'' hk'' hplba''
    have hnone : lastCover (fun p b => (o.entry p).covers b)
        (after.flatMap (replayOf o txs)) b = none := by
      rcases e : lastCover (fun p b => (o.entry p).covers b)
        (after.flatMap (replayOf o txs)) b with - | p
      · rfl
      · rw [hsplit, lastCover_append_right (lastCover_append_right e), Option.some.injEq] at hlast
        subst hlast
        obtain ⟨j', hj', hp'⟩ := List.mem_flatMap.mp (lastCover_eq_some e).1
        have := ((hafter j').mp hj').1
        have := (mem_replayOf.mp hp').1
        omega
    exact lastCover_eq_none_iff.mp hnone (j, k'')
      (List.mem_flatMap.mpr ⟨j, (hafter j).mpr ⟨hij, hjlt⟩,
        mem_replayOf.mpr ⟨rfl, t'', ht'', hk'', hplba''⟩⟩)
  · intro hcond journal home
    refine ⟨_, crashReplay_eq h journal home, fun b i t hnew => ?_⟩
    obtain ⟨k, hwriter, hlast⟩ := lastCover_of_newest h hcond hnew
    rw [foldl_write_apply, hlast, dataOf, hwriter]
    rfl

/-! ### Concrete rings -/

instance (v : RingView) (ts : List RingTx) : Decidable (v.Holds P ts) :=
  decidable_of_iff
    (v.slots P = ts.flatMap RingTx.slots ∧ (∀ t ∈ ts, (v.tags t.first).isBegin = true) ∧
      (∀ t ∈ ts, ∀ k ∈ t.inner, (v.tags k).isEnd = false) ∧
      ∀ t ∈ ts, (v.tags t.last).isEnd = true)
    ⟨fun h => ⟨h.1, h.2.1, h.2.2.1, h.2.2.2⟩, fun h => ⟨h.1, h.2, h.3, h.4⟩⟩

instance (v : RingView) : Decidable (v.InRing P) :=
  decidable_of_iff (v.head < P.nrOmeta ∧ v.flushed < P.nrOmeta)
    ⟨fun h => ⟨h.1, h.2⟩, fun h => ⟨h.1, h.2⟩⟩

instance (e : Ometa) : Decidable e.Fits :=
  decidable_of_iff (e.lba * 8 < 2 ^ 64 ∧ e.plba * 8 < 2 ^ 32 ∧ e.length ≤ 256)
    ⟨fun h => ⟨h.1, h.2.1, h.2.2⟩, fun h => ⟨h.1, h.2, h.3⟩⟩

instance (p : ℕ × ℕ) : Decidable (OwnBlocks P o txs p) :=
  inferInstanceAs (Decidable (∀ _ < _, ∀ _ ∈ _, ∀ _ ∈ _, _ → _))

instance (i : ℕ) (t : RingTx) (b : ℕ) : Decidable (Writes o i t b) :=
  inferInstanceAs (Decidable (∃ _ ∈ _, _))

instance (b i : ℕ) (t : RingTx) : Decidable (Newest P o txs b i t) :=
  decidable_of_iff (i < P.nrStreams ∧ t ∈ txs i ∧ Writes o i t b ∧
      ∀ j < P.nrStreams, ∀ t' ∈ txs j, Writes o j t' b → t'.txid ≤ t.txid)
    ⟨fun h => ⟨h.1, h.2.1, h.2.2.1, h.2.2.2⟩, fun h => ⟨h.1, h.2, h.3, h.4⟩⟩

/-- A ring with one transaction: a journaled write of block 100 between a BEGIN and an
END entry made in place. -/
def oneWrite (plba : ℕ) : ℕ → Ometa
  | 0 => ⟨50, 1, 0, HoraeFlag.txBegin.bit, 0, 0⟩
  | 1 => ⟨100, 1, 0, HoraeFlag.tx.bit, 0, plba⟩
  | 2 => ⟨60, 1, 0, HoraeFlag.txEnd.bit, 0, 0⟩
  | _ => Ometa.zero

/-- Streams 0 and 1 hold one such transaction each, with its copy in journal block 2
and 6; everything else is empty. -/
def twoVersions : Olayer :=
  { tinyLoaded with
    stream := fun i =>
      if i < 2 then { tinyLoaded.stream i with flushed := 3, ometa := oneWrite (4 * i + 2) }
      else tinyLoaded.stream i
    cmb := fun x => if x / 4 < 2 then oneWrite (4 * (x / 4) + 2) (x % 4) else Ometa.zero }

/-- The transactions of `twoVersions`, with the ids `a` and `b`. -/
def versions (a b : ℕ) : ℕ → List RingTx
  | 0 => [⟨a, 0, [1], 2, [0, 2]⟩]
  | 1 => [⟨b, 0, [1], 2, [0, 2]⟩]
  | _ => []

theorem committedRings_older : CommittedRings Params.tiny twoVersions (versions 2 1) :=
  ⟨by decide +kernel, by decide +kernel, by decide +kernel, by decide +kernel, by decide +kernel,
    by decide +kernel⟩

/-- The newer transaction is in stream 0; recovery replays it first and leaves the older
copy, from journal block 6, in block 100. -/
theorem older_version_wins :
    CommittedRings Params.tiny twoVersions (versions 2 1) ∧
      Newest Params.tiny twoVersions (versions 2 1) 100 0 ⟨2, 0, [1], 2, [0, 2]⟩ ∧
      dataOf id twoVersions 0 ⟨2, 0, [1], 2, [0, 2]⟩ 100 = some 2 ∧
      (crashReplay Params.tiny id (fun _ => 0) twoVersions).map (· 100) = some 6 :=
  ⟨committedRings_older, by decide +kernel, by decide +kernel, by decide +kernel⟩

theorem committedRings_newer : CommittedRings Params.tiny twoVersions (versions 1 2) :=
  ⟨by decide +kernel, by decide +kernel, by decide +kernel, by decide +kernel, by decide +kernel,
    by decide +kernel⟩

/-- With the ids the other way round, the newer version is scanned last. -/
theorem newestReplayedLast_newer :
    NewestReplayedLast Params.tiny twoVersions (versions 1 2) := by
  rintro b i t ⟨-, ht, ⟨k, hk, hcov⟩, hnew⟩
  obtain _ | _ | i := i
  · -- stream 1 wrote the same block with a greater id
    obtain rfl := List.mem_singleton.mp ht
    obtain rfl : k = 1 := List.mem_singleton.mp hk
    obtain rfl : b = 100 := by
      simp [Ometa.covers, Olayer.entry, twoVersions, oneWrite] at hcov
      omega
    have hle := hnew 1 (by decide) _ (List.mem_singleton_self _) (by decide +kernel)
    simp at hle
  · obtain rfl := List.mem_singleton.mp ht
    obtain rfl : k = 1 := List.mem_singleton.mp hk
    obtain rfl : b = 100 := by
      simp [Ometa.covers, Olayer.entry, twoVersions, oneWrite] at hcov
      omega
    refine ⟨⟨1, by decide, by decide +kernel, by decide +kernel⟩, fun j _ hj t' ht' => ?_⟩
    obtain _ | _ | j := j
    · omega
    · omega
    · cases ht'
  · cases ht

theorem recovery_restores_newest_iff_newer :
    CommittedRings Params.tiny twoVersions (versions 1 2) ∧
      NewestReplayedLast Params.tiny twoVersions (versions 1 2) ∧
      ∀ journal home : ℕ → ℕ, ∃ dev,
        crashReplay Params.tiny journal home twoVersions = some dev ∧
          RestoresNewest Params.tiny twoVersions (versions 1 2) journal dev :=
  ⟨committedRings_newer, newestReplayedLast_newer,
    (recovery_restores_newest_iff Params.tiny twoVersions _ committedRings_newer).mpr
      newestReplayedLast_newer⟩

end CcNvme

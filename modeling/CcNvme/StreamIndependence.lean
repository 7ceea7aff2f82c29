/-
CcNvme/StreamIndependence.lean

Recovery over several streams against recovery of each stream alone.

`olayer_crash_recovery` and `graceful_shutdown` declare `phase` and `begin_idx`
once, so a stream that ends with an open BEGIN hands that BEGIN to the next
stream, where the first END closes it: the slots strictly between a slot
number of *another* ring and this END are replayed.

`Absorbs` says when this does no harm to one stream, by comparing the slots
between the inherited BEGIN and the first END with those between the
stream's own first BEGIN and that END.  `independent_iff` shows that both
functions treat the streams independently exactly when every stream that
inherits a BEGIN absorbs it.
-/
import CcNvme.Recovery

namespace CcNvme

variable (P : Params)

/-! ### The independent scan -/

/-- The entries returned by the scan of stream `i` alone, from phase 0. -/
def soloEntries (view : ℕ → RingView) (i : ℕ) : List (ℕ × ℕ) :=
  ((scanStreams P view [i] ScanState.init).map entriesOf).getD []

/-- The plan is the concatenation of the solo scans of the streams `is`, and stays
inside `[head, flushed)` of each of them. -/
def Independent (view : ℕ → RingView) (is : List ℕ) (plan : List (ℕ × Segment)) : Prop :=
  entriesOf plan = is.flatMap (soloEntries P view) ∧
    ∀ p ∈ entriesOf plan, p.2 ∈ (view p.1).slots P

/-! ### When an inherited BEGIN does no harm -/

/-- The slots handed over by a scan of the slots `xs` from phase `q`. -/
def RingView.handedFrom (v : RingView) (q : Option ℕ) (xs : List ℕ) : List ℕ :=
  (Bracket.pairs (fun j => (v.tags j).isBegin) (fun j => (v.tags j).isEnd) q xs).flatMap
    fun p => between P v.host p.1 p.2

/-- The condition on the slots around the first END `e`, which stands after `ys` and
before `zs`: the journaled slots after the inherited BEGIN `b` are those after
the stream's own first BEGIN, or there are none when the stream has no BEGIN
before `e`.  A slot tagged with both bits closes `b` where the stream alone
would have opened. -/
def RingView.AbsorbsAt (v : RingView) (b : ℕ) (ys : List ℕ) (e : ℕ) (zs : List ℕ) : Prop :=
  match ys.find? fun j => (v.tags j).isBegin with
  | some own => between P v.host b e = between P v.host own e
  | none =>
      if (v.tags e).isBegin then
        between P v.host b e ++ v.handedFrom P none zs = v.handedFrom P (some e) zs
      else between P v.host b e = []

/-- Inheriting the BEGIN `b` changes nothing for this stream. -/
def RingView.Absorbs (v : RingView) (b : ℕ) : Prop :=
  ∀ ys e zs, v.slots P = ys ++ e :: zs → (∀ x ∈ ys, (v.tags x).isEnd = false) →
    (v.tags e).isEnd = true → v.AbsorbsAt P b ys e zs

/-- Along the streams `is`, every stream absorbs the BEGIN left open before it. -/
def Absorbing (view : ℕ → RingView) : Option ℕ → List ℕ → Prop
  | _, [] => True
  | q, i :: is =>
      (∀ b, q = some b → (view i).Absorbs P b) ∧ Absorbing view ((view i).rest P q) is

variable {P}

/-- One first END: the two scans hand over the same slots exactly under the
condition. -/
theorem handedFrom_eq_iff_absorbsAt {v : RingView} {b e : ℕ} {ys zs : List ℕ}
    (hys : ∀ x ∈ ys, (v.tags x).isEnd = false) (he : (v.tags e).isEnd = true) :
    v.handedFrom P (some b) (ys ++ e :: zs) = v.handedFrom P none (ys ++ e :: zs)
      ↔ v.AbsorbsAt P b ys e zs := by
  have hinherit : v.handedFrom P (some b) (ys ++ e :: zs)
      = between P v.host b e ++ v.handedFrom P none zs := by
    rw [RingView.handedFrom, Bracket.pairs_first_closer hys he]
    rfl
  rw [hinherit, RingView.AbsorbsAt]
  rcases hfind : ys.find? fun j => (v.tags j).isBegin with - | own
  · -- no BEGIN of its own before `e`
    have hno : ∀ x ∈ ys, (v.tags x).isBegin = false := by simpa using hfind
    dsimp only
    split_ifs with hB
    · rw [RingView.handedFrom, RingView.handedFrom, RingView.handedFrom,
        Bracket.pairs_first_opener hno hB]
    · have hown : v.handedFrom P none (ys ++ e :: zs) = v.handedFrom P none zs := by
        rw [RingView.handedFrom, Bracket.pairs_append, Bracket.pairs_of_no_opener hno,
          Bracket.rest_of_no_opener hno, Bracket.pairs_cons]
        simp [Bracket.emit, Bracket.next, hB, RingView.handedFrom]
      rw [hown]
      exact List.append_left_eq_self
  · -- its own first BEGIN is closed by the same END
    obtain ⟨hB, us, ws, rfl, hus⟩ := List.find?_eq_some_iff_append.mp hfind
    have hus' : ∀ x ∈ us, (v.tags x).isBegin = false := by simpa using hus
    have hws : ∀ x ∈ ws, (v.tags x).isEnd = false :=
      fun x hx => hys x (List.mem_append_right _ (List.mem_cons_of_mem _ hx))
    have hown : v.handedFrom P none (us ++ own :: ws ++ e :: zs)
        = between P v.host own e ++ v.handedFrom P none zs := by
      rw [RingView.handedFrom, List.append_assoc, List.cons_append,
        Bracket.pairs_first_opener hus' hB, Bracket.pairs_first_closer hws he]
      rfl
    rw [hown]
    exact List.append_left_inj _

theorem handed_eq_iff_absorbs {v : RingView} {b : ℕ} :
    v.handed P (some b) = v.handed P none ↔ v.Absorbs P b := by
  have hdef : ∀ q, v.handed P q = v.handedFrom P q (v.slots P) := fun _ => rfl
  rw [hdef, hdef]
  constructor
  · intro h ys e zs hsplit hys he
    rw [hsplit] at h
    exact (handedFrom_eq_iff_absorbsAt hys he).mp h
  · intro h
    rcases hfind : (v.slots P).find? fun j => (v.tags j).isEnd with - | e
    · -- no END at all: neither scan hands anything over
      have hno : ∀ x ∈ v.slots P, (v.tags x).isEnd = false := by simpa using hfind
      rw [← hdef, ← hdef, RingView.handed_of_no_end hno, RingView.handed_of_no_end hno]
    · obtain ⟨he, ys, zs, hsplit, hys⟩ := List.find?_eq_some_iff_append.mp hfind
      have hys' : ∀ x ∈ ys, (v.tags x).isEnd = false := by simpa using hys
      rw [hsplit]
      exact (handedFrom_eq_iff_absorbsAt hys' he).mpr (h ys e zs hsplit hys' he)

/-! ### A stream scanned alone stays in its range -/

/-- The slots between two slots of a circular range belong to it. -/
theorem slotsOf_between_subset {a b x y k : ℕ} {us vs ws : List ℕ} (ha : a < P.nrOmeta)
    (hsplit : slotsOf P a b = us ++ x :: (vs ++ y :: ws))
    (hk : k ∈ slotsOf P ((x + 1) % P.nrOmeta) y) : k ∈ slotsOf P a b := by
  rw [slotsOf_between ha hsplit] at hk
  rw [hsplit]
  exact List.mem_append_right _ (List.mem_cons_of_mem _ (List.mem_append_left _ hk))

theorem mem_slots_of_handed_none {v : RingView} (hv : v.InRing P) {k : ℕ}
    (hk : k ∈ v.handed P none) : k ∈ v.slots P := by
  obtain ⟨p, hp, hk⟩ := List.mem_flatMap.mp hk
  rcases Bracket.exists_of_mem_pairs hp with ⟨us, vs, ws, hsplit⟩ | ⟨hq, -⟩
  · exact slotsOf_between_subset hv.head_lt hsplit (List.mem_filter.mp hk).1
  · cases hq

/-! ### The whole scan -/

theorem soloEntries_eq {view : ℕ → RingView} {i : ℕ} (h : (view i).InRing P) :
    soloEntries P view i = ((view i).handed P none).map (Prod.mk i) := by
  have hscan : scanStreams P view [i] ScanState.init = some (planFrom P view none [i]) :=
    scanStreams_eq (fun j hj => by rwa [List.mem_singleton.mp hj]) ScanState.init
  rw [soloEntries, hscan, Option.map_some, Option.getD_some, entriesOf_planFrom_cons]
  exact List.append_nil _

/-- Concatenations whose left parts are marked by `p` and whose right parts are not
agree part by part. -/
theorem append_eq_append_iff_of_marked {α : Type*} {p : α → Bool} {as as' bs bs' : List α}
    (ha : ∀ x ∈ as, p x = true) (ha' : ∀ x ∈ as', p x = true) (hb : ∀ x ∈ bs, p x = false)
    (hb' : ∀ x ∈ bs', p x = false) : as ++ bs = as' ++ bs' ↔ as = as' ∧ bs = bs' := by
  constructor
  · intro h
    have hleft := congrArg (List.filter p) h
    simp only [List.filter_append, List.filter_eq_self.mpr ha, List.filter_eq_self.mpr ha',
      List.filter_eq_nil_iff.mpr fun x hx => Bool.eq_false_iff.mp (hb x hx),
      List.filter_eq_nil_iff.mpr fun x hx => Bool.eq_false_iff.mp (hb' x hx),
      List.append_nil] at hleft
    subst hleft
    exact ⟨rfl, List.append_cancel_left h⟩
  · rintro ⟨rfl, rfl⟩
    rfl

/-- Scanning several streams from phase `q` gives the solo scans exactly when every
inherited BEGIN is absorbed. -/
theorem entriesOf_planFrom_eq_iff {view : ℕ → RingView} {is : List ℕ} (hnd : is.Nodup)
    (hview : ∀ i ∈ is, (view i).InRing P) (q : Option ℕ) :
    entriesOf (planFrom P view q is) = is.flatMap (soloEntries P view)
      ↔ Absorbing P view q is := by
  induction is generalizing q with
  | nil => simp [planFrom, entriesOf, Absorbing]
  | cons i is ih =>
      obtain ⟨hi, hnd⟩ := List.nodup_cons.mp hnd
      -- the first component of an entry tells stream `i` from the streams after it
      have hmark : ∀ xs : List ℕ, ∀ x ∈ xs.map (Prod.mk i), decide (x.1 = i) = true := by
        intro xs x hx
        obtain ⟨k, -, rfl⟩ := List.mem_map.mp hx
        exact decide_eq_true rfl
      have hrest : ∀ x ∈ entriesOf (planFrom P view ((view i).rest P q) is),
          decide (x.1 = i) = false := by
        rintro ⟨j, k⟩ hx
        exact decide_eq_false fun he => hi (he ▸ (mem_entriesOf_planFrom hx).1)
      have hsolo : ∀ x ∈ is.flatMap (soloEntries P view), decide (x.1 = i) = false := by
        intro x hx
        obtain ⟨j, hj, hx⟩ := List.mem_flatMap.mp hx
        rw [soloEntries_eq (hview j (List.mem_cons_of_mem _ hj))] at hx
        obtain ⟨k, -, rfl⟩ := List.mem_map.mp hx
        exact decide_eq_false fun he => hi (he ▸ hj)
      rw [entriesOf_planFrom_cons, List.flatMap_cons,
        soloEntries_eq (hview i List.mem_cons_self),
        append_eq_append_iff_of_marked (hmark _) (hmark _) hrest hsolo,
        ih hnd (fun j hj => hview j (List.mem_cons_of_mem _ hj)), Absorbing,
        (List.map_injective_iff.mpr (Prod.mk_right_injective i)).eq_iff]
      apply and_congr_left
      intro _
      rcases q with - | b
      · simp
      · rw [handed_eq_iff_absorbs]
        simp

theorem independent_iff {view : ℕ → RingView} {is : List ℕ} (hnd : is.Nodup)
    (hview : ∀ i ∈ is, (view i).InRing P) :
    Independent P view is (planFrom P view none is) ↔ Absorbing P view none is := by
  rw [← entriesOf_planFrom_eq_iff hnd hview, Independent, and_iff_left_iff_imp]
  intro h p hp
  rw [h] at hp
  obtain ⟨i, hi, hp⟩ := List.mem_flatMap.mp hp
  rw [soloEntries_eq (hview i hi)] at hp
  obtain ⟨k, hk, rfl⟩ := List.mem_map.mp hp
  exact mem_slots_of_handed_none (hview i hi) hk

/-- **Both recovery functions treat the streams independently exactly when every
BEGIN that a stream leaves open is absorbed by the streams after it.**  The
rings may hold anything; the cursors are slots. -/
theorem recovery_independent_iff (P : Params) (o : Olayer)
    (hring : ∀ i < P.nrStreams, (o.stream i).InRing P) (sids : List ℕ) (hsids : sids.Nodup) :
    (∃ plan, olayerCrashRecovery P o = some plan ∧
        Independent P (crashView P o) (List.range P.nrStreams) plan) ∧
      (∃ plan, gracefulPlan P o sids = some plan ∧
        Independent P (hostView o) (sids.filter (· < P.nrStreams)) plan)
    ↔ Absorbing P (crashView P o) none (List.range P.nrStreams) ∧
      Absorbing P (hostView o) none (sids.filter (· < P.nrStreams)) := by
  have hcrash : ∀ i < P.nrStreams, (crashView P o i).InRing P :=
    fun i hi => ⟨(hring i hi).head_lt, (hring i hi).flushed_lt⟩
  have hhost : ∀ i < P.nrStreams, (hostView o i).InRing P :=
    fun i hi => ⟨(hring i hi).head_lt, (hring i hi).flushed_lt⟩
  rw [olayerCrashRecovery_eq hcrash, gracefulPlan_eq hhost]
  simp only [Option.some.injEq, exists_eq_left']
  rw [independent_iff List.nodup_range fun i hi => hcrash i (List.mem_range.mp hi),
    independent_iff (hsids.filter _) fun i hi => hhost i (by simpa using (List.mem_filter.mp hi).2)]

/-- Two rings of the small controller: stream 0 holds a lone BEGIN in slot 0;
stream 1, whose range is the slots 2 and 3, holds a TX entry and an END, and a
stale journaled entry in slot 1. -/
def crossRing (sid idx : ℕ) : Ometa :=
  match sid, idx with
  | 0, 0 => ⟨100, 1, 0, HoraeFlag.txBegin.bit, 0, 1⟩
  | 1, 1 => ⟨101, 1, 0, HoraeFlag.tx.bit, 0, 5⟩
  | 1, 2 => ⟨102, 1, 0, HoraeFlag.tx.bit, 0, 6⟩
  | 1, 3 => ⟨103, 1, 0, HoraeFlag.txEnd.bit, 0, 7⟩
  | _, _ => Ometa.zero

/-- The state with these two rings, mirrored in controller memory. -/
def crossState : Olayer where
  stream sid :=
    let s := initStream Params.tiny (crossRing sid) 0 sid
    match sid with
    | 0 => { s with tail := 1, tailWatermark := 1, flushed := 1 }
    | 1 => { s with head := 2 }
    | _ => s
  cmb x := crossRing (x / Params.tiny.nrOmeta) (x % Params.tiny.nrOmeta)
  blocksPerGroup := 1
  ipuTree := fun _ _ => none
  registeredList := []
  io := []

/-- The END of stream 1 closes the BEGIN of stream 0: both functions hand over two
entries of stream 1, one of them outside its range, where the solo scans of all
streams hand over none. -/
theorem open_begin_crosses_streams :
    (olayerCrashRecovery Params.tiny crossState).map entriesOf = some [(1, 1), (1, 2)] ∧
    (gracefulPlan Params.tiny crossState [0, 1]).map entriesOf = some [(1, 1), (1, 2)] ∧
    (List.range 64).flatMap (soloEntries Params.tiny (crashView Params.tiny crossState)) = [] ∧
    [0, 1].flatMap (soloEntries Params.tiny (hostView crossState)) = [] ∧
    1 ∉ (crashView Params.tiny crossState 1).slots Params.tiny := by
  decide +kernel

theorem crossState_inRing (i : ℕ) (_ : i < Params.tiny.nrStreams) :
    (crossState.stream i).InRing Params.tiny := by
  rcases i with - | - | i
  · exact ⟨by decide, by decide, by decide, by decide⟩
  · exact ⟨by decide, by decide, by decide, by decide⟩
  · exact ⟨nrOmeta_pos, nrOmeta_pos, nrOmeta_pos, nrOmeta_pos⟩

theorem recovery_independent_iff_crossState :
    (∃ plan, olayerCrashRecovery Params.tiny crossState = some plan ∧
        Independent Params.tiny (crashView Params.tiny crossState) (List.range 64) plan) ∧
      (∃ plan, gracefulPlan Params.tiny crossState [0, 1] = some plan ∧
        Independent Params.tiny (hostView crossState) ([0, 1].filter (· < 64)) plan)
    ↔ Absorbing Params.tiny (crashView Params.tiny crossState) none (List.range 64) ∧
      Absorbing Params.tiny (hostView crossState) none ([0, 1].filter (· < 64)) :=
  recovery_independent_iff Params.tiny crossState crossState_inRing [0, 1] (by decide)

end CcNvme

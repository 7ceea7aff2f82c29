/-
CcNvme/Scan.lean

The BEGIN/END scanner.  `commit_write`, `commit_write_submit`,
`graceful_shutdown` and `olayer_crash_recovery` contain four copies of one
nested loop over the ring:

    for (m = head; m != flushed; m = (m + 1) % nr_ometa) {
        if (phase == 0) { BEGIN tag: remember the slot, phase = 1, continue }
        if (phase == 1) { END tag: hand over every slot strictly between
                          the two whose plba is not 0, phase = 0 }
    }

`scanRing` is that loop; the copies differ in where the tags are read from
(`o`), where the plba is read from (`host`), and in the state they start in.
`scanRing_spec` identifies it with the bracket scanner of `Lib/Bracket`
applied to the list of slots from `head` to `flushed`.
-/
import CcNvme.Horae
import CcNvme.Lib.Bracket

namespace CcNvme

/-- `phase`: 0 looks for a BEGIN tag, 1 for an END tag. -/
inductive ScanPhase where
  | findBegin
  | findEnd
  deriving DecidableEq, Repr

/-- One delimited transaction: the slots of its BEGIN and END tags, the `txid`
stored in the END slot and the slots handed over. -/
structure Segment where
  beginIdx : ℕ
  endIdx : ℕ
  txid : ℕ
  handed : List ℕ
  deriving DecidableEq, Repr

/-- The scanner's local variables and what it has handed over. -/
structure ScanState where
  phase : ScanPhase
  beginIdx : ℕ
  out : List Segment
  deriving DecidableEq, Repr

/-- The state of a scanner that has just been declared. -/
def ScanState.init : ScanState := ⟨.findBegin, 0, []⟩

variable (P : Params)

/-- The inner loop: the slots `k` from `begin_idx + 1` up to `j` that were journaled. -/
def handOver (host : ℕ → Ometa) (beginIdx j : ℕ) : Option (List ℕ) :=
  Circular.loop P.nrOmeta j
    (fun k acc => some (if (host k).plba = 0 then acc else acc ++ [k]))
    P.nrOmeta ((beginIdx + 1) % P.nrOmeta) []

/-- The body of the outer loop at slot `j`. -/
def scanBody (o host : ℕ → Ometa) (j : ℕ) (st : ScanState) : Option ScanState :=
  match st.phase with
  | .findBegin =>
      if (o j).isBegin then some { st with phase := .findEnd, beginIdx := j } else some st
  | .findEnd =>
      if (o j).isEnd then
        (handOver P host st.beginIdx j).map fun handed =>
          { st with
            phase := .findBegin
            out := st.out ++ [⟨st.beginIdx, j, (o j).txid, handed⟩] }
      else some st

/-- The outer loop over the slots from `head` to `flushed`. -/
def scanRing (head flushed : ℕ) (o host : ℕ → Ometa) (st : ScanState) : Option ScanState :=
  Circular.loop P.nrOmeta flushed (scanBody P o host) P.nrOmeta head st

/-! ### The slots of a circular range -/

/-- The slots of the circular range `[a, b)`, in ring order. -/
def slotsOf (a b : ℕ) : List ℕ := Circular.arc P.nrOmeta a (Circular.dist P.nrOmeta a b)

/-- The journaled slots strictly between `b` and `e`, going forward. -/
def between (host : ℕ → Ometa) (b e : ℕ) : List ℕ :=
  (slotsOf P ((b + 1) % P.nrOmeta) e).filter fun k => (host k).plba ≠ 0

/-- The segment the scanner reports for a BEGIN at `b` and an END at `e`. -/
def segmentOf (o host : ℕ → Ometa) (p : ℕ × ℕ) : Segment :=
  ⟨p.1, p.2, (o p.2).txid, between P host p.1 p.2⟩

variable {P}

theorem nrOmeta_pos : 0 < P.nrOmeta := P.nrOmeta_pos

theorem mem_slotsOf_lt {a b x : ℕ} (ha : a < P.nrOmeta) (hx : x ∈ slotsOf P a b) :
    x < P.nrOmeta :=
  Circular.mem_arc_lt ha hx

theorem nodup_slotsOf {a b : ℕ} (ha : a < P.nrOmeta) : (slotsOf P a b).Nodup :=
  Circular.nodup_arc ha (Circular.dist_lt nrOmeta_pos).le

/-- A range that ends where it begins is empty. -/
theorem slotsOf_self (a : ℕ) : slotsOf P a a = [] := by
  rw [slotsOf, Circular.dist_self, Circular.arc_zero]

/-- The circular range between two counters at most a ring apart. -/
theorem slotsOf_mod {h t : ℕ} (hht : h ≤ t) (hlt : t < h + P.nrOmeta) :
    slotsOf P (h % P.nrOmeta) (t % P.nrOmeta)
      = (List.range (t - h)).map fun j => (h + j) % P.nrOmeta := by
  rw [slotsOf, Circular.dist_mod hht hlt, Circular.arc_mod]

theorem mem_slotsOf_mod {h t x : ℕ} (hht : h ≤ t) (hlt : t < h + P.nrOmeta) :
    x ∈ slotsOf P (h % P.nrOmeta) (t % P.nrOmeta)
      ↔ ∃ i, h ≤ i ∧ i < t ∧ x = i % P.nrOmeta := by
  rw [slotsOf, Circular.dist_mod hht hlt, Circular.mem_arc_mod]
  constructor <;>
  · rintro ⟨j, h1, h2, rfl⟩
    exact ⟨j, h1, by omega, rfl⟩

/-- The slots strictly between two slots of a circular range. -/
theorem slotsOf_between {a b x y : ℕ} {us vs ws : List ℕ} (ha : a < P.nrOmeta)
    (hsplit : slotsOf P a b = us ++ x :: (vs ++ y :: ws)) :
    slotsOf P ((x + 1) % P.nrOmeta) y = vs :=
  Circular.arc_between ha (Circular.dist_lt nrOmeta_pos).le hsplit

/-! ### The scanner as a bracket scanner -/

/-- The BEGIN slot that waits for its END. -/
def ScanState.opened (st : ScanState) : Option ℕ :=
  match st.phase with
  | .findBegin => none
  | .findEnd => some st.beginIdx

theorem filterLoop_foldl (host : ℕ → Ometa) (xs acc : List ℕ) :
    xs.foldl (fun acc k => if (host k).plba = 0 then acc else acc ++ [k]) acc
      = acc ++ xs.filter fun k => (host k).plba ≠ 0 := by
  induction xs generalizing acc with
  | nil => simp
  | cons k xs ih =>
      rw [List.foldl_cons, ih]
      by_cases hk : (host k).plba = 0 <;> simp [hk]

theorem handOver_eq (host : ℕ → Ometa) {b j : ℕ} (hj : j < P.nrOmeta) :
    handOver P host b j = some (between P host b j) := by
  unfold handOver
  rw [Circular.loop_eq_foldl _ _ (Nat.mod_lt _ nrOmeta_pos) hj, filterLoop_foldl]
  rfl

/-- What the body does to the waiting BEGIN and to the output. -/
theorem scanBody_spec (o host : ℕ → Ometa) {j : ℕ} (hj : j < P.nrOmeta) (st : ScanState) :
    ∃ st', scanBody P o host j st = some st' ∧
      st'.opened = Bracket.next (fun i => (o i).isBegin) (fun i => (o i).isEnd) st.opened j ∧
      st'.out = st.out ++
        (Bracket.emit (fun i => (o i).isEnd) st.opened j).map (segmentOf P o host) := by
  obtain ⟨phase, b, out⟩ := st
  rcases phase with - | -
  -- phase 0 looks for BEGIN only, and an END it passes is not used
  · by_cases hB : (o j).isBegin
    · exact ⟨⟨.findEnd, j, out⟩, by simp [scanBody, hB],
        by simp [ScanState.opened, Bracket.next, hB],
        by simp [ScanState.opened, Bracket.emit]⟩
    · exact ⟨⟨.findBegin, b, out⟩, by simp [scanBody, hB],
        by simp [ScanState.opened, Bracket.next, hB],
        by simp [ScanState.opened, Bracket.emit]⟩
  -- phase 1 looks for END only; `begin_idx` keeps the first BEGIN
  · by_cases hE : (o j).isEnd
    · exact ⟨⟨.findBegin, b, out ++ [segmentOf P o host (b, j)]⟩,
        by simp [scanBody, hE, handOver_eq host hj, segmentOf],
        by simp [ScanState.opened, Bracket.next, hE],
        by simp [ScanState.opened, Bracket.emit, hE]⟩
    · exact ⟨⟨.findEnd, b, out⟩, by simp [scanBody, hE],
        by simp [ScanState.opened, Bracket.next, hE],
        by simp [ScanState.opened, Bracket.emit, hE]⟩

theorem scanBody_foldlM (o host : ℕ → Ometa) {xs : List ℕ} (hxs : ∀ x ∈ xs, x < P.nrOmeta)
    (st : ScanState) :
    ∃ st', xs.foldlM (fun st j => scanBody P o host j st) st = some st' ∧
      st'.opened
        = Bracket.rest (fun i => (o i).isBegin) (fun i => (o i).isEnd) st.opened xs ∧
      st'.out = st.out ++
        (Bracket.pairs (fun i => (o i).isBegin) (fun i => (o i).isEnd) st.opened xs).map
          (segmentOf P o host) := by
  induction xs generalizing st with
  | nil => exact ⟨st, rfl, rfl, by simp⟩
  | cons x xs ih =>
      obtain ⟨st₁, h₁, hopen₁, hout₁⟩ := scanBody_spec o host (hxs x List.mem_cons_self) st
      obtain ⟨st₂, h₂, hopen₂, hout₂⟩ := ih (fun y hy => hxs y (List.mem_cons_of_mem _ hy)) st₁
      refine ⟨st₂, ?_, ?_, ?_⟩
      · rw [List.foldlM_cons, h₁]
        exact h₂
      · rw [hopen₂, hopen₁, Bracket.rest_cons]
      · rw [hout₂, hout₁, hopen₁, Bracket.pairs_cons, List.map_append, List.append_assoc]

/-- **The scanner terminates and is the bracket scanner**: on a ring whose
cursors are slots, it appends one segment per matched BEGIN/END pair of the
slots from `head` to `flushed`, and ends waiting for what the bracket scanner
waits for. -/
theorem scanRing_spec (o host : ℕ → Ometa) {head flushed : ℕ} (hh : head < P.nrOmeta)
    (hf : flushed < P.nrOmeta) (st : ScanState) :
    ∃ st', scanRing P head flushed o host st = some st' ∧
      st'.opened = Bracket.rest (fun i => (o i).isBegin) (fun i => (o i).isEnd) st.opened
        (slotsOf P head flushed) ∧
      st'.out = st.out ++
        (Bracket.pairs (fun i => (o i).isBegin) (fun i => (o i).isEnd) st.opened
          (slotsOf P head flushed)).map (segmentOf P o host) := by
  unfold scanRing
  rw [Circular.loop_eq_foldlM _ _ hh hf]
  exact scanBody_foldlM o host (fun x hx => mem_slotsOf_lt hh hx) st

end CcNvme

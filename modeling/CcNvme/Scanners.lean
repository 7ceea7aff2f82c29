/-
CcNvme/Scanners.lean

The four copies of the BEGIN/END scanner, each with the index variables of its
own source text.  `commit_write` and `commit_write_submit` keep slots in
`int`s, `graceful_shutdown` and `olayer_crash_recovery` in `uint`s, all four
keep `begin_idx` in a `u32`, and every one of them compares its loop variable
with cursors that are `u64`.  `Scanner` also records the slots that are read.

`scanners_parse` says that the copies are one parser: each of them returns, and
hands over the journaled entries of the groups that `Bracket.groups` cuts out of
the slots from `head` to `flushed`.  The lemmas at the end identify the copies
with the scans that the rest of the development uses.
-/
import CcNvme.Recovery

namespace CcNvme

/-! ### Index variables -/

/-- The type of the index variables `j`, `k` and `m` of a scanner. -/
inductive IndexType where
  | int
  | uint
  deriving DecidableEq, Repr

/-- The 32 bits `x` of an index variable, converted to `u64`. -/
def IndexType.toU64 : IndexType → ℕ → ℕ
  | .int, x => if x < 2 ^ 31 then x else x + (2 ^ 64 - 2 ^ 32)
  | .uint, x => x

/-- `m = (m + 1) % nr_ometa` -/
def IndexType.next (τ : IndexType) (nr x : ℕ) : ℕ := τ.toU64 ((x + 1) % 2 ^ 32) % nr % 2 ^ 32

/-- `for (; m != stop; m = (m + 1) % nr_ometa) body`, with fuel. -/
def IndexType.loop {σ : Type*} (τ : IndexType) (nr stop : ℕ) (body : ℕ → σ → Option σ) :
    ℕ → ℕ → σ → Option σ
  | 0, m, s => if τ.toU64 m = stop then some s else none
  | fuel + 1, m, s =>
      if τ.toU64 m = stop then some s
      else (body m s).bind (IndexType.loop τ nr stop body fuel (τ.next nr m))

theorem IndexType.toU64_of_lt (τ : IndexType) {x : ℕ} (hx : x < 2 ^ 31) : τ.toU64 x = x := by
  cases τ with
  | int => exact if_pos hx
  | uint => rfl

theorem IndexType.next_of_lt (τ : IndexType) {nr x : ℕ} (hnr : nr < 2 ^ 31) (hx : x < nr) :
    τ.next nr x = (x + 1) % nr := by
  have hmod : (x + 1) % nr < nr := Nat.mod_lt _ (by omega)
  rw [IndexType.next, Nat.mod_eq_of_lt (a := x + 1) (by omega), τ.toU64_of_lt (by omega),
    Nat.mod_eq_of_lt (by omega)]

/-- On a ring whose slots fit an `int`, the conversions change nothing. -/
theorem IndexType.loop_eq {σ : Type*} (τ : IndexType) {nr stop : ℕ} (body : ℕ → σ → Option σ)
    (hnr : nr < 2 ^ 31) (fuel : ℕ) {m : ℕ} (hm : m < nr) (s : σ) :
    τ.loop nr stop body fuel m s = Circular.loop nr stop body fuel m s := by
  induction fuel generalizing m s with
  | zero =>
      rw [IndexType.loop, Circular.loop, τ.toU64_of_lt (by omega)]
  | succ fuel ih =>
      rw [IndexType.loop, Circular.loop, τ.toU64_of_lt (by omega), τ.next_of_lt hnr hm]
      rcases body m s with - | s'
      · rfl
      · rw [Option.bind_some, Option.bind_some, ih (Circular.succ_mod_lt hm)]

/-! ### The copies -/

/-- The locals of a scanner, the slots it has read and the slots it has handed over. -/
structure Scanner where
  phase : ScanPhase
  beginIdx : ℕ
  read : List ℕ
  handed : List ℕ
  deriving DecidableEq, Repr

/-- At the start of the loop; `begin_idx` is not yet set. -/
def Scanner.init : Scanner := ⟨.findBegin, 0, [], []⟩

/-- The body of the inner loop: an entry with a `plba` is handed over. -/
def Scanner.visit (host : ℕ → Ometa) (k : ℕ) (sc : Scanner) : Scanner :=
  { sc with
    read := sc.read ++ [k]
    handed := if (host k).plba = 0 then sc.handed else sc.handed ++ [k] }

variable (P : Params)

/-- The body of the outer loop at slot `j`. -/
def Scanner.body (τ : IndexType) (o host : ℕ → Ometa) (j : ℕ) (sc : Scanner) : Option Scanner :=
  let sc := { sc with read := sc.read ++ [j] }
  match sc.phase with
  | .findBegin =>
      if (o j).isBegin then some { sc with phase := .findEnd, beginIdx := j } else some sc
  | .findEnd =>
      if (o j).isEnd then
        (τ.loop P.nrOmeta (τ.toU64 j) (fun k sc => some (sc.visit host k)) P.nrOmeta
          ((sc.beginIdx + 1) % 2 ^ 32 % P.nrOmeta % 2 ^ 32) sc).map
          fun sc => { sc with phase := .findBegin }
      else some sc

/-- The scan of one stream by a copy with index variables of type `τ`. -/
def Scanner.scan (τ : IndexType) (head flushed : ℕ) (o host : ℕ → Ometa) : Option Scanner :=
  τ.loop P.nrOmeta flushed (Scanner.body P τ o host) P.nrOmeta (head % 2 ^ 32) Scanner.init

/-- The loop of `commit_write`. -/
def commitWriteLoop (s : Stream) : Option Scanner :=
  Scanner.scan P .int s.head s.flushed (streamOmetaAt s) (streamOmetaAt s)

/-- The loop of `commit_write_submit`. -/
def commitWriteSubmitLoop (s : Stream) : Option Scanner :=
  Scanner.scan P .int s.head s.flushed (streamOmetaAt s) (streamOmetaAt s)

/-- The loop of `graceful_shutdown` over one stream, entered in phase 0. -/
def gracefulShutdownLoop (s : Stream) : Option Scanner :=
  Scanner.scan P .uint s.head s.flushed (streamOmetaAt s) (streamOmetaAt s)

/-- The loop of `olayer_crash_recovery` over stream `i`, entered in phase 0: the tags
come from controller memory. -/
def olayerCrashRecoveryLoop (o : Olayer) (i : ℕ) : Option Scanner :=
  Scanner.scan P .uint (o.stream i).head (o.stream i).flushed (cmbRing P o i)
    (streamOmetaAt (o.stream i))

/-! ### What a copy does -/

variable {P}

/-- The BEGIN slot that waits for its END. -/
def Scanner.opened (sc : Scanner) : Option ℕ :=
  match sc.phase with
  | .findBegin => none
  | .findEnd => some sc.beginIdx

theorem Scanner.visit_foldl (host : ℕ → Ometa) (xs : List ℕ) (sc : Scanner) :
    xs.foldl (fun sc k => sc.visit host k) sc
      = { sc with
          read := sc.read ++ xs
          handed := sc.handed ++ xs.filter fun k => (host k).plba ≠ 0 } := by
  induction xs generalizing sc with
  | nil => simp
  | cons k xs ih =>
      rw [List.foldl_cons, ih]
      by_cases hk : (host k).plba = 0 <;> simp [Scanner.visit, hk]

/-- The inner loop reads and hands over the slots strictly between `b` and `j`. -/
theorem Scanner.inner_eq (τ : IndexType) (host : ℕ → Ometa) {b j : ℕ} (hb : b < P.nrOmeta)
    (hj : j < P.nrOmeta) (sc : Scanner) :
    τ.loop P.nrOmeta (τ.toU64 j) (fun k sc => some (sc.visit host k)) P.nrOmeta
        ((b + 1) % 2 ^ 32 % P.nrOmeta % 2 ^ 32) sc
      = some { sc with
          read := sc.read ++ slotsOf P ((b + 1) % P.nrOmeta) j
          handed := sc.handed ++ between P host b j } := by
  have hnr := P.nrOmeta_lt
  have hstart : (b + 1) % 2 ^ 32 % P.nrOmeta % 2 ^ 32 = (b + 1) % P.nrOmeta := by
    have := Nat.mod_lt (b + 1) (nrOmeta_pos (P := P))
    rw [Nat.mod_eq_of_lt (a := b + 1) (by omega), Nat.mod_eq_of_lt (by omega)]
  rw [hstart, τ.toU64_of_lt (by omega), τ.loop_eq _ hnr _ (Circular.succ_mod_lt hb),
    Circular.loop_eq_foldl _ _ (Circular.succ_mod_lt hb) hj, Scanner.visit_foldl]
  rfl

/-- One turn of the outer loop: what it does to the waiting BEGIN, what it hands over,
and which slots it reads. -/
theorem Scanner.body_spec (τ : IndexType) (o host : ℕ → Ometa) {j : ℕ} (hj : j < P.nrOmeta)
    (sc : Scanner) (hb : ∀ b, sc.opened = some b → b < P.nrOmeta) :
    ∃ sc', Scanner.body P τ o host j sc = some sc' ∧
      sc'.opened = Bracket.next (fun i => (o i).isBegin) (fun i => (o i).isEnd) sc.opened j ∧
      sc'.handed = sc.handed ++ (Bracket.emit (fun i => (o i).isEnd) sc.opened j).flatMap
        (fun p => between P host p.1 p.2) ∧
      ∀ r ∈ sc'.read, r ∈ sc.read ∨ r = j ∨
        ∃ p ∈ Bracket.emit (fun i => (o i).isEnd) sc.opened j,
          r ∈ slotsOf P ((p.1 + 1) % P.nrOmeta) p.2 := by
  obtain ⟨phase, b, read, handed⟩ := sc
  cases phase with
  | findBegin =>
      by_cases hB : (o j).isBegin
      · exact ⟨⟨.findEnd, j, read ++ [j], handed⟩, by simp [Scanner.body, hB],
          by simp [Scanner.opened, Bracket.next, hB], by simp [Scanner.opened, Bracket.emit],
          by simpa using fun r hr => hr.imp_right Or.inl⟩
      · exact ⟨⟨.findBegin, b, read ++ [j], handed⟩, by simp [Scanner.body, hB],
          by simp [Scanner.opened, Bracket.next, hB], by simp [Scanner.opened, Bracket.emit],
          by simpa using fun r hr => hr.imp_right Or.inl⟩
  | findEnd =>
      by_cases hE : (o j).isEnd
      · have hinner := Scanner.inner_eq τ host (hb b rfl) hj ⟨.findEnd, b, read ++ [j], handed⟩
        refine ⟨⟨.findBegin, b, read ++ [j] ++ slotsOf P ((b + 1) % P.nrOmeta) j,
          handed ++ between P host b j⟩, by simp only [Scanner.body, hE, if_true, hinner,
            Option.map_some], by simp [Scanner.opened, Bracket.next, hE],
          by simp [Scanner.opened, Bracket.emit, hE], ?_⟩
        simp [Scanner.opened, Bracket.emit, hE]
      · exact ⟨⟨.findEnd, b, read ++ [j], handed⟩, by simp [Scanner.body, hE],
          by simp [Scanner.opened, Bracket.next, hE], by simp [Scanner.opened, Bracket.emit, hE],
          by simpa using fun r hr => hr.imp_right Or.inl⟩

theorem next_lt {isB isE : ℕ → Bool} {q : Option ℕ} {j n : ℕ} (hj : j < n)
    (hq : ∀ b, q = some b → b < n) : ∀ b, Bracket.next isB isE q j = some b → b < n := by
  intro b hb
  rcases q with - | y
  · by_cases hB : isB j
    · obtain rfl : j = b := by simpa [Bracket.next, hB] using hb
      exact hj
    · simp [Bracket.next, hB] at hb
  · by_cases hE : isE j
    · simp [Bracket.next, hE] at hb
    · obtain rfl : y = b := by simpa [Bracket.next, hE] using hb
      exact hq y rfl

theorem Scanner.body_foldlM (τ : IndexType) (o host : ℕ → Ometa) {xs : List ℕ}
    (hxs : ∀ x ∈ xs, x < P.nrOmeta) (sc : Scanner)
    (hb : ∀ b, sc.opened = some b → b < P.nrOmeta) :
    ∃ sc', xs.foldlM (fun sc j => Scanner.body P τ o host j sc) sc = some sc' ∧
      sc'.handed = sc.handed ++
        (Bracket.pairs (fun i => (o i).isBegin) (fun i => (o i).isEnd) sc.opened xs).flatMap
          (fun p => between P host p.1 p.2) ∧
      ∀ r ∈ sc'.read, r ∈ sc.read ∨ r ∈ xs ∨
        ∃ p ∈ Bracket.pairs (fun i => (o i).isBegin) (fun i => (o i).isEnd) sc.opened xs,
          r ∈ slotsOf P ((p.1 + 1) % P.nrOmeta) p.2 := by
  induction xs generalizing sc with
  | nil => exact ⟨sc, rfl, by simp, fun r hr => Or.inl hr⟩
  | cons x xs ih =>
      have hx := hxs x List.mem_cons_self
      obtain ⟨sc₁, h₁, hopen₁, hhanded₁, hread₁⟩ := Scanner.body_spec τ o host hx sc hb
      obtain ⟨sc₂, h₂, hhanded₂, hread₂⟩ := ih (fun y hy => hxs y (List.mem_cons_of_mem _ hy)) sc₁
        (hopen₁ ▸ next_lt hx hb)
      rw [hopen₁] at hhanded₂ hread₂
      refine ⟨sc₂, ?_, ?_, fun r hr => ?_⟩
      · rw [List.foldlM_cons, h₁]
        exact h₂
      · rw [hhanded₂, hhanded₁, Bracket.pairs_cons, List.flatMap_append, List.append_assoc]
      · rw [Bracket.pairs_cons]
        rcases hread₂ r hr with h | h | ⟨p, hp, h⟩
        · rcases hread₁ r h with h | rfl | ⟨p, hp, h⟩
          · exact Or.inl h
          · exact Or.inr (Or.inl List.mem_cons_self)
          · exact Or.inr (Or.inr ⟨p, List.mem_append_left _ hp, h⟩)
        · exact Or.inr (Or.inl (List.mem_cons_of_mem _ h))
        · exact Or.inr (Or.inr ⟨p, List.mem_append_right _ hp, h⟩)

/-- A copy returns, hands over what lies between the matched tags, and reads no slot
outside `[head, flushed)`. -/
theorem Scanner.scan_spec (τ : IndexType) (o host : ℕ → Ometa) {head flushed : ℕ}
    (hh : head < P.nrOmeta) (hf : flushed < P.nrOmeta) :
    ∃ sc, Scanner.scan P τ head flushed o host = some sc ∧
      sc.handed = (Bracket.pairs (fun i => (o i).isBegin) (fun i => (o i).isEnd) none
        (slotsOf P head flushed)).flatMap (fun p => between P host p.1 p.2) ∧
      ∀ r ∈ sc.read, r ∈ slotsOf P head flushed := by
  have hnr := P.nrOmeta_lt
  obtain ⟨sc, hsc, hhanded, hread⟩ := Scanner.body_foldlM τ o host
    (fun x hx => mem_slotsOf_lt hh hx) Scanner.init (nofun : ∀ b, none = some b → _)
  refine ⟨sc, ?_, hhanded, fun r hr => ?_⟩
  · rw [Scanner.scan, Nat.mod_eq_of_lt (by omega), τ.loop_eq _ hnr _ hh,
      Circular.loop_eq_foldlM _ _ hh hf]
    exact hsc
  · rcases hread r hr with h | h | ⟨p, hp, h⟩
    · cases h
    · exact h
    · -- the inner loop stays between a BEGIN and an END of the range
      rcases Bracket.exists_of_mem_pairs hp with ⟨us, vs, ws, hsplit⟩ | ⟨hq, -⟩
      · rw [slotsOf_between hh hsplit] at h
        rw [hsplit]
        simp [h]
      · cases hq

/-! ### The parser -/

/-- The parser: of the slots from `head` to `flushed`, those strictly between the first
BEGIN and the first END after it, and so on behind that END, that have a `plba`. -/
def Stream.parse (P : Params) (s : Stream) : List ℕ :=
  (Bracket.groups (fun i => (s.ometa i).isBegin) (fun i => (s.ometa i).isEnd)
    (slotsOf P s.head s.flushed)).flatMap fun g => g.filter fun k => (s.ometa k).plba ≠ 0

theorem Stream.parse_nodup {s : Stream} (hh : s.head < P.nrOmeta) : (s.parse P).Nodup := by
  rw [Stream.parse, List.flatMap_def, ← List.filter_flatten]
  exact ((nodup_slotsOf hh).sublist (Bracket.groups_flatten_sublist _)).filter _

/-- The scanner's pairs and the parser's groups are the same. -/
theorem pairs_flatMap_between {s : Stream} (hh : s.head < P.nrOmeta) {o : ℕ → Ometa}
    (ho : ∀ x < P.nrOmeta, o x = s.ometa x) :
    (Bracket.pairs (fun i => (o i).isBegin) (fun i => (o i).isEnd) none
      (slotsOf P s.head s.flushed)).flatMap (fun p => between P s.ometa p.1 p.2)
        = s.parse P := by
  have hcongr : ∀ x ∈ slotsOf P s.head s.flushed,
      (o x).isBegin = (s.ometa x).isBegin ∧ (o x).isEnd = (s.ometa x).isEnd :=
    fun x hx => by rw [ho x (mem_slotsOf_lt hh hx)]; exact ⟨rfl, rfl⟩
  have hgroups : (Bracket.pairs (fun i => (s.ometa i).isBegin) (fun i => (s.ometa i).isEnd) none
      (slotsOf P s.head s.flushed)).map (fun p => slotsOf P ((p.1 + 1) % P.nrOmeta) p.2)
        = Bracket.groups (fun i => (s.ometa i).isBegin) (fun i => (s.ometa i).isEnd)
          (slotsOf P s.head s.flushed) :=
    Bracket.map_pairs_eq_groups [] fun _ _ _ _ _ h => slotsOf_between hh h
  rw [Bracket.pairs_congr hcongr, Stream.parse, ← hgroups, List.flatMap_map]
  rfl

/-- **The four scanners are one parser.**  Whatever tags and addresses stand in the
ring, each of the four loops returns; all hand over the slots that the parser
outputs, in its order and each once, and none reads a slot outside the range. -/
theorem scanners_parse {o : Olayer} {i : ℕ} (hh : (o.stream i).head < P.nrOmeta)
    (hf : (o.stream i).flushed < P.nrOmeta)
    (hcmb : ∀ x < P.nrOmeta, cmbRing P o i x = (o.stream i).ometa x) :
    (∃ w x y z, commitWriteLoop P (o.stream i) = some w ∧
      commitWriteSubmitLoop P (o.stream i) = some x ∧
      gracefulShutdownLoop P (o.stream i) = some y ∧ olayerCrashRecoveryLoop P o i = some z ∧
      ∀ sc ∈ [w, x, y, z], sc.handed = (o.stream i).parse P ∧
        ∀ r ∈ sc.read, r ∈ slotsOf P (o.stream i).head (o.stream i).flushed) ∧
    ((o.stream i).parse P).Nodup := by
  have hhost := pairs_flatMap_between hh (o := (o.stream i).ometa) fun _ _ => rfl
  have hdev := pairs_flatMap_between hh hcmb
  obtain ⟨w, hw, hwh, hwr⟩ :=
    Scanner.scan_spec .int (o.stream i).ometa (o.stream i).ometa hh hf
  obtain ⟨y, hy, hyh, hyr⟩ :=
    Scanner.scan_spec .uint (o.stream i).ometa (o.stream i).ometa hh hf
  obtain ⟨z, hz, hzh, hzr⟩ := Scanner.scan_spec .uint (cmbRing P o i) (o.stream i).ometa hh hf
  refine ⟨⟨w, w, y, z, hw, hw, hy, hz, ?_⟩, Stream.parse_nodup hh⟩
  simp only [List.mem_cons, List.not_mem_nil, or_false]
  rintro sc (rfl | rfl | rfl | rfl)
  · exact ⟨hwh.trans hhost, hwr⟩
  · exact ⟨hwh.trans hhost, hwr⟩
  · exact ⟨hyh.trans hhost, hyr⟩
  · exact ⟨hzh.trans hdev, hzr⟩

/-- A ring of the small controller that wraps: BEGIN in slot 3, a journaled write in
slot 0, and both marks in slot 1. -/
def wrappedRing : Olayer :=
  let ring : ℕ → Ometa := fun
    | 3 => ⟨9, 1, 0, HoraeFlag.txBegin.bit, 0, 0⟩
    | 0 => ⟨10, 1, 0, HoraeFlag.tx.bit, 0, 20⟩
    | 1 => ⟨11, 1, 0, HoraeFlag.txBegin.bit ||| HoraeFlag.txEnd.bit, 0, 21⟩
    | _ => Ometa.zero
  { tinyLoaded.setStream 5 { tinyLoaded.stream 5 with
      head := 3, flushed := 2, tail := 2, tailWatermark := 2, ometa := ring } with
    cmb := fun c => ring (c - 20) }

theorem scanners_parse_wrappedRing :
    ((wrappedRing.stream 5).head < Params.tiny.nrOmeta ∧
      (wrappedRing.stream 5).flushed < Params.tiny.nrOmeta ∧
      ∀ x < Params.tiny.nrOmeta, cmbRing Params.tiny wrappedRing 5 x
        = (wrappedRing.stream 5).ometa x) ∧
    (∃ w x y z, commitWriteLoop Params.tiny (wrappedRing.stream 5) = some w ∧
      commitWriteSubmitLoop Params.tiny (wrappedRing.stream 5) = some x ∧
      gracefulShutdownLoop Params.tiny (wrappedRing.stream 5) = some y ∧
      olayerCrashRecoveryLoop Params.tiny wrappedRing 5 = some z ∧
      ∀ sc ∈ [w, x, y, z], sc.handed = (wrappedRing.stream 5).parse Params.tiny ∧
        ∀ r ∈ sc.read, r ∈ slotsOf Params.tiny (wrappedRing.stream 5).head
          (wrappedRing.stream 5).flushed) ∧
    ((wrappedRing.stream 5).parse Params.tiny).Nodup :=
  ⟨by decide, scanners_parse (by decide) (by decide) (by decide)⟩

example : (commitWriteLoop Params.tiny (wrappedRing.stream 5)).map (·.handed) = some [0] := by
  decide

/-! ### The copies and the scans of the other modules -/

theorem Segment.flatMap_handed (o host : ℕ → Ometa) (ps : List (ℕ × ℕ)) :
    (ps.map (segmentOf P o host)).flatMap Segment.handed
      = ps.flatMap fun p => between P host p.1 p.2 := by
  rw [List.flatMap_map]
  rfl

theorem commitWriteScan_handed {s : Stream} (hh : s.head < P.nrOmeta)
    (hf : s.flushed < P.nrOmeta) :
    (commitWriteScan P s).map (·.flatMap Segment.handed)
      = (commitWriteLoop P s).map (·.handed) := by
  obtain ⟨sc, hsc, hhanded, -⟩ := Scanner.scan_spec .int s.ometa s.ometa hh hf
  have hloop : commitWriteLoop P s = some sc := hsc
  rw [commitWriteScan_eq hh hf, hloop, Option.map_some, Option.map_some, hhanded,
    Stream.delimited, Segment.flatMap_handed]

/-- On a single stream, entered in phase 0, the scan over the streams is the loop. -/
theorem scanStreams_single {view : ℕ → RingView} {i : ℕ} (h : (view i).InRing P) :
    (scanStreams P view [i] ScanState.init).map entriesOf
      = (Scanner.scan P .uint (view i).head (view i).flushed (view i).tags (view i).host).map
          fun sc => sc.handed.map (Prod.mk i) := by
  obtain ⟨sc, hsc, hhanded, -⟩ :=
    Scanner.scan_spec .uint (view i).tags (view i).host h.head_lt h.flushed_lt
  rw [scanStreams_eq (by simpa using h), hsc, Option.map_some, Option.map_some, hhanded,
    entriesOf_planFrom_cons]
  simp only [planFrom, entriesOf, List.flatMap_nil, List.append_nil]
  rfl

theorem gracefulPlan_single {o : Olayer} {i : ℕ} (hi : i < P.nrStreams)
    (h : (hostView o i).InRing P) :
    (gracefulPlan P o [i]).map entriesOf
      = (gracefulShutdownLoop P (o.stream i)).map fun sc => sc.handed.map (Prod.mk i) := by
  rw [gracefulPlan, List.filter_cons_of_pos (by simpa using hi), List.filter_nil]
  exact scanStreams_single h

theorem olayerCrashRecovery_single {o : Olayer} (hP : P.nrStreams = 1)
    (h : (crashView P o 0).InRing P) :
    (olayerCrashRecovery P o).map entriesOf
      = (olayerCrashRecoveryLoop P o 0).map fun sc => sc.handed.map (Prod.mk 0) := by
  rw [olayerCrashRecovery, hP, List.range_one]
  exact scanStreams_single h

end CcNvme

/-
CcNvme/Volatile.lean

What `olayer_crash_recovery` reads beside controller memory.  The tags come from
controller memory, but the bounds of the scan (`head`, `flushed`) and the
address and length of what is replayed come from host structures, which a crash
does not preserve.

`recoveryIo` is the sequence of journal reads and home writes.
`recovery_volatile_iff` says for which contents of controller memory it is the
same whatever the host structures hold: exactly when the tags never enclose an
entry, so that nothing is replayed at all.
-/
import CcNvme.Recovery

namespace CcNvme

/-! ### The requests of a recovery -/

/-- The requests `crash_recovery_commit_write` sends, with sector and pages. -/
inductive RecoveryIo where
  /-- from the journal device -/
  | read (sector nrPages : ℕ)
  /-- to the home device -/
  | write (sector nrPages : ℕ)
  deriving DecidableEq, Repr

/-- The read and the write of one entry. -/
def Ometa.recoveryIo (e : Ometa) : List RecoveryIo :=
  [.read (e.plba * 8 % 2 ^ 32) (min e.length 256), .write (e.lba * 8 % 2 ^ 64) (min e.length 256)]

variable (P : Params)

/-- The requests of `olayer_crash_recovery`, in order. -/
def recoveryIo (o : Olayer) : Option (List RecoveryIo) :=
  (olayerCrashRecovery P o).map fun plan =>
    (entriesOf plan).flatMap fun p => ((o.stream p.1).ometa p.2).recoveryIo

/-- The scan of every stream returns. -/
def Recoverable (o : Olayer) : Prop := ∀ i < P.nrStreams, (crashView P o i).InRing P

/-- The tags in controller memory never enclose an entry: in a stream, a BEGIN tag that
some END tag follows within a scan is followed by an END tag at once; and the END tags
of a later stream stand in the slot behind every BEGIN tag of an earlier one. -/
structure InertTags (cmb : ℕ → Ometa) : Prop where
  within : ∀ i < P.nrStreams, ∀ b < P.nrOmeta, ∀ d, 2 ≤ d → d + 2 ≤ P.nrOmeta →
    (cmb (cmbSlot P i b)).isBegin = true →
    (cmb (cmbSlot P i ((b + d) % P.nrOmeta))).isEnd = true →
      (cmb (cmbSlot P i ((b + 1) % P.nrOmeta))).isEnd = true
  across : ∀ j < P.nrStreams, ∀ i < j, ∀ b < P.nrOmeta, ∀ e < P.nrOmeta,
    (cmb (cmbSlot P i b)).isBegin = true → (cmb (cmbSlot P j e)).isEnd = true →
      e = (b + 1) % P.nrOmeta

variable {P}

theorem recoveryIo_eq {o : Olayer} (h : Recoverable P o) :
    recoveryIo P o = some ((entriesOf (planFrom P (crashView P o) none
      (List.range P.nrStreams))).flatMap fun p => ((o.stream p.1).ometa p.2).recoveryIo) := by
  rw [recoveryIo, olayerCrashRecovery_eq h, Option.map_some]

/-- Nothing is sent exactly when nothing is handed over. -/
theorem recoveryIo_eq_nil_iff {o : Olayer} (h : Recoverable P o) :
    recoveryIo P o = some [] ↔
      entriesOf (planFrom P (crashView P o) none (List.range P.nrStreams)) = [] := by
  rw [recoveryIo_eq h, Option.some.injEq, List.flatMap_eq_nil_iff]
  constructor
  · intro hnil
    by_contra hne
    obtain ⟨p, hp⟩ := List.exists_mem_of_ne_nil _ hne
    cases hnil p hp
  · intro he
    rw [he]
    exact nofun

/-! ### Inert tags replay nothing -/

theorem between_succ (host : ℕ → Ometa) (b : ℕ) : between P host b ((b + 1) % P.nrOmeta) = [] := by
  rw [between, slotsOf_self, List.filter_nil]

/-- A stream whose pairs are all closed in the slot behind their BEGIN hands over nothing. -/
theorem RingView.handed_of_adjacent {v : RingView} {q : Option ℕ}
    (h : ∀ p ∈ v.pairs P q, p.2 = (p.1 + 1) % P.nrOmeta) : v.handed P q = [] := by
  rw [RingView.handed, List.flatMap_eq_nil_iff]
  intro p hp
  rw [h p hp, between_succ]

variable {cmb : ℕ → Ometa}

/-- With inert tags every pair of the scan of stream `i` is closed at once, if the BEGIN
the scan starts with stands in an earlier stream. -/
theorem InertTags.pairs_adjacent (ht : InertTags P cmb) {o : Olayer} (hcmb : o.cmb = cmb)
    {i : ℕ} (hi : i < P.nrStreams) (hv : (crashView P o i).InRing P) {q : Option ℕ}
    (hq : ∀ b, q = some b → b < P.nrOmeta ∧ ∃ j < i, (cmb (cmbSlot P j b)).isBegin = true) :
    ∀ p ∈ (crashView P o i).pairs P q, p.2 = (p.1 + 1) % P.nrOmeta := by
  subst hcmb
  intro p hp
  have hlt : ∀ x ∈ (crashView P o i).slots P, x < P.nrOmeta :=
    fun x hx => mem_slotsOf_lt hv.head_lt hx
  obtain ⟨hE, ⟨hB, us, vs, ws, hslots, hvs⟩ | ⟨hp1, vs, ws, hslots, -⟩⟩ :=
    Bracket.mem_pairs_cases hp
  · rw [hslots] at hlt
    obtain ⟨hvs', hp2⟩ := Circular.arc_pair hv.head_lt hslots
    have hlen : us.length + vs.length + ws.length + 2 < P.nrOmeta := by
      have hd : Circular.dist P.nrOmeta (crashView P o i).head (crashView P o i).flushed
          < P.nrOmeta := Circular.dist_lt nrOmeta_pos
      have hl := congrArg List.length hslots
      rw [RingView.slots, slotsOf, Circular.length_arc] at hl
      simp only [List.length_append, List.length_cons] at hl
      omega
    rcases vs with - | ⟨v, vs⟩
    · exact hp2
    · -- the slot behind the BEGIN is not an END, so no END may follow in the scan
      have hv' : v = (p.1 + 1) % P.nrOmeta := (List.cons.inj hvs').1
      rw [List.length_cons] at hlen hp2
      have := ht.within i hi p.1 (hlt p.1 (by simp)) (vs.length + 1 + 1) (by omega) (by omega) hB
        (hp2 ▸ hE)
      rw [← hv'] at this
      exact absurd (this.symm.trans (hvs v List.mem_cons_self)) (by decide)
  · obtain ⟨hb, j, hj, hB⟩ := hq p.1 hp1
    rw [hslots] at hlt
    exact ht.across i hi j hj p.1 hb p.2 (hlt p.2 (by simp)) hB hE

/-- **Inert tags replay nothing**, by induction on the streams still to be scanned: the
BEGIN left open stands in a stream before them. -/
theorem InertTags.entriesOf_eq_nil (ht : InertTags P cmb) {o : Olayer} (hcmb : o.cmb = cmb)
    {is : List ℕ} (hlt : ∀ i ∈ is, i < P.nrStreams) (hsorted : is.Pairwise (· < ·))
    (hv : ∀ i ∈ is, (crashView P o i).InRing P) {q : Option ℕ}
    (hq : ∀ b, q = some b → b < P.nrOmeta ∧
      ∃ j, (∀ i ∈ is, j < i) ∧ (cmb (cmbSlot P j b)).isBegin = true) :
    entriesOf (planFrom P (crashView P o) q is) = [] := by
  induction is generalizing q with
  | nil => rfl
  | cons i is ih =>
      obtain ⟨hi_lt, hsorted'⟩ := List.pairwise_cons.mp hsorted
      have hi := List.mem_cons_self (a := i) (l := is)
      have hadj : (crashView P o i).handed P q = [] := by
        refine RingView.handed_of_adjacent (ht.pairs_adjacent hcmb (hlt i hi) (hv i hi) ?_)
        intro b hb
        obtain ⟨hbN, j, hj, hB⟩ := hq b hb
        exact ⟨hbN, j, hj i hi, hB⟩
      rw [entriesOf_planFrom_cons, hadj, ih (fun k hk => hlt k (List.mem_cons_of_mem _ hk))
        hsorted' (fun k hk => hv k (List.mem_cons_of_mem _ hk))]
      · rfl
      · intro b hb
        rcases Bracket.rest_eq_some hb with hb | ⟨hmem, hB⟩
        · obtain ⟨hbN, j, hj, hB⟩ := hq b hb
          exact ⟨hbN, j, fun k hk => hj k (List.mem_cons_of_mem _ hk), hB⟩
        · subst hcmb
          exact ⟨mem_slotsOf_lt (hv i hi).head_lt hmem, i, hi_lt, hB⟩

theorem InertTags.recoveryIo_eq_nil (ht : InertTags P cmb) {o : Olayer} (hcmb : o.cmb = cmb)
    (h : Recoverable P o) : recoveryIo P o = some [] :=
  (recoveryIo_eq_nil_iff h).mpr <|
    ht.entriesOf_eq_nil hcmb (fun _ hi => List.mem_range.mp hi) List.pairwise_lt_range
      (fun i hi => h i (List.mem_range.mp hi)) nofun

/-! ### Tags that are not inert -/

/-- The phase in which the scan of the streams `is` ends. -/
def restFrom (P : Params) (view : ℕ → RingView) (q : Option ℕ) (is : List ℕ) : Option ℕ :=
  is.foldl (fun q i => (view i).rest P q) q

theorem entriesOf_planFrom_append (view : ℕ → RingView) (q : Option ℕ) (is js : List ℕ) :
    entriesOf (planFrom P view q (is ++ js))
      = entriesOf (planFrom P view q is)
        ++ entriesOf (planFrom P view (restFrom P view q is) js) := by
  induction is generalizing q with
  | nil => rfl
  | cons i is ih =>
      rw [List.cons_append, entriesOf_planFrom_cons, entriesOf_planFrom_cons, ih,
        List.append_assoc]
      rfl

/-- What stream `j` hands over, after the streams before it, is in the plan. -/
theorem mem_entriesOf_range {view : ℕ → RingView} {j k : ℕ} (hj : j < P.nrStreams)
    (hk : k ∈ (view j).handed P (restFrom P view none (List.range j))) :
    (j, k) ∈ entriesOf (planFrom P view none (List.range P.nrStreams)) := by
  obtain ⟨n, hn⟩ := Nat.exists_eq_add_of_lt hj
  rw [hn, show j + n + 1 = j + (n + 1) by omega, List.range_add, List.range_succ_eq_map,
    List.map_cons, Nat.add_zero, entriesOf_planFrom_append, entriesOf_planFrom_cons]
  exact List.mem_append_right _ (List.mem_append_left _ (List.mem_map_of_mem hk))

/-- If of the streams before `m` only stream `i` has entries, it alone decides the phase. -/
theorem restFrom_range {view : ℕ → RingView} {i m : ℕ}
    (h : ∀ k < m, k ≠ i → (view k).slots P = []) :
    restFrom P view none (List.range m) = if i < m then (view i).rest P none else none := by
  induction m with
  | zero => rfl
  | succ m ih =>
      have hstep : restFrom P view none (List.range (m + 1))
          = (view m).rest P (restFrom P view none (List.range m)) := by
        rw [List.range_succ, restFrom, List.foldl_append]
        rfl
      rw [hstep, ih fun k hk => h k (by omega)]
      rcases Nat.lt_trichotomy m i with hm | rfl | hm
      · rw [if_neg (by omega), if_neg (by omega), RingView.rest, h m (by omega) (by omega)]
        rfl
      · rw [if_neg (by omega), if_pos (by omega)]
      · rw [if_pos hm, if_pos (by omega)]
        show Bracket.rest _ _ _ ((view m).slots P) = _
        rw [h m (by omega) (by omega)]
        rfl

/-- Streams with the ranges `range`, and an entry to replay in every slot. -/
def probe (cmb : ℕ → Ometa) (range : ℕ → ℕ × ℕ) : Olayer where
  stream i :=
    { head := (range i).1, tail := (range i).2, tailWatermark := (range i).2
      flushed := (range i).2, lastTxid := 0, committed := false, lastQueueFlushed := 0
      ometa := fun _ => ⟨0, 1, 0, 0#3, 0, 1⟩, jWritePtr := 0 }
  cmb := cmb
  blocksPerGroup := 1
  ipuTree _ _ := none
  registeredList := []
  io := []

theorem slots_probe (cmb : ℕ → Ometa) (range : ℕ → ℕ × ℕ) (i : ℕ) :
    (crashView P (probe cmb range) i).slots P = slotsOf P (range i).1 (range i).2 := rfl

theorem pairs_probe (cmb : ℕ → Ometa) (range : ℕ → ℕ × ℕ) (i : ℕ) (q : Option ℕ) :
    (crashView P (probe cmb range) i).pairs P q
      = Bracket.pairs (fun k => (cmb (cmbSlot P i k)).isBegin)
          (fun k => (cmb (cmbSlot P i k)).isEnd) q (slotsOf P (range i).1 (range i).2) := rfl

theorem probe_recoverable {range : ℕ → ℕ × ℕ}
    (h : ∀ i, (range i).1 < P.nrOmeta ∧ (range i).2 < P.nrOmeta) :
    Recoverable P (probe cmb range) := fun i _ => ⟨(h i).1, (h i).2⟩

/-- Every stream empty. -/
def idle : ℕ → ℕ × ℕ := fun _ => (0, 0)

theorem inRing_idle (i : ℕ) : (idle i).1 < P.nrOmeta ∧ (idle i).2 < P.nrOmeta :=
  ⟨nrOmeta_pos, nrOmeta_pos⟩

theorem inRing_update {range : ℕ → ℕ × ℕ}
    (h : ∀ i, (range i).1 < P.nrOmeta ∧ (range i).2 < P.nrOmeta) (i : ℕ) {b : ℕ}
    (hb : b < P.nrOmeta) (d : ℕ) (k : ℕ) :
    (Function.update range i (b, (b + d) % P.nrOmeta) k).1 < P.nrOmeta ∧
      (Function.update range i (b, (b + d) % P.nrOmeta) k).2 < P.nrOmeta :=
  (Function.forall_update_iff range fun _ r => r.1 < P.nrOmeta ∧ r.2 < P.nrOmeta).mpr
    ⟨⟨hb, Nat.mod_lt _ nrOmeta_pos⟩, fun k _ => h k⟩ k

/-- Empty streams replay nothing, whatever the tags. -/
theorem recoveryIo_probe_idle : recoveryIo P (probe cmb idle) = some [] := by
  rw [recoveryIo_eq_nil_iff (probe_recoverable inRing_idle), List.eq_nil_iff_forall_not_mem]
  rintro ⟨i, k⟩ hik
  obtain ⟨-, q, hk⟩ := mem_entriesOf_planFrom hik
  have hslots : (crashView P (probe cmb idle) i).slots P = [] := slotsOf_self 0
  rw [RingView.handed_of_no_end (by simp [hslots])] at hk
  cases hk

/-- A range of `d` slots. -/
theorem slotsOf_add {b d : ℕ} (hb : b < P.nrOmeta) (hd : d < P.nrOmeta) :
    slotsOf P b ((b + d) % P.nrOmeta) = Circular.arc P.nrOmeta b d := by
  have hdist := Circular.dist_mod (n := P.nrOmeta) (Nat.le_add_right b d) (by omega)
  rw [Nat.mod_eq_of_lt hb, Nat.add_sub_cancel_left] at hdist
  rw [slotsOf, hdist]

/-- A range of at least three slots is its first, its last and what is between them. -/
theorem slotsOf_ends {b c : ℕ} (hb : b < P.nrOmeta) (hc : c + 3 < P.nrOmeta) :
    slotsOf P b ((b + (c + 3)) % P.nrOmeta)
      = b :: (Circular.arc P.nrOmeta ((b + 1) % P.nrOmeta) (c + 1)
          ++ [(b + (c + 2)) % P.nrOmeta]) := by
  have harc := Circular.arc_mod_add P.nrOmeta (b + 1) (c + 1) 1
  rw [show b + 1 + (c + 1) = b + (c + 2) by omega] at harc
  rw [slotsOf_add hb hc, Circular.arc_succ]
  exact congrArg _ harc

/-- A pair that is not closed at once hands over the slot behind its BEGIN. -/
theorem RingView.mem_handed {v : RingView} {q : Option ℕ} {b e : ℕ} (hp : (b, e) ∈ v.pairs P q)
    (he : e < P.nrOmeta) (hne : e ≠ (b + 1) % P.nrOmeta)
    (hplba : (v.host ((b + 1) % P.nrOmeta)).plba ≠ 0) :
    (b + 1) % P.nrOmeta ∈ v.handed P q := by
  have hb : (b + 1) % P.nrOmeta < P.nrOmeta := Nat.mod_lt _ nrOmeta_pos
  refine List.mem_flatMap.mpr ⟨(b, e), hp, ?_⟩
  rw [between, slotsOf, Circular.dist_succ hb he hne.symm, Circular.arc_succ,
    List.filter_cons_of_pos (by simpa using hplba)]
  exact List.mem_cons_self

section Necessity

variable (hinv : ∀ o o' : Olayer, o.cmb = cmb → o'.cmb = cmb → Recoverable P o →
  Recoverable P o' → recoveryIo P o = recoveryIo P o')

include hinv

/-- A recovery that is the same for all host structures replays nothing. -/
theorem not_mem_handed_of_invariant {range : ℕ → ℕ × ℕ}
    (hr : ∀ i, (range i).1 < P.nrOmeta ∧ (range i).2 < P.nrOmeta) {j : ℕ}
    (hj : j < P.nrStreams) (k : ℕ) :
    k ∉ (crashView P (probe cmb range) j).handed P
      (restFrom P (crashView P (probe cmb range)) none (List.range j)) := by
  intro hk
  have hrec : Recoverable P (probe cmb range) := probe_recoverable hr
  have hnil : recoveryIo P (probe cmb range) = some [] :=
    (hinv _ _ rfl rfl hrec (probe_recoverable inRing_idle)).trans recoveryIo_probe_idle
  have hmem := mem_entriesOf_range hj hk
  rw [(recoveryIo_eq_nil_iff hrec).mp hnil] at hmem
  cases hmem

/-- By induction on the distance of the END tag: if it is not the first one behind the
BEGIN, a nearer one is; if it is, a range that ends behind it shows the BEGIN and it. -/
theorem within_of_invariant {i b : ℕ} (hi : i < P.nrStreams) (hb : b < P.nrOmeta) (d : ℕ)
    (hd : 2 ≤ d) (hdN : d + 2 ≤ P.nrOmeta) (hB : (cmb (cmbSlot P i b)).isBegin = true)
    (hE : (cmb (cmbSlot P i ((b + d) % P.nrOmeta))).isEnd = true) :
    (cmb (cmbSlot P i ((b + 1) % P.nrOmeta))).isEnd = true := by
  induction d using Nat.strong_induction_on with
  | _ d ih =>
      by_contra hno
      obtain ⟨c, rfl⟩ := Nat.exists_eq_add_of_le' hd
      have hinner : ∀ x ∈ Circular.arc P.nrOmeta ((b + 1) % P.nrOmeta) (c + 1),
          (cmb (cmbSlot P i x)).isEnd = false := by
        intro x hx
        rw [Circular.arc_mod] at hx
        obtain ⟨m, hm, rfl⟩ := List.mem_map.mp hx
        have hm' := List.mem_range.mp hm
        by_contra hx
        rcases Nat.eq_zero_or_pos m with rfl | hpos
        · exact hno (by simpa using hx)
        · refine hno (ih (m + 1) (by omega) (by omega) (by omega) ?_)
          rw [show b + (m + 1) = b + 1 + m by omega]
          simpa using hx
      have hr := inRing_update (inRing_idle (P := P)) i hb (c + 3)
      refine not_mem_handed_of_invariant hinv hr hi ((b + 1) % P.nrOmeta)
        (RingView.mem_handed (e := (b + (c + 2)) % P.nrOmeta) ?_ (Nat.mod_lt _ nrOmeta_pos)
          ?_ Nat.one_ne_zero)
      · have hrest : ∀ k < i, k ≠ i → (crashView P (probe cmb (Function.update idle i
            (b, (b + (c + 3)) % P.nrOmeta))) k).slots P = [] := by
          intro k _ hki
          rw [slots_probe, Function.update_of_ne hki]
          exact slotsOf_self 0
        rw [restFrom_range hrest, if_neg (Nat.lt_irrefl i), pairs_probe, Function.update_self,
          slotsOf_ends hb (by omega)]
        exact Bracket.mem_pairs_bracket hB hinner hE
      · intro heq
        have := Circular.mod_inj_of_window (h := b) (by omega) (by omega) (by omega) (by omega) heq
        omega

/-- A BEGIN in stream `i` and an END in stream `j` are shown by a range of one slot each. -/
theorem across_of_invariant {i j b e : ℕ} (hj : j < P.nrStreams) (hij : i < j)
    (hb : b < P.nrOmeta) (he : e < P.nrOmeta) (hB : (cmb (cmbSlot P i b)).isBegin = true)
    (hE : (cmb (cmbSlot P j e)).isEnd = true) : e = (b + 1) % P.nrOmeta := by
  by_contra hne
  have hN : 1 < P.nrOmeta := by
    rcases Nat.lt_or_ge 1 P.nrOmeta with h | h
    · exact h
    · have hN : P.nrOmeta = 1 := by have := nrOmeta_pos (P := P); omega
      rw [hN, Nat.mod_one] at hne
      omega
  have hr := inRing_update (inRing_update (inRing_idle (P := P)) i hb 1) j he 1
  refine not_mem_handed_of_invariant hinv hr hj ((b + 1) % P.nrOmeta)
    (RingView.mem_handed (e := e) ?_ he hne Nat.one_ne_zero)
  set range := Function.update (Function.update idle i (b, (b + 1) % P.nrOmeta)) j
    (e, (e + 1) % P.nrOmeta) with hrange
  have hsingle : ∀ x < P.nrOmeta, slotsOf P x ((x + 1) % P.nrOmeta) = [x] :=
    fun x hx => slotsOf_add hx hN
  have hrest : ∀ k < j, k ≠ i → (crashView P (probe cmb range) k).slots P = [] := by
    intro k hk hki
    rw [slots_probe, hrange, Function.update_of_ne (by omega), Function.update_of_ne hki]
    exact slotsOf_self 0
  have hopen : (crashView P (probe cmb range) i).rest P none = some b := by
    rw [RingView.rest, slots_probe, hrange, Function.update_of_ne (by omega),
      Function.update_self, hsingle b hb, Bracket.rest_cons]
    exact if_pos hB
  rw [restFrom_range hrest, if_pos hij, hopen, pairs_probe, hrange, Function.update_self,
    hsingle e he, ← List.nil_append [e]]
  exact Bracket.mem_pairs_first_closer (by simp) hE

end Necessity

/-- **Recovery depends on what a crash loses**, except when the tags in controller memory
enclose no entry: the requests are the same for all host structures whose cursors are
slots exactly then. -/
theorem recovery_volatile_iff (cmb : ℕ → Ometa) :
    (∀ o o' : Olayer, o.cmb = cmb → o'.cmb = cmb → Recoverable P o → Recoverable P o' →
      recoveryIo P o = recoveryIo P o') ↔ InertTags P cmb := by
  constructor
  · intro hinv
    refine ⟨?_, ?_⟩
    · intro i hi b hb d hd hdN hB hE
      exact within_of_invariant hinv hi hb d hd hdN hB hE
    · intro j hj i hij b hb e he hB hE
      exact across_of_invariant hinv hj hij hb he hB hE
  · intro ht o o' ho ho' hrec hrec'
    rw [ht.recoveryIo_eq_nil ho hrec, ht.recoveryIo_eq_nil ho' hrec']

/-- Controller memory after one transaction of stream 0: BEGIN, a journaled write, END. -/
def oneTx : ℕ → Ometa
  | 0 => ⟨0, 1, 0, HoraeFlag.txBegin.bit, 0, 0⟩
  | 1 => ⟨0, 1, 0, HoraeFlag.tx.bit, 0, 1⟩
  | 2 => ⟨0, 1, 0, HoraeFlag.txEnd.bit, 0, 0⟩
  | _ => Ometa.zero

/-- With the cursors of the time of the crash the transaction is replayed; with those of a
freshly loaded module, and the same controller memory, it is not. -/
theorem reloaded_cursors_lose_oneTx :
    recoveryIo Params.tiny (probe oneTx (Function.update idle 0 (0, 3)))
        = some [.read 8 1, .write 0 1] ∧
      recoveryIo Params.tiny (probe oneTx idle) = some [] ∧
      Recoverable Params.tiny (probe oneTx (Function.update idle 0 (0, 3))) ∧
      Recoverable Params.tiny (probe oneTx idle) := by
  refine ⟨by decide +kernel, recoveryIo_probe_idle, probe_recoverable ?_,
    probe_recoverable inRing_idle⟩
  exact inRing_update (P := Params.tiny) inRing_idle 0 (b := 0) (by decide) 3

/-- Controller memory after a transaction of stream 0 with nothing in it: BEGIN, END. -/
def emptyTx : ℕ → Ometa
  | 0 => ⟨0, 1, 0, HoraeFlag.txBegin.bit, 0, 0⟩
  | 1 => ⟨0, 1, 0, HoraeFlag.txEnd.bit, 0, 0⟩
  | _ => Ometa.zero

theorem emptyTx_isEnd {k : ℕ} (h : (emptyTx k).isEnd = true) : k = 1 := by
  match k with
  | 0 => exact absurd h (by decide)
  | 1 => rfl
  | k + 2 => exact absurd h (show ¬ Ometa.zero.isEnd = true by decide)

theorem emptyTx_inert : InertTags Params.tiny emptyTx := by
  constructor
  · intro i hi b hb d hd hdN hB hE
    obtain rfl : d = 2 := Nat.le_antisymm (Nat.le_of_add_le_add_right hdN) hd
    revert i b
    decide +kernel
  · intro j hj i hij b hb e he _ hE
    have hslot : j * Params.tiny.nrOmeta + e = 1 := emptyTx_isEnd hE
    have hj0 : j = 0 := by
      by_contra hne
      have hle : Params.tiny.nrOmeta ≤ j * Params.tiny.nrOmeta :=
        Nat.le_mul_of_pos_left _ (Nat.pos_of_ne_zero hne)
      have hfour : Params.tiny.nrOmeta = 4 := by decide
      omega
    exact absurd hij (by omega)

theorem recovery_volatile_iff_untagged :
    (∃ k, (emptyTx k).isBegin = true) ∧ InertTags Params.tiny emptyTx ∧
      ∀ o o' : Olayer, o.cmb = emptyTx → o'.cmb = emptyTx →
        Recoverable Params.tiny o → Recoverable Params.tiny o' →
        recoveryIo Params.tiny o = recoveryIo Params.tiny o' :=
  ⟨⟨0, by decide⟩, emptyTx_inert, (recovery_volatile_iff _).mpr emptyTx_inert⟩

end CcNvme

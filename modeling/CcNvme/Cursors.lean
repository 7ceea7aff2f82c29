/-
CcNvme/Cursors.lean

The cursor invariant of a stream that is used sequentially, and one
specification lemma per operation on it.

`Cursors P s H F T` ties the three circular cursors of `s` to absolute
counters `H ≤ F ≤ T` that are at most `nr_ometa - 1` apart.  Every operation
moves these counters in a way that is stated here once; the modules that
follow use these lemmas and never unfold the operations again.
-/
import CcNvme.Submit

namespace CcNvme

variable {P : Params}

/-- `head`, `flushed` and `tail = tail_watermark` are the slots of the absolute
counters `H ≤ F ≤ T`, less than a ring apart. -/
structure Cursors (P : Params) (s : Stream) (H F T : ℕ) : Prop where
  head_le : H ≤ F
  flushed_le : F ≤ T
  window : T < H + P.nrOmeta
  head_eq : s.head = H % P.nrOmeta
  flushed_eq : s.flushed = F % P.nrOmeta
  tail_eq : s.tail = T % P.nrOmeta
  watermark_eq : s.tailWatermark = T % P.nrOmeta

theorem nrOmeta_le : P.nrOmeta ≤ 2 ^ 63 := by
  have := P.nrOmeta_lt
  omega

/-- A slot survives the `uint` it is kept in. -/
theorem slot_uint (i : ℕ) : i % P.nrOmeta % 2 ^ 32 = i % P.nrOmeta := by
  have h1 := Nat.mod_lt i (nrOmeta_pos (P := P))
  have h2 := P.nrOmeta_lt
  exact Nat.mod_eq_of_lt (by omega)

/-- The successor slot as `stream_submit_bio_core` computes it. -/
theorem next_slot (i : ℕ) :
    (i % P.nrOmeta + 1) % 2 ^ 32 % P.nrOmeta = (i + 1) % P.nrOmeta := by
  have h1 := Nat.mod_lt i (nrOmeta_pos (P := P))
  have h2 := P.nrOmeta_lt
  have hlt : (i % P.nrOmeta + 1) % 2 ^ 32 = i % P.nrOmeta + 1 :=
    Nat.mod_eq_of_lt (by omega)
  rw [hlt, Circular.slot_succ]

namespace Cursors

variable {s : Stream} {H F T : ℕ}

theorem inRing (h : Cursors P s H F T) : s.InRing P where
  head_lt := h.head_eq ▸ Nat.mod_lt _ nrOmeta_pos
  tail_lt := h.tail_eq ▸ Nat.mod_lt _ nrOmeta_pos
  tailWatermark_lt := h.watermark_eq ▸ Nat.mod_lt _ nrOmeta_pos
  flushed_lt := h.flushed_eq ▸ Nat.mod_lt _ nrOmeta_pos

theorem dist_eq (h : Cursors P s H F T) :
    Circular.dist P.nrOmeta s.head s.tail = T - H := by
  rw [h.head_eq, h.tail_eq]
  exact Circular.dist_mod (h.head_le.trans h.flushed_le) h.window

theorem count_eq (h : Cursors P s H F T) :
    horaeCount s.head s.tail P.nrOmeta = T - H := by
  rw [horaeCount_eq h.inRing.head_lt h.inRing.tail_lt nrOmeta_le, h.dist_eq]

theorem space_eq (h : Cursors P s H F T) :
    horaeRingSpace s.head s.tail P.nrOmeta = P.nrOmeta - 1 - (T - H) := by
  rw [horaeRingSpace_eq h.inRing.head_lt h.inRing.tail_lt nrOmeta_le, h.dist_eq]

theorem tail_eq_watermark (h : Cursors P s H F T) : s.tail = s.tailWatermark :=
  h.tail_eq.trans h.watermark_eq.symm

/-- The cursors coincide exactly when the counters do. -/
theorem head_eq_flushed_iff (h : Cursors P s H F T) : s.head = s.flushed ↔ H = F := by
  rw [h.head_eq, h.flushed_eq]
  constructor
  · intro he
    exact Circular.mod_inj_of_window le_rfl (by have := nrOmeta_pos (P := P); omega)
      h.head_le (by have := h.flushed_le; have := h.window; omega) he
  · rintro rfl
    rfl

/-- The slots of `[head, flushed)`. -/
theorem mem_flushed_iff (h : Cursors P s H F T) {x : ℕ} :
    x ∈ slotsOf P s.head s.flushed ↔ ∃ i, H ≤ i ∧ i < F ∧ x = i % P.nrOmeta := by
  rw [h.head_eq, h.flushed_eq]
  exact mem_slotsOf_mod h.head_le (by have := h.flushed_le; have := h.window; omega)

/-- The slots of `[head, tail)`. -/
theorem mem_live_iff (h : Cursors P s H F T) {x : ℕ} :
    x ∈ slotsOf P s.head s.tail ↔ ∃ i, H ≤ i ∧ i < T ∧ x = i % P.nrOmeta := by
  rw [h.head_eq, h.tail_eq]
  exact mem_slotsOf_mod (h.head_le.trans h.flushed_le) h.window

theorem flushed_subset_live (h : Cursors P s H F T) :
    slotsOf P s.head s.flushed ⊆ slotsOf P s.head s.tail := by
  intro x hx
  obtain ⟨i, hi, hiF, rfl⟩ := h.mem_flushed_iff.mp hx
  exact h.mem_live_iff.mpr ⟨i, hi, hiF.trans_le h.flushed_le, rfl⟩

/-- The slot at `tail` is not live. -/
theorem tail_not_live (h : Cursors P s H F T) {i : ℕ} (hi : H ≤ i) (hiT : i < T) :
    i % P.nrOmeta ≠ T % P.nrOmeta := by
  intro he
  have := Circular.mod_inj_of_window hi (by have := h.window; omega)
    (h.head_le.trans h.flushed_le) h.window he
  omega

theorem retire (h : Cursors P s H F T) (sid : ℕ) : Cursors P (s.retire P sid) F F T where
  head_le := le_rfl
  flushed_le := h.flushed_le
  window := by have := h.window; have := h.head_le; omega
  head_eq := h.flushed_eq
  flushed_eq := h.flushed_eq
  tail_eq := h.tail_eq
  watermark_eq := h.watermark_eq

theorem retireAll (h : Cursors P s H F T) : Cursors P s.retireAll T T T where
  head_le := le_rfl
  flushed_le := le_rfl
  window := by have := nrOmeta_pos (P := P); omega
  head_eq := h.tail_eq
  flushed_eq := h.tail_eq
  tail_eq := h.tail_eq
  watermark_eq := h.watermark_eq

end Cursors

/-- A stream just initialised. -/
theorem cursors_zero {s : Stream} (h₁ : s.head = 0) (h₂ : s.flushed = 0) (h₃ : s.tail = 0)
    (h₄ : s.tailWatermark = 0) : Cursors P s 0 0 0 := by
  have := nrOmeta_pos (P := P)
  exact ⟨le_rfl, le_rfl, by omega, by simpa using h₁, by simpa using h₂, by simpa using h₃,
    by simpa using h₄⟩

/-! ### The ring-full checkpoint -/

/-- What `stream_do_checkpoint` does to the stream itself. -/
def Stream.makeRoom (P : Params) (sid : ℕ) (s : Stream) : Stream :=
  if horaeRingSpace s.head s.tail P.nrOmeta ≥ 1 then s
  else if s.head = s.flushed then s.retireAll
  else s.retire P sid

/-- The counters after `stream_do_checkpoint`. -/
def roomCounters (n H F T : ℕ) : ℕ × ℕ :=
  if T - H + 1 < n then (H, F) else if H = F then (T, T) else (F, F)

theorem roomCounters_le {n H F T : ℕ} (h₁ : H ≤ F) (h₂ : F ≤ T) :
    H ≤ (roomCounters n H F T).1 ∧ F ≤ (roomCounters n H F T).2 ∧
      (roomCounters n H F T).1 ≤ (roomCounters n H F T).2 ∧ (roomCounters n H F T).2 ≤ T := by
  unfold roomCounters
  split_ifs <;> exact ⟨by omega, by omega, by omega, by omega⟩

/-- In a ring of two or more slots, one checkpoint makes room for one entry. -/
theorem roomCounters_window {n H F T : ℕ} (hn : 2 ≤ n) (h₁ : H ≤ F) (h₂ : T < H + n) :
    T + 1 < (roomCounters n H F T).1 + n := by
  unfold roomCounters
  split_ifs with h h' <;> dsimp only <;> omega

theorem Cursors.space_ge_one_iff {s : Stream} {H F T : ℕ} (h : Cursors P s H F T) :
    horaeRingSpace s.head s.tail P.nrOmeta ≥ 1 ↔ T - H + 1 < P.nrOmeta := by
  rw [h.space_eq]
  omega

/-- A truncation that moves `head` makes room. -/
theorem Cursors.space_retire {s : Stream} {H F T : ℕ} (h : Cursors P s H F T) (sid : ℕ)
    (hhf : s.head ≠ s.flushed) :
    horaeRingSpace (s.retire P sid).head (s.retire P sid).tail P.nrOmeta ≥ 1 := by
  have hlt : H < F := lt_of_le_of_ne h.head_le fun he => hhf (h.head_eq_flushed_iff.mpr he)
  apply (h.retire sid).space_ge_one_iff.mpr
  have := h.window
  have := h.flushed_le
  omega

theorem Cursors.makeRoom {s : Stream} {H F T : ℕ} (h : Cursors P s H F T) (sid : ℕ) :
    Cursors P (s.makeRoom P sid) (roomCounters P.nrOmeta H F T).1
      (roomCounters P.nrOmeta H F T).2 T := by
  unfold Stream.makeRoom roomCounters
  simp only [h.space_ge_one_iff, h.head_eq_flushed_iff]
  split_ifs
  · exact h
  · exact h.retireAll
  · exact h.retire sid

@[simp] theorem Stream.makeRoom_ometa (sid : ℕ) (s : Stream) :
    (s.makeRoom P sid).ometa = s.ometa := by
  unfold Stream.makeRoom
  split_ifs <;> rfl

@[simp] theorem Stream.makeRoom_committed (sid : ℕ) (s : Stream) :
    (s.makeRoom P sid).committed = s.committed := by
  unfold Stream.makeRoom
  split_ifs <;> rfl

@[simp] theorem Stream.makeRoom_lastQueueFlushed (sid : ℕ) (s : Stream) :
    (s.makeRoom P sid).lastQueueFlushed = s.lastQueueFlushed := by
  unfold Stream.makeRoom
  split_ifs <;> rfl

/-- The two states agree except for what a checkpoint of stream `sid` does: the
cursors and the journal pointer of `sid`, the index, and the requests sent. -/
structure CheckpointOf (P : Params) (bc : BufferCache) (sid : ℕ) (o o' : Olayer) : Prop where
  stream : o'.stream = Function.update o.stream sid ((o.stream sid).makeRoom P sid)
  cmb : o'.cmb = o.cmb
  wroteBack : WroteBack P bc sid o o'

theorem CheckpointOf.self {bc : BufferCache} {o o' : Olayer} {sid : ℕ}
    (h : CheckpointOf P bc sid o o') : o'.stream sid = (o.stream sid).makeRoom P sid := by
  rw [h.stream, Function.update_self]

theorem checkpointOf_refl (bc : BufferCache) {o : Olayer} {sid : ℕ}
    (h : horaeRingSpace (o.stream sid).head (o.stream sid).tail P.nrOmeta ≥ 1) :
    CheckpointOf P bc sid o o := by
  refine ⟨?_, rfl, wroteBack_of_io_eq rfl⟩
  rw [Stream.makeRoom, if_pos h, Function.update_eq_self]

/-- `stream_do_checkpoint` returns, through whichever of its three exits. -/
theorem streamDoCheckpoint_spec (bc : BufferCache) {o : Olayer} {sid H F T : ℕ}
    (h : Cursors P (o.stream sid) H F T) :
    ∃ o', streamDoCheckpoint P bc o sid 1 = some o' ∧ CheckpointOf P bc sid o o' := by
  unfold streamDoCheckpoint
  by_cases hroom : horaeRingSpace (o.stream sid).head (o.stream sid).tail P.nrOmeta ≥ 1
  · exact ⟨o, if_pos hroom, checkpointOf_refl bc hroom⟩
  rw [if_neg hroom]
  by_cases hhf : (o.stream sid).head = (o.stream sid).flushed
  · -- nothing flushed: the whole ring is retired
    simp only [truncateOrderingLog, if_pos hhf, Option.map_some, if_neg hroom]
    refine ⟨_, rfl, ?_, rfl, o, Or.inl rfl, _, rfl, ?_⟩
    · rw [Stream.makeRoom, if_neg hroom, if_pos hhf]
      rfl
    · simp [Request.isBh]
  · -- the truncation alone makes room, since `head` moves by at least one slot
    obtain ⟨o₁, h₁, hsame, hwrap⟩ := journalWrap_spec bc h.inRing.head_lt h.inRing.flushed_lt
    simp only [truncateOrderingLog, if_neg hhf, hwrap, Option.map_some, Olayer.setStream_self,
      if_pos (h.space_retire sid hhf)]
    refine ⟨_, rfl, ?_, hsame.cmb, o₁, Or.inr h₁, .of_eq rfl⟩
    rw [Stream.makeRoom, if_neg hroom, if_neg hhf, Olayer.setStream, hsame.stream]

/-! ### Submitting -/

/-- With room in the ring a submit publishes at once. -/
theorem streamSubmitBioCore_of_space (bc : BufferCache) {o : Olayer} {sid H F T fuel : ℕ}
    (a : SubmitArgs) (h : Cursors P (o.stream sid) H F T) (hspace : T - H + 1 < P.nrOmeta) :
    streamSubmitBioCore P bc sid a (fuel + 1) o
      = some (publish P o sid a (T % P.nrOmeta) ((T + 1) % P.nrOmeta), T % P.nrOmeta) := by
  have hroom := h.space_ge_one_iff.mpr hspace
  rw [h.tail_eq_watermark, h.watermark_eq] at hroom
  unfold streamSubmitBioCore
  simp only [h.watermark_eq, h.tail_eq, slot_uint, next_slot, if_true]
  rw [if_neg (by omega)]

/-- With fuel for one round only a submit publishes at once or not at all. -/
theorem streamSubmitBioCore_one {bc : BufferCache} {o : Olayer} {sid H F T : ℕ}
    {a : SubmitArgs} {q : Olayer × ℕ} (h : Cursors P (o.stream sid) H F T)
    (heq : streamSubmitBioCore P bc sid a 1 o = some q) :
    T + 1 < H + P.nrOmeta ∧
      q = (publish P o sid a (T % P.nrOmeta) ((T + 1) % P.nrOmeta), T % P.nrOmeta) := by
  by_cases hspace : T - H + 1 < P.nrOmeta
  · rw [streamSubmitBioCore_of_space bc a h hspace, Option.some.injEq] at heq
    have := h.head_le.trans h.flushed_le
    exact ⟨by omega, heq.symm⟩
  · have hfull : ¬ horaeRingSpace (o.stream sid).head (o.stream sid).tail P.nrOmeta ≥ 1 :=
      fun hc => hspace (h.space_ge_one_iff.mp hc)
    rw [h.tail_eq_watermark, h.watermark_eq] at hfull
    rw [streamSubmitBioCore] at heq
    simp only [h.watermark_eq, slot_uint] at heq
    rw [if_pos (by omega), Option.bind_eq_some_iff] at heq
    obtain ⟨o₁, -, hnone⟩ := heq
    simp only [streamSubmitBioCore, reduceCtorEq] at hnone

/-- **A submit returns after at most one checkpoint**, and then publishes its
entry in the slot of the counter `T`. -/
theorem streamSubmitBioCore_spec (bc : BufferCache) {o : Olayer} {sid H F T fuel : ℕ}
    (hN : 2 ≤ P.nrOmeta) (hfuel : 2 ≤ fuel) (a : SubmitArgs)
    (h : Cursors P (o.stream sid) H F T) :
    ∃ o₁, CheckpointOf P bc sid o o₁ ∧
      streamSubmitBioCore P bc sid a fuel o
        = some (publish P o₁ sid a (T % P.nrOmeta) ((T + 1) % P.nrOmeta), T % P.nrOmeta) := by
  obtain ⟨fuel, rfl⟩ := Nat.exists_eq_add_of_le hfuel
  rw [show 2 + fuel = (fuel + 1) + 1 by omega]
  by_cases hspace : T - H + 1 < P.nrOmeta
  · exact ⟨o, checkpointOf_refl bc (h.space_ge_one_iff.mpr hspace),
      streamSubmitBioCore_of_space bc a h hspace⟩
  · have hfull : ¬ horaeRingSpace (o.stream sid).head (o.stream sid).tail P.nrOmeta ≥ 1 :=
      fun hc => hspace (h.space_ge_one_iff.mp hc)
    -- the first round finds no room, the second does
    obtain ⟨o₁, hck, hspec⟩ := streamDoCheckpoint_spec bc h
    have hcur₁ := hspec.self ▸ h.makeRoom sid
    refine ⟨o₁, hspec, ?_⟩
    rw [streamSubmitBioCore]
    simp only [h.watermark_eq, slot_uint]
    rw [h.tail_eq_watermark, h.watermark_eq] at hfull
    rw [if_pos (by omega), hck, Option.bind_some]
    refine streamSubmitBioCore_of_space bc a hcur₁ ?_
    have hw := roomCounters_window hN h.head_le h.window
    have hle := roomCounters_le (n := P.nrOmeta) h.head_le h.flushed_le
    omega

theorem publish_stream (o : Olayer) (sid : ℕ) (a : SubmitArgs) (slot next : ℕ) :
    (publish P o sid a slot next).stream sid
      = { o.stream sid with
          tailWatermark := next
          tail := next
          committed := submitCommitted (o.stream sid).committed a.flags
          ometa := Function.update (o.stream sid).ometa slot
            (fillOmeta ((o.stream sid).ometa slot) (o.stream sid).committed a) } :=
  Olayer.setStream_self _ _ _

theorem publish_stream_of_ne (o : Olayer) {sid i : ℕ} (a : SubmitArgs) (slot next : ℕ)
    (hi : i ≠ sid) : (publish P o sid a slot next).stream i = o.stream i :=
  Olayer.setStream_of_ne _ hi

/-- The cursors after an entry has been published. -/
theorem Cursors.publish {o : Olayer} {sid H F T : ℕ} (a : SubmitArgs)
    (h : Cursors P (o.stream sid) H F T) (hspace : T + 1 < H + P.nrOmeta) :
    Cursors P
      ((CcNvme.publish P o sid a (T % P.nrOmeta) ((T + 1) % P.nrOmeta)).stream sid)
      H F (T + 1) := by
  rw [publish_stream]
  exact ⟨h.head_le, h.flushed_le.trans (Nat.le_succ T), hspace, h.head_eq, h.flushed_eq, rfl, rfl⟩

/-! ### Committing and flushing -/

/-- A commit marks the slot at `tail` and raises `committed`. -/
theorem streamCommitTx_stream (o : Olayer) (sid txid : ℕ) :
    (streamCommitTx o sid txid).stream sid
      = { o.stream sid with
          ometa := Function.update (o.stream sid).ometa (o.stream sid).tail
            { (o.stream sid).ometa (o.stream sid).tail with tag := HoraeFlag.txEnd.bit }
          committed := true
          lastQueueFlushed := (o.stream sid).tail } :=
  Olayer.setStream_self _ _ _

theorem Cursors.commitTx {o : Olayer} {sid H F T : ℕ} (h : Cursors P (o.stream sid) H F T)
    (txid : ℕ) : Cursors P ((streamCommitTx o sid txid).stream sid) H F T := by
  obtain ⟨h1, h2, h3, h4, h5, h6, h7⟩ := h
  rw [streamCommitTx_stream]
  exact ⟨h1, h2, h3, h4, h5, h6, h7⟩

/-- The END bit goes to the slot at `tail`, which is not live. -/
theorem Cursors.commitTx_ometa {o : Olayer} {sid H F T : ℕ} (h : Cursors P (o.stream sid) H F T)
    (txid : ℕ) {i : ℕ} (hi : H ≤ i) (hiT : i < T) :
    ((streamCommitTx o sid txid).stream sid).ometa (i % P.nrOmeta)
      = (o.stream sid).ometa (i % P.nrOmeta) := by
  rw [streamCommitTx_stream]
  show Function.update (o.stream sid).ometa (o.stream sid).tail _ (i % P.nrOmeta) = _
  rw [h.tail_eq, Function.update_of_ne (h.tail_not_live hi hiT)]

theorem clampSid_of_lt {sid : ℕ} (h : sid < P.nrStreams) : clampSid P sid = sid :=
  if_neg (by omega)

/-- A flush with a device moves the flushed mark to `T`; when the ring is empty
the mark is there already. -/
theorem Cursors.flush {o : Olayer} {sid H F T : ℕ} (hsid : sid < P.nrStreams)
    (h : Cursors P (o.stream sid) H F T) {bdevs : List BlockDevice} (hb : bdevs.length ≠ 0) :
    Cursors P ((streamBlkdevIssueFlush P o bdevs sid).stream sid) H T T := by
  have hHF := h.head_le
  have hFT := h.flushed_le
  unfold streamBlkdevIssueFlush
  simp only [clampSid_of_lt hsid, h.count_eq]
  by_cases hcount : T - H = 0
  · have hTH : T = H := by omega
    have hF : F = H := by omega
    subst hF
    subst hTH
    rw [if_pos (Or.inr (Nat.sub_self _))]
    exact h
  · rw [if_neg (by rintro (hc | hc) <;> contradiction)]
    have hs : ∀ s io, ({ o.setStream sid s with io := io } : Olayer).stream sid = s :=
      fun s _ => Olayer.setStream_self o sid s
    rw [hs]
    refine ⟨hHF.trans hFT, le_rfl, h.window, h.head_eq, ?_, h.tail_eq, h.watermark_eq⟩
    simp only [h.tail_eq, slot_uint]

theorem flush_stream (o : Olayer) {sid : ℕ} (hsid : sid < P.nrStreams)
    (bdevs : List BlockDevice) :
    ((streamBlkdevIssueFlush P o bdevs sid).stream sid).ometa = (o.stream sid).ometa ∧
      ((streamBlkdevIssueFlush P o bdevs sid).stream sid).committed
        = (o.stream sid).committed ∧
      ((streamBlkdevIssueFlush P o bdevs sid).stream sid).jWritePtr
        = (o.stream sid).jWritePtr := by
  unfold streamBlkdevIssueFlush
  simp only [clampSid_of_lt hsid]
  split_ifs
  · exact ⟨rfl, rfl, rfl⟩
  · have hs : ∀ s io, ({ o.setStream sid s with io := io } : Olayer).stream sid = s :=
      fun s _ => Olayer.setStream_self o sid s
    rw [hs]
    exact ⟨rfl, rfl, rfl⟩

/-- What a flush of stream `sid` leaves alone. -/
structure FlushOf (sid : ℕ) (o o' : Olayer) : Prop where
  others : ∀ i ≠ sid, o'.stream i = o.stream i
  cmb : o'.cmb = o.cmb
  ipuTree : o'.ipuTree = o.ipuTree
  blocksPerGroup : o'.blocksPerGroup = o.blocksPerGroup
  quiet : SendsNoBuffer o o'

theorem flushOf (o : Olayer) {sid : ℕ} (hsid : sid < P.nrStreams) (bdevs : List BlockDevice) :
    FlushOf sid o (streamBlkdevIssueFlush P o bdevs sid) := by
  unfold streamBlkdevIssueFlush
  simp only [clampSid_of_lt hsid]
  split_ifs
  · exact ⟨fun _ _ => rfl, rfl, rfl, rfl, .of_eq rfl⟩
  · exact ⟨fun i hi => Olayer.setStream_of_ne _ hi, rfl, rfl, rfl, _, rfl, by simp [Request.isBh]⟩

/-- A flush leaves `head` and `tail` alone. -/
theorem Cursors.flush_any {o : Olayer} {sid H F T : ℕ} (hsid : sid < P.nrStreams)
    (h : Cursors P (o.stream sid) H F T) (bdevs : List BlockDevice) :
    ∃ F', Cursors P ((streamBlkdevIssueFlush P o bdevs sid).stream sid) H F' T := by
  by_cases hb : bdevs.length = 0
  · refine ⟨F, ?_⟩
    rw [streamBlkdevIssueFlush, if_pos (Or.inl hb)]
    exact h
  · exact ⟨T, h.flush hsid hb⟩

/-! ### Allocating journal blocks -/

/-- The request for `nr` blocks would wrap the partition. -/
def needsWrap (P : Params) (sid nr : ℕ) (s : Stream) : Bool :=
  nr ≤ P.nrJournalBlock ∧ (P.offInJournal sid + P.nrJournalBlock) % 2 ^ 32 < nr + s.jWritePtr

/-- The wrap of the partition, taken when `nr` more blocks do not fit. -/
def Stream.allocRoom (P : Params) (sid nr : ℕ) (s : Stream) : Stream :=
  if nr + s.jWritePtr > (P.offInJournal sid + P.nrJournalBlock) % 2 ^ 32 then s.retire P sid
  else s

/-- What either allocator does to the stream itself; a request larger than the
partition changes nothing. -/
def Stream.alloc (P : Params) (sid nr : ℕ) (s : Stream) : Stream :=
  if nr > P.nrJournalBlock then s
  else { s.allocRoom P sid nr with jWritePtr := (s.allocRoom P sid nr).jWritePtr + nr }

/-- The address either allocator returns. -/
def Stream.allocAddr (P : Params) (sid nr : ℕ) (s : Stream) : ℕ :=
  if nr > P.nrJournalBlock then 2 ^ 32 - 1 else (s.allocRoom P sid nr).jWritePtr % 2 ^ 32

@[simp] theorem Stream.alloc_ometa (sid nr : ℕ) (s : Stream) :
    (s.alloc P sid nr).ometa = s.ometa := by
  unfold Stream.alloc Stream.allocRoom
  split_ifs <;> rfl

@[simp] theorem Stream.alloc_committed (sid nr : ℕ) (s : Stream) :
    (s.alloc P sid nr).committed = s.committed := by
  unfold Stream.alloc Stream.allocRoom
  split_ifs <;> rfl

@[simp] theorem Stream.alloc_lastTxid (sid nr : ℕ) (s : Stream) :
    (s.alloc P sid nr).lastTxid = s.lastTxid := by
  unfold Stream.alloc Stream.allocRoom
  split_ifs <;> rfl

/-- The blocks taken by an accepted allocation end inside the partition, wherever the
pointer was. -/
theorem Stream.allocRoom_add_le (s : Stream) {sid nr : ℕ} (hsid : sid < P.nrStreams)
    (hnr : nr ≤ P.nrJournalBlock) :
    (s.allocRoom P sid nr).jWritePtr + nr ≤ P.offInJournal sid + P.nrJournalBlock := by
  have hlt := P.offInJournal_add_lt hsid
  unfold Stream.allocRoom
  rw [Nat.mod_eq_of_lt hlt]
  split_ifs with hwrap
  · exact Nat.add_le_add_left hnr _
  · omega

theorem Stream.InRing.alloc {s : Stream} (h : s.InRing P) (sid nr : ℕ) :
    (s.alloc P sid nr).InRing P := by
  unfold Stream.alloc Stream.allocRoom
  split_ifs
  · exact h
  · exact ⟨h.flushed_lt, h.tail_lt, h.tailWatermark_lt, h.flushed_lt⟩
  · exact ⟨h.head_lt, h.tail_lt, h.tailWatermark_lt, h.flushed_lt⟩

/-- An allocation moves `head` at most up to `flushed`. -/
theorem Cursors.alloc {s : Stream} {H F T : ℕ} (h : Cursors P s H F T) (sid nr : ℕ) :
    ∃ H', H ≤ H' ∧ Cursors P (s.alloc P sid nr) H' F T := by
  unfold Stream.alloc Stream.allocRoom
  split_ifs
  · exact ⟨H, le_rfl, h⟩
  · obtain ⟨h1, h2, h3, h4, h5, h6, h7⟩ := h.retire sid
    exact ⟨F, h.head_le, h1, h2, h3, h4, h5, h6, h7⟩
  · exact ⟨H, le_rfl, h.head_le, h.flushed_le, h.window, h.head_eq, h.flushed_eq, h.tail_eq,
      h.watermark_eq⟩

/-- The two states agree except for what an allocation of `nr` blocks does: the
stream `sid`, the index, and the requests sent. -/
structure AllocOf (P : Params) (bc : BufferCache) (sid nr : ℕ) (o o' : Olayer) : Prop where
  stream : o'.stream = Function.update o.stream sid ((o.stream sid).alloc P sid nr)
  cmb : o'.cmb = o.cmb
  wroteBack : WroteBack P bc sid o o'

theorem AllocOf.self {bc : BufferCache} {o o' : Olayer} {sid nr : ℕ}
    (h : AllocOf P bc sid nr o o') : o'.stream sid = (o.stream sid).alloc P sid nr := by
  rw [h.stream, Function.update_self]

theorem allocSpace_spec (bc : BufferCache) {o : Olayer} {sid nr : ℕ}
    (hh : (o.stream sid).head < P.nrOmeta) (hf : (o.stream sid).flushed < P.nrOmeta)
    (hnr : ¬ nr > P.nrJournalBlock) :
    ∃ o', allocSpace P bc o sid nr = some (o', ((o.stream sid).allocRoom P sid nr).jWritePtr) ∧
      AllocOf P bc sid nr o o' := by
  unfold allocSpace
  by_cases hwrap : nr + (o.stream sid).jWritePtr
      > (P.offInJournal sid + P.nrJournalBlock) % 2 ^ 32
  · obtain ⟨o₁, h₁, hsame, hj⟩ := journalWrap_spec bc hh hf
    have hroom : (o.stream sid).allocRoom P sid nr = (o.stream sid).retire P sid := by
      rw [Stream.allocRoom, if_pos hwrap]
    simp only [if_pos hwrap, hj, Option.map_some, Olayer.setStream_self, hroom]
    refine ⟨_, rfl, ?_, hsame.cmb, o₁, Or.inr h₁, .of_eq rfl⟩
    rw [Stream.alloc, if_neg hnr, hroom]
    simp only [Olayer.setStream, hsame.stream, Function.update_idem]
  · have hroom : (o.stream sid).allocRoom P sid nr = o.stream sid := by
      rw [Stream.allocRoom, if_neg hwrap]
    simp only [if_neg hwrap, Option.map_some, hroom]
    refine ⟨_, rfl, ?_, rfl, wroteBack_of_io_eq rfl⟩
    rw [Stream.alloc, if_neg hnr, hroom]
    rfl

theorem allocOf_refused (bc : BufferCache) {o : Olayer} {sid nr : ℕ}
    (hnr : nr > P.nrJournalBlock) : AllocOf P bc sid nr o o := by
  refine ⟨?_, rfl, wroteBack_of_io_eq rfl⟩
  rw [Stream.alloc, if_pos hnr, Function.update_eq_self]

theorem allocJournalBlock_spec (bc : BufferCache) {o : Olayer} {sid : ℕ} (b : Bio) (nr : ℕ)
    (hh : (o.stream sid).head < P.nrOmeta) (hf : (o.stream sid).flushed < P.nrOmeta) :
    ∃ o' b', allocJournalBlock P bc o sid b nr
        = some (o', b', (o.stream sid).allocAddr P sid nr) ∧ AllocOf P bc sid nr o o' := by
  unfold allocJournalBlock Stream.allocAddr
  by_cases hnr : nr > P.nrJournalBlock
  · rw [if_pos hnr, if_pos hnr]
    exact ⟨o, b, rfl, allocOf_refused bc hnr⟩
  · obtain ⟨o', h', hof⟩ := allocSpace_spec bc hh hf hnr
    rw [if_neg hnr, if_neg hnr, h', Option.map_some]
    exact ⟨o', _, rfl, hof⟩

theorem journalWriteAlloc_spec (bc : BufferCache) {o : Olayer} {sid : ℕ} (b : Bio)
    (hh : (o.stream sid).head < P.nrOmeta) (hf : (o.stream sid).flushed < P.nrOmeta) :
    ∃ o' b', journalWriteAlloc P bc o sid b
        = some (o', b', (o.stream sid).allocAddr P sid (horaeGetSecs b)) ∧
      AllocOf P bc sid (horaeGetSecs b) o o' := by
  unfold journalWriteAlloc Stream.allocAddr
  by_cases hnr : horaeGetSecs b > P.nrJournalBlock
  · simp only [if_pos hnr]
    exact ⟨o, b, rfl, allocOf_refused bc hnr⟩
  · obtain ⟨o', h', hof⟩ := allocSpace_spec bc hh hf hnr
    simp only [if_neg hnr, h', Option.map_some]
    have hidx := sameQueues_indexBlocks (P := P) (o'.stream sid).lastTxid (horaeGetSecs b)
      (horaeGetLba b) ((o.stream sid).allocRoom P sid (horaeGetSecs b)).jWritePtr o'
    obtain ⟨o₁, h₁, hquiet⟩ := hof.wroteBack
    exact ⟨_, _, rfl, hidx.stream.trans hof.stream, hidx.cmb.trans hof.cmb, o₁, h₁,
      hquiet.trans (.of_eq (io_indexBlocks ..))⟩

/-- **A journaled write**: an allocation, then a submit of the old target with the
journal address. -/
theorem streamSubmitBioIpu_spec (bc : BufferCache) {o : Olayer} {sid H F T fuel : ℕ}
    (hN : 2 ≤ P.nrOmeta) (hfuel : 2 ≤ fuel) (hsid : sid < P.nrStreams) {b : Bio}
    (hpath : horaePath b.opf = true) (h : Cursors P (o.stream sid) H F T) :
    ∃ o₁ o₂ b', AllocOf P bc sid (horaeGetSecs b) o o₁ ∧ CheckpointOf P bc sid o₁ o₂ ∧
      streamSubmitBioIpu P bc fuel o b sid true
        = some (submitBio (publish P o₂ sid
            ⟨horaeGetLba b, horaeGetSecs b, b.dev.diskMinor,
              (o.stream sid).allocAddr P sid (horaeGetSecs b), txFlag b.opf⟩
            (T % P.nrOmeta) ((T + 1) % P.nrOmeta)) b') := by
  obtain ⟨o₁, b', halloc, hof⟩ := journalWriteAlloc_spec bc { b with opf := ipuOpf b.opf }
    h.inRing.head_lt h.inRing.flushed_lt
  have hs₁ : o₁.stream sid = (o.stream sid).alloc P sid (horaeGetSecs b) := hof.self
  obtain ⟨H', -, hcur₁⟩ := h.alloc sid (horaeGetSecs b)
  rw [← hs₁] at hcur₁
  obtain ⟨o₂, hck, hcore⟩ := streamSubmitBioCore_spec bc hN hfuel
    ⟨horaeGetLba b, horaeGetSecs b, b.dev.diskMinor,
      (o.stream sid).allocAddr P sid (horaeGetSecs b), txFlag b.opf⟩ hcur₁
  refine ⟨o₁, o₂, b', hof, hck, ?_⟩
  have hsecs : horaeGetSecs { b with opf := ipuOpf b.opf } = horaeGetSecs b := rfl
  rw [hsecs] at halloc
  unfold streamSubmitBioIpu
  simp only [clampSid_of_lt hsid, hpath, Bool.not_true, Bool.false_eq_true, if_false, Bool.or_true,
    if_true, halloc, Option.bind_some, Nat.not_lt_zero, hcore, Option.map_some]

end CcNvme

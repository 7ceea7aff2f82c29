/-
CcNvme/CmbRanges.lean

Circular ranges of controller memory.  A stream owns the `ometa_size` bytes at
`off_in_cmb`, and three functions of `ccnvme/cmb.c` take a range of them that may go
round the end.  `copy_from_buff_to_dev` cuts it where the region of the stream ends.
`copy_from_dev_to_buff` and `cmb_flush` cut it `dev_size` bytes behind the start of the
region, where the whole controller memory would end if the region were its first; and the
former puts the second part over the first.

So a range that goes round is written correctly, but neither flushed nor read back:
`commit_flush_covers_iff` and `cmb_round_trip_iff` say for which ranges the two work.
-/
import CcNvme.ControllerMemory
import CcNvme.Lib.Bump

namespace CcNvme

open Bytes (Mem)
open Bump (Extent)

variable (P : Params)

/-! ### The functions -/

/-- `dev_left`, a `u32`; `dev_size` is `olog_size`. -/
def Params.devLeft (dataOff : ℕ) : ℕ := subU64 P.ologSize dataOff % 2 ^ 32

/-- The ranges of controller memory that `cmb_flush` passes to `clflush_` and
`copy_from_dev_to_buff` to `memcpy_fromio`, as offsets from `dev_addr`. -/
def devRanges (sid dataOff dataLen : ℕ) : List Extent :=
  let devLeft := P.devLeft dataOff
  if devLeft < dataLen then
    [⟨P.offInCmb sid + dataOff, devLeft⟩, ⟨P.offInCmb sid, dataLen - devLeft⟩]
  else [⟨P.offInCmb sid + dataOff, dataLen⟩]

/-- `copy_from_dev_to_buff`; both parts go to the start of the buffer. -/
def copyFromDevToBuff (dev buff : Mem) (sid dataOff dataLen : ℕ) : Mem :=
  (devRanges P sid dataOff dataLen).foldl
    (fun buff r => Bytes.copy buff 0 dev r.start r.length) buff

/-- The ranges `cmb_flush` passes to `clflush_`. -/
def cmbFlush (sid dataOff dataLen : ℕ) : List Extent := devRanges P sid dataOff dataLen

/-- `cmb_write`, of the data at offset `dataOff` of the ring. -/
def cmbWrite (dev ring : Mem) (sid dataOff dataLen : ℕ) : Mem :=
  copyFromBuffToDev P dev ring sid dataOff dataLen

/-- `cmb_read` -/
def cmbRead (dev buff : Mem) (sid dataOff dataLen : ℕ) : Mem :=
  copyFromDevToBuff P dev buff sid dataOff dataLen

/-- The ranges that `stream_tx_commit_core` has flushed for the queue entries. -/
def commitFlush (sid : ℕ) (s : Stream) : List Extent :=
  let nrQEntries := horaeCount s.lastQueueFlushed s.tail P.nrOmeta % 2 ^ 32
  cmbFlush P sid (s.lastQueueFlushed * 64 % 2 ^ 32) (64 * nrQEntries % 2 ^ 32)

/-! ### The properties -/

/-- No byte outside the region of the stream is accessed. -/
def InRegion (sid : ℕ) (ranges : List Extent) : Prop :=
  ∀ r ∈ ranges, ∀ a, r.Covers a → P.offInCmb sid ≤ a ∧ a < P.offInCmb sid + P.ometaSize

/-- Every byte of the slots from `last_queue_flushed` to `tail` is flushed, and no other
stream's. -/
structure CoversArc (sid : ℕ) (s : Stream) (ranges : List Extent) : Prop where
  covers : ∀ k ∈ slotsOf P s.lastQueueFlushed s.tail, ∀ j < 64,
    ∃ r ∈ ranges, r.Covers (P.offInCmb sid + 64 * k + j)
  inside : InRegion P sid ranges

/-- The byte of the region at distance `j` from `off`, going round. -/
def circularAddr (sid off j : ℕ) : ℕ := P.offInCmb sid + (off + j) % P.ometaSize

/-- After the bytes of the ring at `(off, len)` have been written, the same range is read
back as they were; nothing else is changed, and nothing outside the region is read. -/
structure CmbRoundTrip (sid off len : ℕ) (ring dev buff : Mem) : Prop where
  back : ∀ j < len, cmbRead P (cmbWrite P dev ring sid off len) buff sid off len j
    = ring ((off + j) % P.ometaSize)
  frame : ∀ a, (∀ j < len, a ≠ circularAddr P sid off j) →
    cmbWrite P dev ring sid off len a = dev a
  inside : InRegion P sid (devRanges P sid off len)

/-! ### Sizes -/

variable {P} {sid off len : ℕ}

theorem ometaSize_pos : 0 < P.ometaSize := Nat.mul_pos nrOmeta_pos (by decide)

/-- The regions of all streams fit controller memory. -/
theorem nrStreams_mul_ometaSize_le : P.nrStreams * P.ometaSize ≤ P.ologSize := by
  have hn : P.nrStreams * P.nrOmeta ≤ P.ologSize / 64 := Nat.mul_div_le _ _
  have h64 : P.ologSize / 64 * 64 ≤ P.ologSize := Nat.div_mul_le_self _ _
  calc P.nrStreams * P.ometaSize = P.nrStreams * P.nrOmeta * 64 := (Nat.mul_assoc ..).symm
    _ ≤ P.ologSize / 64 * 64 := Nat.mul_le_mul_right _ hn
    _ ≤ P.ologSize := h64

theorem ometaSize_le : P.ometaSize ≤ P.ologSize :=
  (Nat.le_mul_of_pos_left _ P.nrStreams_pos).trans nrStreams_mul_ometaSize_le

/-- The region of a stream is all of controller memory only if there is no other stream
and no rest behind the last entry. -/
theorem ometaSize_eq_iff : P.ometaSize = P.ologSize ↔ P.nrStreams = 1 ∧ P.ologSize % 64 = 0 := by
  constructor
  · intro h
    have hle := nrStreams_mul_ometaSize_le (P := P)
    have hpos := ometaSize_pos (P := P)
    have hone : P.nrStreams * P.ometaSize ≤ 1 * P.ometaSize := by omega
    have hstreams := Nat.le_of_mul_le_mul_right hone hpos
    have := P.nrStreams_pos
    unfold Params.ometaSize at h
    omega
  · rintro ⟨hone, hrest⟩
    unfold Params.ometaSize Params.nrOmeta
    rw [hone, Nat.div_one]
    omega

/-! ### The ranges -/

theorem devLeft_eq (hoff : off ≤ P.ologSize) : P.devLeft off = P.ologSize - off := by
  have := P.ologSize_lt
  unfold Params.devLeft
  rw [subU64_eq hoff (by omega), Nat.mod_eq_of_lt (by omega)]

/-- A range that ends before `dev_size` is not cut, wherever the region ends. -/
theorem devRanges_of_le (h : off + len ≤ P.ologSize) :
    devRanges P sid off len = [⟨P.offInCmb sid + off, len⟩] := by
  unfold devRanges
  simp only [devLeft_eq (P := P) (show off ≤ P.ologSize by omega)]
  exact if_neg (by omega)

theorem devRanges_of_lt (hoff : off ≤ P.ologSize) (h : P.ologSize < off + len) :
    devRanges P sid off len = [⟨P.offInCmb sid + off, P.ologSize - off⟩,
      ⟨P.offInCmb sid, len - (P.ologSize - off)⟩] := by
  unfold devRanges
  simp only [devLeft_eq hoff]
  exact if_pos (by omega)

theorem inRegion_singleton (sid off len : ℕ) :
    InRegion P sid [⟨P.offInCmb sid + off, len⟩] ↔ len = 0 ∨ off + len ≤ P.ometaSize := by
  have hregion : InRegion P sid [⟨P.offInCmb sid + off, len⟩] ↔
      ∀ a, (⟨P.offInCmb sid + off, len⟩ : Extent).Covers a →
        (⟨P.offInCmb sid, P.ometaSize⟩ : Extent).Covers a := List.forall_mem_singleton
  rw [hregion, Extent.subset_iff]
  dsimp only
  omega

theorem InRegion.left {r : Extent} {rs : List Extent} (h : InRegion P sid (r :: rs)) :
    InRegion P sid [r] :=
  fun r' hr' => h r' (List.mem_singleton.mp hr' ▸ List.mem_cons_self)

theorem InRegion.cons {r : Extent} {rs : List Extent} (h : InRegion P sid [r])
    (hs : InRegion P sid rs) : InRegion P sid (r :: rs) := by
  intro r' hr'
  rcases List.mem_cons.mp hr' with rfl | hr'
  · exact h r' (List.mem_singleton_self _)
  · exact hs r' hr'

/-- Nothing outside the region is accessed exactly when the range does not go round, or
when the region is all there is. -/
theorem inRegion_devRanges_iff (sid : ℕ) (hoff : off < P.ometaSize) (hlen : len ≤ P.ometaSize) :
    InRegion P sid (devRanges P sid off len) ↔
      off + len ≤ P.ometaSize ∨ P.ometaSize = P.ologSize := by
  have hsize := ometaSize_le (P := P)
  rcases Nat.lt_or_ge P.ologSize (off + len) with hcut | hfit
  · rw [devRanges_of_lt (by omega) hcut]
    constructor
    · intro h
      have := (inRegion_singleton ..).mp h.left
      exact Or.inr (by omega)
    · intro h
      refine .cons ((inRegion_singleton ..).mpr (by omega)) ?_
      -- the second part starts where the region does
      exact (inRegion_singleton sid 0 _).mpr (by omega)
  · rw [devRanges_of_le hfit, inRegion_singleton]
    omega

/-! ### The flush of a commit -/

/-- The slots of a range of the ring, by whether it goes round. -/
theorem mem_slotsOf_iff {a b k : ℕ} (ha : a < P.nrOmeta) (hb : b < P.nrOmeta) :
    k ∈ slotsOf P a b ↔ k < P.nrOmeta ∧ if a ≤ b then a ≤ k ∧ k < b else a ≤ k ∨ k < b := by
  rw [← Nat.mod_eq_of_lt ha, ← Nat.mod_eq_of_lt hb]
  split_ifs with hab
  · rw [Nat.mod_eq_of_lt ha, Nat.mod_eq_of_lt hb] at hab
    rw [mem_slotsOf_mod hab (by omega), Nat.mod_eq_of_lt ha, Nat.mod_eq_of_lt hb]
    constructor
    · rintro ⟨i, hi, hib, rfl⟩
      rw [Nat.mod_eq_of_lt (by omega)]
      exact ⟨by omega, hi, hib⟩
    · rintro ⟨hk, hak, hkb⟩
      exact ⟨k, hak, hkb, (Nat.mod_eq_of_lt hk).symm⟩
  · rw [Nat.mod_eq_of_lt ha, Nat.mod_eq_of_lt hb] at hab
    -- the counter behind `b` of the next round
    rw [← Nat.add_mod_right b, mem_slotsOf_mod (by omega) (by omega), Nat.mod_eq_of_lt ha,
      Nat.add_mod_right, Nat.mod_eq_of_lt hb]
    constructor
    · rintro ⟨i, hi, hib, rfl⟩
      refine ⟨Nat.mod_lt _ nrOmeta_pos, ?_⟩
      rcases Nat.lt_or_ge i P.nrOmeta with hlt | hge
      · rw [Nat.mod_eq_of_lt hlt]
        exact Or.inl hi
      · rw [Nat.mod_eq_sub_mod hge, Nat.mod_eq_of_lt (by omega)]
        exact Or.inr (by omega)
    · rintro ⟨hk, hak | hkb⟩
      · exact ⟨k, hak, by omega, (Nat.mod_eq_of_lt hk).symm⟩
      · exact ⟨k + P.nrOmeta, by omega, by omega,
          by rw [Nat.add_mod_right, Nat.mod_eq_of_lt hk]⟩

/-- None of the 32-bit variables of the commit overflows. -/
theorem commitFlush_eq {s : Stream} (hlast : s.lastQueueFlushed < P.nrOmeta)
    (htail : s.tail < P.nrOmeta) :
    commitFlush P sid s = devRanges P sid (64 * s.lastQueueFlushed)
      (64 * Circular.dist P.nrOmeta s.lastQueueFlushed s.tail) := by
  have hsize := ometaSize_lt (P := P)
  unfold Params.ometaSize at hsize
  have hlt : Circular.dist P.nrOmeta s.lastQueueFlushed s.tail < P.nrOmeta :=
    Circular.dist_lt nrOmeta_pos
  have hcount : horaeCount s.lastQueueFlushed s.tail P.nrOmeta % 2 ^ 32
      = Circular.dist P.nrOmeta s.lastQueueFlushed s.tail := by
    rw [horaeCount_eq hlast htail nrOmeta_le, Nat.mod_eq_of_lt (by omega)]
  have hoff : s.lastQueueFlushed * 64 % 2 ^ 32 = 64 * s.lastQueueFlushed := by
    rw [Nat.mod_eq_of_lt (by omega), Nat.mul_comm]
  simp only [commitFlush, cmbFlush, hcount, hoff]
  rw [Nat.mod_eq_of_lt (by omega)]

/-- The arc does not go round the end of the ring. -/
def Stream.FlushesStraight (s : Stream) : Prop := s.lastQueueFlushed ≤ s.tail ∨ s.tail = 0

/-- **The flush of a commit** covers the entries since the last one, and stays in the region
of the stream, exactly when they do not go round the end of the ring, or when the ring is
all of controller memory. -/
theorem commit_flush_covers_iff (P : Params) (sid : ℕ) (s : Stream)
    (hlast : s.lastQueueFlushed < P.nrOmeta) (htail : s.tail < P.nrOmeta) :
    CoversArc P sid s (commitFlush P sid s) ↔
      s.FlushesStraight ∨ P.nrStreams = 1 ∧ P.ologSize % 64 = 0 := by
  set l := s.lastQueueFlushed with hl
  set t := s.tail with ht
  have hdist := Circular.dist_eq hlast htail
  have hsize : P.ometaSize = 64 * P.nrOmeta := Nat.mul_comm _ _
  have hround := inRegion_devRanges_iff sid (show 64 * l < P.ometaSize by omega)
    (show 64 * Circular.dist P.nrOmeta l t ≤ P.ometaSize by split_ifs at hdist <;> omega)
  have hstraight : 64 * l + 64 * Circular.dist P.nrOmeta l t ≤ P.ometaSize ↔
      s.FlushesStraight := by
    unfold Stream.FlushesStraight
    split_ifs at hdist <;> omega
  rw [commitFlush_eq hlast htail, ← ometaSize_eq_iff, ← hstraight]
  refine ⟨fun h => hround.mp h.inside, fun h => ⟨fun k hk j hj => ?_, hround.mpr h⟩⟩
  obtain ⟨hkn, hk⟩ := (mem_slotsOf_iff hlast htail).mp hk
  rcases Nat.lt_or_ge P.ologSize (64 * l + 64 * Circular.dist P.nrOmeta l t) with hcut | hfit
  · -- cut at the end of the region: the slot is before or behind the end
    have hle := ometaSize_le (P := P)
    rw [devRanges_of_lt (by omega) hcut]
    unfold Extent.Covers
    rcases Nat.lt_or_ge k l with hkl | hkl
    · refine ⟨_, List.mem_cons_of_mem _ (List.mem_singleton_self _), by dsimp only; omega, ?_⟩
      dsimp only
      split_ifs at hdist hk <;> omega
    · exact ⟨_, List.mem_cons_self, by dsimp only; omega, by dsimp only; omega⟩
  · rw [devRanges_of_le hfit]
    refine ⟨_, List.mem_singleton_self _, ?_, ?_⟩ <;> dsimp only <;>
      split_ifs at hdist hk <;> omega

/-- A stream of the small controller with the two cursors of a commit. -/
def tinyArc (last tail : ℕ) : Stream :=
  { tinyLoaded.stream 0 with lastQueueFlushed := last, tail := tail }

theorem commit_flush_covers_iff_tinyArc :
    slotsOf Params.tiny 1 3 = [1, 2] ∧
      CoversArc Params.tiny 5 (tinyArc 1 3) (commitFlush Params.tiny 5 (tinyArc 1 3)) :=
  ⟨by decide, (commit_flush_covers_iff Params.tiny 5 (tinyArc 1 3) (by decide)
    (by decide)).mpr (Or.inl (Or.inl (by decide)))⟩

/-- The entries in slots 3 and 0 of stream 5: flushed are slot 3 and the first slot of
stream 6, and not slot 0.  For the last stream the range leaves controller memory. -/
theorem wrapped_flush_leaves_region :
    slotsOf Params.tiny 3 1 = [3, 0] ∧
    commitFlush Params.tiny 5 (tinyArc 3 1) = [⟨Params.tiny.offInCmb 5 + 192, 128⟩] ∧
    Params.tiny.offInCmb 5 + 192 + 128 = Params.tiny.offInCmb 6 + 64 ∧
    ¬ CoversArc Params.tiny 5 (tinyArc 3 1) (commitFlush Params.tiny 5 (tinyArc 3 1)) ∧
    commitFlush Params.tiny 63 (tinyArc 3 1) = [⟨Params.tiny.offInCmb 63 + 192, 128⟩] ∧
    Params.tiny.ologSize < Params.tiny.offInCmb 63 + 192 + 128 := by
  refine ⟨by decide, by decide +kernel, by decide +kernel, fun h => ?_, by decide +kernel,
    by decide +kernel⟩
  have hrange : commitFlush Params.tiny 5 (tinyArc 3 1)
      = [⟨Params.tiny.offInCmb 5 + 192, 128⟩] := by decide +kernel
  have hinside := h.inside
  rw [hrange, inRegion_singleton] at hinside
  revert hinside
  decide +kernel

/-! ### Writing and reading back -/

/-- **`cmb_write`** changes the bytes of the circular range, and no others. -/
theorem cmbWrite_apply (dev ring : Mem) (sid : ℕ) (hoff : off < P.ometaSize)
    (hlen : len ≤ P.ometaSize) (a : ℕ) :
    (∀ j < len, a = circularAddr P sid off j →
      cmbWrite P dev ring sid off len a = ring ((off + j) % P.ometaSize)) ∧
    ((∀ j < len, a ≠ circularAddr P sid off j) → cmbWrite P dev ring sid off len a = dev a) := by
  have hsize := ometaSize_lt (P := P)
  have hbuff : off % P.ometaSize % 2 ^ 32 = off := by
    rw [Nat.mod_eq_of_lt hoff, Nat.mod_eq_of_lt (by omega)]
  have hleft : (P.ometaSize - off) % 2 ^ 32 = P.ometaSize - off := Nat.mod_eq_of_lt (by omega)
  have hmod : ∀ j < len, (off + j) % P.ometaSize
      = if off + j < P.ometaSize then off + j else off + j - P.ometaSize := by
    intro j hj
    split_ifs with hin
    · exact Nat.mod_eq_of_lt hin
    · rw [Nat.mod_eq_sub_mod (by omega), Nat.mod_eq_of_lt (by omega)]
  simp only [cmbWrite, copyFromBuffToDev, circularAddr, hbuff, hleft]
  constructor
  · rintro j hj rfl
    rw [hmod j hj]
    split_ifs with hcut hin hin
    · -- the first part, which the second does not reach
      rw [Bytes.copy_outside _ _ (by omega), ← Nat.add_assoc, Bytes.copy_inside _ _ (by omega)]
    · rw [Bytes.copy_inside _ _ (by omega), Nat.zero_add]
    · rw [← Nat.add_assoc, Bytes.copy_inside _ _ hj]
    · omega
  · intro hout
    -- an address of one of the two parts would be that of some `j`
    have hfirst : ∀ j < len, off + j < P.ometaSize → a ≠ P.offInCmb sid + (off + j) := by
      intro j hj hin
      have := hout j hj
      rwa [hmod j hj, if_pos hin] at this
    have hsecond : ∀ j < len, ¬ off + j < P.ometaSize →
        a ≠ P.offInCmb sid + (off + j - P.ometaSize) := by
      intro j hj hin
      have := hout j hj
      rwa [hmod j hj, if_neg hin] at this
    have hf := hfirst (a - P.offInCmb sid - off)
    have hs := hsecond (a - P.offInCmb sid + P.ometaSize - off)
    split_ifs with hcut
    · rw [Bytes.copy_outside _ _ (by omega), Bytes.copy_outside _ _ (by omega)]
    · exact Bytes.copy_outside _ _ (by omega)

/-- **Written and read back.**  A range of the region comes back as it was written, whatever
is in the memories, exactly when it does not go round the end of the region. -/
theorem cmb_round_trip_iff (P : Params) (sid off len : ℕ) (hoff : off < P.ometaSize)
    (hlen : len ≤ P.ometaSize) :
    (∀ ring dev buff, CmbRoundTrip P sid off len ring dev buff) ↔ off + len ≤ P.ometaSize := by
  have hsize := ometaSize_le (P := P)
  constructor
  · intro h
    by_contra hround
    -- the region is all of controller memory, so the range is cut at its end
    have hall : P.ometaSize = P.ologSize :=
      ((inRegion_devRanges_iff sid hoff hlen).mp
        (h (fun _ => 0) (fun _ => 0) fun _ => 0).inside).resolve_left hround
    -- the first byte read is that at the start of the region, where the ring has its first
    let ring : Mem := fun x => if x = 0 then 1 else 0
    have hback := (h ring (fun _ => 0) fun _ => 0).back 0 (by omega)
    have hstart : cmbWrite P (fun _ => 0) ring sid off len (P.offInCmb sid) = 1 := by
      refine ((cmbWrite_apply _ ring sid hoff hlen _).1 (P.ometaSize - off) (by omega) ?_).trans ?_
      · rw [circularAddr, Nat.add_sub_cancel' hoff.le, Nat.mod_self, Nat.add_zero]
      · rw [Nat.add_sub_cancel' hoff.le, Nat.mod_self]
        rfl
    have hsecond : 0 < len - (P.ologSize - off) := by omega
    rw [cmbRead, copyFromDevToBuff, devRanges_of_lt (by omega) (by omega), List.foldl_cons,
      List.foldl_cons, List.foldl_nil, ← Nat.zero_add 0, Bytes.copy_inside _ _ hsecond,
      Nat.add_zero, hstart, Nat.add_zero, Nat.mod_eq_of_lt hoff] at hback
    have hne : ¬ off = 0 := by omega
    simp only [ring, if_neg hne] at hback
    exact absurd hback (by decide)
  · intro hfit ring dev buff
    refine ⟨fun j hj => ?_, fun a ha => (cmbWrite_apply dev ring sid hoff hlen a).2 ha,
      (inRegion_devRanges_iff sid hoff hlen).mpr (Or.inl hfit)⟩
    rw [cmbRead, copyFromDevToBuff, devRanges_of_le (by omega), List.foldl_cons, List.foldl_nil,
      ← Nat.zero_add j, Bytes.copy_inside _ _ hj, Nat.zero_add]
    refine (cmbWrite_apply dev ring sid hoff hlen _).1 j hj ?_
    rw [circularAddr, Nat.mod_eq_of_lt (by omega), Nat.add_assoc]

theorem cmb_round_trip_iff_straight :
    CmbRoundTrip Params.tiny 5 64 128 (fun x => UInt8.ofNat x) (fun _ => 0) fun _ => 0 :=
  (cmb_round_trip_iff Params.tiny 5 64 128 (by decide +kernel) (by decide +kernel)).mpr
    (by decide +kernel) _ _ _

/-- A controller with one stream of four entries. -/
def Params.single : Params :=
  { Params.tiny with
    ologSize := 256
    nrStreams := 1
    nrStreams_pos := by decide
    nrOmeta_pos := by decide
    ologSize_lt := by decide }

/-- Of 128 bytes at 192 the second half is read from the region of the next stream; and with
one stream only the second half is found where the first should be. -/
theorem wrapped_range_not_read_back :
    cmbRead Params.tiny (cmbWrite Params.tiny (fun _ => 0) (fun _ => 1) 5 192 128) (fun _ => 0)
        5 192 128 64 = 0 ∧
    devRanges Params.tiny 5 192 128 = [⟨Params.tiny.offInCmb 5 + 192, 128⟩] ∧
    Params.tiny.offInCmb 5 + 256 = Params.tiny.offInCmb 6 ∧
    cmbRead Params.single (cmbWrite Params.single (fun _ => 0)
        (fun x => UInt8.ofNat x) 0 192 128) (fun _ => 0) 0 192 128 0 = 0 ∧
    ¬ CmbRoundTrip Params.single 0 192 128 (fun x => UInt8.ofNat x) (fun _ => 0) fun _ => 0 := by
  refine ⟨by decide +kernel, by decide +kernel, by decide +kernel, by decide +kernel, fun h => ?_⟩
  have := h.back 0 (by decide)
  revert this
  decide +kernel

end CcNvme

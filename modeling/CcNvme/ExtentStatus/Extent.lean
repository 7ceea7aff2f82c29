/-
CcNvme/ExtentStatus/Extent.lean

An extent of the extent status tree (`mqfs/extents_status.h`).  `es_pblk` holds the number of the
first physical block and, in its five highest bits, the status of the extent: four bits say what
the blocks are (written, unwritten, delayed, hole; several may be set), the fifth one that the
extent was looked up since the shrinker last saw it.

`Extent.piece` is what an extent says about its blocks, without the referenced bit and without
the physical block of an extent that has none.  Two extents may be merged exactly if the second
piece continues the first (`canBeMerged_iff`), provided that the extents make sense (`Valid`): an
extent that is both written and delayed, or both written and a hole, would be merged with one
that lies elsewhere on disk.
-/
import Mathlib.Data.BitVec
import CcNvme.Lib.IntervalMap

namespace CcNvme.ExtentStatus

open IntervalMap

/-! ### The packed word -/

/-- `ES_SHIFT` -/
def esShift : ℕ := 59

/-- `ES_MASK` -/
def esMask : BitVec 64 := BitVec.allOnes 64 <<< esShift

/-- `EXTENT_STATUS_WRITTEN` -/
def statusWritten : BitVec 64 := 1

/-- `EXTENT_STATUS_UNWRITTEN` -/
def statusUnwritten : BitVec 64 := 2

/-- `EXTENT_STATUS_DELAYED` -/
def statusDelayed : BitVec 64 := 4

/-- `EXTENT_STATUS_HOLE` -/
def statusHole : BitVec 64 := 8

/-- `EXTENT_STATUS_REFERENCED` -/
def statusReferenced : BitVec 64 := 16

/-- `ES_TYPE_MASK` -/
def esTypeMask : BitVec 64 :=
  (statusWritten ||| statusUnwritten ||| statusDelayed ||| statusHole) <<< esShift

/-- `EXT_MAX_BLOCKS` -/
def extMaxBlocks : ℕ := 2 ^ 32 - 1

/-- `struct extent_status` -/
structure Extent where
  lblk : ℕ
  len : ℕ
  pblk : BitVec 64
  deriving DecidableEq, Repr

namespace Extent

variable (es : Extent)

/-- `ext4_es_end`, where its `BUG_ON` does not hit -/
def last : ℕ := es.lblk + es.len - 1

/-- The `BUG_ON` of `ext4_es_end`: `es_lblk + es_len < es_lblk`, in 32 bits -/
def wraps : Bool := decide (2 ^ 32 ≤ es.lblk + es.len)

/-- `ext4_es_status` -/
def status : BitVec 64 := es.pblk >>> esShift

/-- `ext4_es_type` -/
def type : BitVec 64 := (es.pblk &&& esTypeMask) >>> esShift

/-- `ext4_es_is_written` -/
def isWritten : Bool := es.type &&& statusWritten != 0

/-- `ext4_es_is_unwritten` -/
def isUnwritten : Bool := es.type &&& statusUnwritten != 0

/-- `ext4_es_is_delayed` -/
def isDelayed : Bool := es.type &&& statusDelayed != 0

/-- `ext4_es_is_hole` -/
def isHole : Bool := es.type &&& statusHole != 0

/-- `ext4_es_is_referenced` -/
def isReferenced : Bool := es.status &&& statusReferenced != 0

/-- `ext4_es_set_referenced` -/
def setReferenced : Extent := { es with pblk := es.pblk ||| statusReferenced <<< esShift }

/-- `ext4_es_clear_referenced` -/
def clearReferenced : Extent := { es with pblk := es.pblk &&& ~~~(statusReferenced <<< esShift) }

/-- `ext4_es_pblock` -/
def pblock : BitVec 64 := es.pblk &&& ~~~esMask

/-- `ext4_es_store_pblock` -/
def storePblock (pb : BitVec 64) : Extent :=
  { es with pblk := (pb &&& ~~~esMask) ||| (es.pblk &&& esMask) }

/-- `ext4_es_store_pblock_status` -/
def storePblockStatus (pb status : BitVec 64) : Extent :=
  { es with pblk := ((status <<< esShift) &&& esMask) ||| (pb &&& ~~~esMask) }

/-- The extent has physical blocks. -/
def mapped : Bool := es.isWritten || es.isUnwritten

end Extent

/-- `ext4_es_can_be_merged` -/
def canBeMerged (es₁ es₂ : Extent) : Bool :=
  if es₁.type ≠ es₂.type then false
  else if extMaxBlocks < es₁.len + es₂.len then false
  else if es₁.lblk + es₁.len ≠ es₂.lblk then false
  else if es₁.mapped && es₁.pblock + BitVec.ofNat 64 es₁.len == es₂.pblock then true
  else if es₁.isHole then true
  else es₁.isDelayed && !es₁.isUnwritten

/-! ### The two parts of the word -/

section Word

variable {v w : BitVec 64}

/-- The bits for what the blocks are. -/
def kindOf (w : BitVec 64) : BitVec 4 := w.extractLsb' 59 4

/-- The physical block. -/
def physOf (w : BitVec 64) : BitVec 59 := w.setWidth 59

theorem physOf_congr (h : ∀ i < 59, v.getLsbD i = w.getLsbD i) : physOf v = physOf w := by
  refine BitVec.eq_of_getLsbD_eq fun i hi => ?_
  rw [physOf, physOf, BitVec.getLsbD_setWidth, BitVec.getLsbD_setWidth, h i hi]

theorem kindOf_congr (h : ∀ i < 4, v.getLsbD (59 + i) = w.getLsbD (59 + i)) :
    kindOf v = kindOf w := by
  refine BitVec.eq_of_getLsbD_eq fun i hi => ?_
  rw [kindOf, kindOf, BitVec.getLsbD_extractLsb', BitVec.getLsbD_extractLsb', h i hi]

theorem getLsbD_esMask : ∀ i < 64, esMask.getLsbD i = decide (59 ≤ i) := by decide

theorem getLsbD_esTypeMask :
    ∀ i < 64, esTypeMask.getLsbD i = (decide (59 ≤ i) && decide (i < 63)) := by decide

theorem getLsbD_statusReferenced :
    ∀ i < 64, (statusReferenced <<< esShift).getLsbD i = decide (i = 63) := by decide

/-- The mask takes the low bits from one word and the high bits from another. -/
theorem getLsbD_masked (v w : BitVec 64) {i : ℕ} (hi : i < 64) :
    ((v &&& ~~~esMask) ||| (w &&& esMask)).getLsbD i =
      if i < 59 then v.getLsbD i else w.getLsbD i := by
  rw [BitVec.getLsbD_or, BitVec.getLsbD_and, BitVec.getLsbD_and, BitVec.getLsbD_not,
    getLsbD_esMask i hi]
  by_cases h : i < 59
  · simp only [h, hi, show ¬ 59 ≤ i by omega]
    simp
  · simp only [h, hi, show 59 ≤ i by omega]
    simp

theorem physOf_masked (v w : BitVec 64) :
    physOf ((v &&& ~~~esMask) ||| (w &&& esMask)) = physOf v :=
  physOf_congr fun i hi => by rw [getLsbD_masked v w (by omega), if_pos hi]

theorem kindOf_masked (v w : BitVec 64) :
    kindOf ((v &&& ~~~esMask) ||| (w &&& esMask)) = kindOf w :=
  kindOf_congr fun i hi => by rw [getLsbD_masked v w (by omega), if_neg (by omega)]

theorem kindOf_shiftLeft (w : BitVec 64) : kindOf (w <<< esShift) = w.setWidth 4 := by
  refine BitVec.eq_of_getLsbD_eq fun i hi => ?_
  rw [kindOf, esShift, BitVec.getLsbD_extractLsb', BitVec.getLsbD_shiftLeft,
    BitVec.getLsbD_setWidth, Nat.add_sub_cancel_left]
  simp only [hi, show 59 + i < 64 by omega, show ¬ 59 + i < 59 by omega]
  simp

/-- A sum with the whole word: what is carried into the status is masked out. -/
theorem physOf_add (v w : BitVec 64) : physOf (v + w) = physOf v + physOf w :=
  BitVec.setWidth_add v w (by decide)

end Word

namespace Extent

variable (es : Extent)

def kind : BitVec 4 := kindOf es.pblk

def phys : BitVec 59 := physOf es.pblk

theorem pblock_eq : es.pblock = es.phys.setWidth 64 := by
  refine BitVec.eq_of_getLsbD_eq fun i hi => ?_
  rw [pblock, BitVec.getLsbD_and, BitVec.getLsbD_not, getLsbD_esMask i hi, phys, physOf,
    BitVec.getLsbD_setWidth, BitVec.getLsbD_setWidth]
  simp only [hi, decide_true, Bool.true_and]
  by_cases h : i < 59
  · simp [h]
  · simp [h]
    omega

theorem type_eq : es.type = es.kind.setWidth 64 := by
  refine BitVec.eq_of_getLsbD_eq fun i hi => ?_
  rw [type, esShift, BitVec.getLsbD_ushiftRight, BitVec.getLsbD_and, BitVec.getLsbD_setWidth,
    kind, kindOf, BitVec.getLsbD_extractLsb']
  by_cases h : 59 + i < 64
  · rw [getLsbD_esTypeMask _ h]
    simp only [hi, show (59 + i < 63) = (i < 4) by simp; omega, Nat.le_add_right, decide_true,
      Bool.true_and, Bool.and_comm]
  · rw [BitVec.getLsbD_of_ge _ _ (Nat.le_of_not_lt h)]
    simp

theorem isWritten_eq : es.isWritten = es.kind.getLsbD 0 := by
  rw [isWritten, type_eq]
  generalize es.kind = k
  revert k
  decide

theorem isUnwritten_eq : es.isUnwritten = es.kind.getLsbD 1 := by
  rw [isUnwritten, type_eq]
  generalize es.kind = k
  revert k
  decide

theorem isDelayed_eq : es.isDelayed = es.kind.getLsbD 2 := by
  rw [isDelayed, type_eq]
  generalize es.kind = k
  revert k
  decide

theorem isHole_eq : es.isHole = es.kind.getLsbD 3 := by
  rw [isHole, type_eq]
  generalize es.kind = k
  revert k
  decide

@[simp] theorem kind_storePblock (pb : BitVec 64) : (es.storePblock pb).kind = es.kind :=
  kindOf_masked pb es.pblk

@[simp] theorem phys_storePblock (pb : BitVec 64) : (es.storePblock pb).phys = physOf pb :=
  physOf_masked pb es.pblk

@[simp] theorem kind_storePblockStatus (pb status : BitVec 64) :
    (es.storePblockStatus pb status).kind = status.setWidth 4 := by
  rw [kind, storePblockStatus, BitVec.or_comm, kindOf_masked, kindOf_shiftLeft]

@[simp] theorem phys_storePblockStatus (pb status : BitVec 64) :
    (es.storePblockStatus pb status).phys = physOf pb := by
  rw [phys, storePblockStatus, BitVec.or_comm, physOf_masked]

@[simp] theorem kind_setReferenced : es.setReferenced.kind = es.kind := by
  refine kindOf_congr fun i hi => ?_
  rw [setReferenced, BitVec.getLsbD_or, getLsbD_statusReferenced _ (by omega),
    decide_eq_false (by omega), Bool.or_false]

@[simp] theorem phys_setReferenced : es.setReferenced.phys = es.phys := by
  refine physOf_congr fun i hi => ?_
  rw [setReferenced, BitVec.getLsbD_or, getLsbD_statusReferenced _ (by omega),
    decide_eq_false (by omega), Bool.or_false]

@[simp] theorem kind_clearReferenced : es.clearReferenced.kind = es.kind := by
  refine kindOf_congr fun i hi => ?_
  rw [clearReferenced, BitVec.getLsbD_and, BitVec.getLsbD_not,
    getLsbD_statusReferenced _ (by omega), decide_eq_false (show ¬ 59 + i = 63 by omega),
    decide_eq_true (show 59 + i < 64 by omega), Bool.not_false, Bool.and_true, Bool.and_true]

@[simp] theorem phys_clearReferenced : es.clearReferenced.phys = es.phys := by
  refine physOf_congr fun i hi => ?_
  rw [clearReferenced, BitVec.getLsbD_and, BitVec.getLsbD_not,
    getLsbD_statusReferenced _ (by omega), decide_eq_false (show ¬ i = 63 by omega),
    decide_eq_true (show i < 64 by omega), Bool.not_false, Bool.and_true, Bool.and_true]

/-- The status that is handed on when an extent is split. -/
theorem setWidth_status : es.status.setWidth 4 = es.kind := by
  refine BitVec.eq_of_getLsbD_eq fun i hi => ?_
  rw [BitVec.getLsbD_setWidth, status, esShift, BitVec.getLsbD_ushiftRight, kind, kindOf,
    BitVec.getLsbD_extractLsb']

end Extent

/-! ### What an extent says about its blocks -/

/-- What is known about a block. -/
structure Value where
  kind : BitVec 4
  block : Option (BitVec 59)
  deriving DecidableEq, Repr

/-- The next logical block is at the next physical block. -/
instance instAddActionValue : AddAction ℕ Value where
  vadd n v := ⟨v.kind, v.block.map (· + BitVec.ofNat 59 n)⟩
  zero_vadd v := by
    obtain ⟨k, b⟩ := v
    show (⟨k, b.map (· + 0#59)⟩ : Value) = ⟨k, b⟩
    simp
  add_vadd m n v := by
    obtain ⟨k, b⟩ := v
    show (⟨k, b.map (· + BitVec.ofNat 59 (m + n))⟩ : Value) =
      ⟨k, (b.map (· + BitVec.ofNat 59 n)).map (· + BitVec.ofNat 59 m)⟩
    rw [Option.map_map]
    congr 2
    funext x
    rw [Function.comp_apply, BitVec.ofNat_add, BitVec.add_assoc,
      BitVec.add_comm (BitVec.ofNat 59 m)]

@[simp] theorem vadd_value (n : ℕ) (v : Value) :
    n +ᵥ v = ⟨v.kind, v.block.map (· + BitVec.ofNat 59 n)⟩ := rfl

/-- Written or unwritten. -/
def kindMapped (k : BitVec 4) : Bool := k.getLsbD 0 || k.getLsbD 1

/-- The blocks are something; a hole has no physical blocks, and delayed blocks have some only
if they are unwritten. -/
def kindSound (k : BitVec 4) : Bool :=
  k != 0 && (!kindMapped k || (!k.getLsbD 3 && (!k.getLsbD 2 || k.getLsbD 1)))

namespace Extent

def value (es : Extent) : Value := ⟨es.kind, if kindMapped es.kind then some es.phys else none⟩

def piece (es : Extent) : Piece Value := ⟨es.lblk, es.len, es.value⟩

@[simp] theorem piece_lo (es : Extent) : es.piece.lo = es.lblk := rfl

@[simp] theorem piece_len (es : Extent) : es.piece.len = es.len := rfl

@[simp] theorem piece_val (es : Extent) : es.piece.val = es.value := rfl

theorem piece_hi (es : Extent) : es.piece.hi = es.lblk + es.len := rfl

theorem mapped_eq (es : Extent) : es.mapped = kindMapped es.kind := by
  rw [mapped, isWritten_eq, isUnwritten_eq, kindMapped]

@[simp] theorem value_setReferenced (es : Extent) : es.setReferenced.value = es.value := by
  rw [value, value, kind_setReferenced, phys_setReferenced]

@[simp] theorem value_clearReferenced (es : Extent) : es.clearReferenced.value = es.value := by
  rw [value, value, kind_clearReferenced, phys_clearReferenced]

theorem type_eq_type_iff {es₁ es₂ : Extent} : es₁.type = es₂.type ↔ es₁.kind = es₂.kind := by
  rw [type_eq, type_eq]
  generalize es₁.kind = k₁
  generalize es₂.kind = k₂
  revert k₁ k₂
  decide

end Extent

/-- The extent makes sense: it is not empty, its last block is a block number, and so are its
physical blocks. -/
structure Valid (p : Piece Value) : Prop where
  pos : 0 < p.len
  range : p.hi ≤ extMaxBlocks
  phys : ∀ x, p.val.block = some x → x.toNat + p.len < 2 ^ 59
  sound : kindSound p.val.kind = true

/-- Contiguous blocks, compared as words of 64 bits. -/
theorem pblock_add_eq_iff {es₁ es₂ : Extent} (h : es₁.phys.toNat + es₁.len < 2 ^ 59) :
    es₁.pblock + BitVec.ofNat 64 es₁.len = es₂.pblock ↔
      es₂.phys = es₁.phys + BitVec.ofNat 59 es₁.len := by
  have h₁ := es₁.phys.isLt
  have h₂ := es₂.phys.isLt
  rw [Extent.pblock_eq, Extent.pblock_eq, ← BitVec.toNat_inj, ← BitVec.toNat_inj,
    BitVec.toNat_add, BitVec.toNat_add, BitVec.toNat_setWidth, BitVec.toNat_setWidth,
    BitVec.toNat_ofNat, BitVec.toNat_ofNat]
  omega

/-- Of a mapped kind, extents are merged by their physical blocks only; of the others, always. -/
theorem kindSound_cases : ∀ k : BitVec 4, kindSound k = true →
    (kindMapped k = true ∧ k.getLsbD 3 = false ∧ (k.getLsbD 2 && !k.getLsbD 1) = false) ∨
      (kindMapped k = false ∧ (k.getLsbD 3 = true ∨ (k.getLsbD 2 && !k.getLsbD 1) = true)) := by
  decide

/-- **Two extents may be merged if the second one continues the first.** -/
theorem canBeMerged_iff {es₁ es₂ : Extent} (h₁ : Valid es₁.piece) (h₂ : Valid es₂.piece) :
    canBeMerged es₁ es₂ = true ↔ es₁.piece.Joins es₂.piece := by
  have hjoins : es₁.piece.Joins es₂.piece ↔
      es₁.lblk + es₁.len = es₂.lblk ∧ es₂.value = es₁.len +ᵥ es₁.value := Iff.rfl
  rw [hjoins, canBeMerged]
  by_cases hkind : es₁.kind = es₂.kind
  · by_cases hadj : es₁.lblk + es₁.len = es₂.lblk
    · have hsum : ¬ extMaxBlocks < es₁.len + es₂.len := by
        have := h₂.range
        rw [Extent.piece_hi] at this
        omega
      rw [if_neg (by rw [not_not]; exact Extent.type_eq_type_iff.mpr hkind), if_neg hsum,
        if_neg (by rw [not_not]; exact hadj), Extent.mapped_eq, Extent.isHole_eq,
        Extent.isDelayed_eq, Extent.isUnwritten_eq]
      rcases kindSound_cases es₁.kind h₁.sound with ⟨hm, hh, hd⟩ | ⟨hm, hh⟩
      · simp only [hm, hh, hd, Bool.true_and, Extent.value, ← hkind, if_true, vadd_value,
          Option.map_some, Value.mk.injEq, Option.some.injEq, true_and, hadj]
        rw [← pblock_add_eq_iff (h₁.phys _ (if_pos hm))]
        simp
      · simp only [hm, Bool.false_and, Extent.value, ← hkind, vadd_value, hadj]
        rcases hh with hh | hh
        · rw [hh]
          simp
        · rw [hh]
          cases es₁.kind.getLsbD 3 <;> simp
    · rw [if_neg (by rw [not_not]; exact Extent.type_eq_type_iff.mpr hkind)]
      simp [hadj]
  · have hne : es₁.type ≠ es₂.type := fun h => hkind (Extent.type_eq_type_iff.mp h)
    rw [if_pos hne]
    refine iff_of_false (by simp) fun h => hkind ?_
    exact (congrArg Value.kind h.2).symm

-- Written and delayed: merged although the second extent lies elsewhere on disk.
example : canBeMerged (Extent.storePblockStatus ⟨0, 4, 0⟩ 100 5)
    (Extent.storePblockStatus ⟨4, 4, 0⟩ 500 5) = true := by
  decide

theorem Valid.glue {p q : Piece Value} (hp : Valid p) (hq : Valid q) (hj : p.Joins q) :
    Valid (p.glue q) where
  pos := Nat.add_pos_left hp.pos q.len
  range := by
    rw [hj.glue_hi]
    exact hq.range
  phys x hx := by
    have hx : p.val.block = some x := hx
    have hbound := hp.phys x hx
    have hq' := hq.phys (x + BitVec.ofNat 59 p.len) (by rw [hj.2, vadd_value, hx]; rfl)
    rw [BitVec.toNat_add, BitVec.toNat_ofNat] at hq'
    show x.toNat + (p.len + q.len) < 2 ^ 59
    omega
  sound := hp.sound

theorem Valid.push {p : Piece Value} {l : List (Piece Value)} (hp : Valid p)
    (hl : ∀ q ∈ l, Valid q) : ∀ q ∈ push p l, Valid q := by
  cases l with
  | nil => simpa [IntervalMap.push] using hp
  | cons q l =>
      have hq := hl q List.mem_cons_self
      rw [IntervalMap.push]
      split_ifs with hj
      · simp only [List.mem_cons, forall_eq_or_imp]
        exact ⟨hp.glue hq hj, fun r hr => hl r (List.mem_cons_of_mem q hr)⟩
      · simp only [List.mem_cons, forall_eq_or_imp]
        exact ⟨hp, hq, fun r hr => hl r (List.mem_cons_of_mem q hr)⟩

/-- Insertion keeps the extents valid. -/
theorem Valid.insert {p : Piece Value} {l : List (Piece Value)} (hp : Valid p)
    (hl : ∀ q ∈ l, Valid q) : ∀ q ∈ IntervalMap.insert p l, Valid q := by
  induction l with
  | nil => simpa [IntervalMap.insert] using hp
  | cons q l ih =>
      have hq := hl q List.mem_cons_self
      have hl' : ∀ r ∈ l, Valid r := fun r hr => hl r (List.mem_cons_of_mem q hr)
      rw [IntervalMap.insert]
      split_ifs with hlt hj
      · exact hp.push hl
      · exact (hq.glue hp hj).push hl'
      · simp only [List.mem_cons, forall_eq_or_imp]
        exact ⟨hq, ih hl'⟩

/-- Removal keeps the extents valid. -/
theorem Valid.cut {p : Piece Value} (hp : Valid p) {lo hi : ℕ} :
    ∀ q ∈ cut lo hi p, Valid q := by
  intro q hq
  obtain ⟨hpos, -, hhi, -⟩ := mem_cut hp.pos hq
  have hrange := hp.range
  rcases List.mem_append.mp hq with hq | hq
  · rw [below] at hq
    split_ifs at hq
    · obtain rfl := List.mem_singleton.mp hq
      refine ⟨hpos, hhi.trans hrange, fun x hx => ?_, hp.sound⟩
      have := hp.phys x hx
      unfold Piece.hi
      simp only
      omega
    · cases hq
  · rw [above] at hq
    split_ifs at hq
    · obtain rfl := List.mem_singleton.mp hq
      refine ⟨hpos, hhi.trans hrange, fun x hx => ?_, hp.sound⟩
      obtain ⟨y, hy, rfl⟩ := Option.map_eq_some_iff.mp hx
      have := hp.phys y hy
      rw [BitVec.toNat_add, BitVec.toNat_ofNat]
      unfold Piece.hi at *
      simp only at *
      omega
    · cases hq

end CcNvme.ExtentStatus

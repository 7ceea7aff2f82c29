/-
CcNvme/Lib/IntervalMap.lean

Maps from the naturals that are kept as a list of intervals.

A piece `⟨lo, len, v⟩` maps `lo + i` to `i +ᵥ v` for `i < len`: its value moves along with the
position, as the block of a file that is laid out contiguously does, or does not move at all.
Two pieces join if the second one continues the first.  A list of pieces is in normal form if
the pieces are in order, none is empty and no two of them join; such a list is determined by the
map (`Normal.ext`), so it is the shortest one.

`insert` and `remove` change the map at an interval (`meaning_insert`, `meaning_remove`) and keep
the normal form (`Normal.insert`, `Normal.remove`).
-/
import Mathlib.Algebra.Group.Action.Defs
import Mathlib.Algebra.Order.Ring.Nat
import Mathlib.Data.List.Basic

namespace IntervalMap

variable {V : Type*}

/-- The positions from `lo` on, `len` of them; `val` is the value at `lo`. -/
structure Piece (V : Type*) where
  lo : ℕ
  len : ℕ
  val : V
  deriving DecidableEq, Repr

namespace Piece

/-- The position after the last one. -/
def hi (p : Piece V) : ℕ := p.lo + p.len

def covers (p : Piece V) (b : ℕ) : Bool := decide (p.lo ≤ b) && decide (b < p.hi)

theorem covers_iff {p : Piece V} {b : ℕ} : p.covers b = true ↔ p.lo ≤ b ∧ b < p.hi := by
  simp [covers]

/-- The first piece, up to the end of the second. -/
def glue (p q : Piece V) : Piece V := { p with len := p.len + q.len }

@[simp] theorem glue_lo (p q : Piece V) : (p.glue q).lo = p.lo := rfl

@[simp] theorem glue_val (p q : Piece V) : (p.glue q).val = p.val := rfl

@[simp] theorem glue_len (p q : Piece V) : (p.glue q).len = p.len + q.len := rfl

theorem glue_assoc (p q r : Piece V) : (p.glue q).glue r = p.glue (q.glue r) := by
  simp [glue, Nat.add_assoc]

variable [AddAction ℕ V]

/-- The value at a position of the piece. -/
def valAt (p : Piece V) (b : ℕ) : V := (b - p.lo) +ᵥ p.val

/-- The second piece continues the first. -/
def Joins (p q : Piece V) : Prop := p.hi = q.lo ∧ q.val = p.len +ᵥ p.val

instance decidableJoins [DecidableEq V] (p q : Piece V) : Decidable (p.Joins q) :=
  inferInstanceAs (Decidable (_ ∧ _))

/-- The first piece comes before the second, and they do not join. -/
def Before (p q : Piece V) : Prop := p.hi ≤ q.lo ∧ ¬ p.Joins q

theorem Before.of_lt {p q : Piece V} (h : p.hi < q.lo) : p.Before q :=
  ⟨h.le, fun hj => h.ne hj.1⟩

theorem Joins.glue_hi {p q : Piece V} (h : p.Joins q) : (p.glue q).hi = q.hi := by
  have := h.1
  simp only [hi, glue] at *
  omega

/-- What continues two pieces that join continues the second one. -/
theorem Joins.glue_joins_iff {p q r : Piece V} (h : p.Joins q) :
    (p.glue q).Joins r ↔ q.Joins r := by
  unfold Joins
  rw [h.glue_hi, glue_len, glue_val, h.2, vadd_vadd, Nat.add_comm q.len]

/-- What two pieces continue, the first one continues. -/
theorem joins_glue_iff {p q r : Piece V} : p.Joins (q.glue r) ↔ p.Joins q := Iff.rfl

theorem Joins.covers_glue {p q : Piece V} (h : p.Joins q) (b : ℕ) :
    (p.glue q).covers b = (p.covers b || q.covers b) := by
  have h₁ := h.1
  rw [Bool.eq_iff_iff, Bool.or_eq_true, covers_iff, covers_iff, covers_iff]
  simp only [hi, glue] at *
  omega

theorem glue_valAt_left (p q : Piece V) (b : ℕ) : (p.glue q).valAt b = p.valAt b := rfl

theorem Joins.glue_valAt_right {p q : Piece V} (h : p.Joins q) {b : ℕ} (hb : q.lo ≤ b) :
    (p.glue q).valAt b = q.valAt b := by
  have h₁ := h.1
  unfold hi at h₁
  rw [valAt, valAt, h.2, vadd_vadd, glue_lo, glue_val]
  congr 1
  omega

end Piece

open Piece

variable [AddAction ℕ V]

/-- The map that a list of pieces stands for. -/
def meaning (l : List (Piece V)) (b : ℕ) : Option V :=
  (l.find? fun p => p.covers b).map fun p => p.valAt b

@[simp] theorem meaning_nil (b : ℕ) : meaning ([] : List (Piece V)) b = none := rfl

theorem meaning_cons (p : Piece V) (l : List (Piece V)) (b : ℕ) :
    meaning (p :: l) b = if p.covers b then some (p.valAt b) else meaning l b := by
  unfold meaning
  rw [List.find?_cons]
  cases p.covers b <;> rfl

theorem meaning_append (l l' : List (Piece V)) (b : ℕ) :
    meaning (l ++ l') b = (meaning l b).or (meaning l' b) := by
  induction l with
  | nil => rfl
  | cons p l ih =>
      rw [List.cons_append, meaning_cons, meaning_cons, ih]
      cases p.covers b <;> rfl

theorem meaning_eq_none {l : List (Piece V)} {b : ℕ} (h : ∀ p ∈ l, p.covers b = false) :
    meaning l b = none := by
  rw [meaning, List.find?_eq_none.mpr fun p hp => by simp [h p hp]]
  rfl

theorem exists_of_meaning {l : List (Piece V)} {b : ℕ} {v : V} (h : meaning l b = some v) :
    ∃ p ∈ l, p.covers b = true ∧ v = p.valAt b := by
  obtain ⟨p, hp, rfl⟩ := Option.map_eq_some_iff.mp h
  exact ⟨p, List.mem_of_find?_eq_some hp, by simpa using List.find?_some hp, rfl⟩

/-- In order, without empty pieces, and as few pieces as possible. -/
structure Normal (l : List (Piece V)) : Prop where
  pos : ∀ p ∈ l, 0 < p.len
  pairwise : l.Pairwise Before

theorem Normal.nil : Normal ([] : List (Piece V)) := ⟨by simp, List.Pairwise.nil⟩

theorem normal_cons {p : Piece V} {l : List (Piece V)} :
    Normal (p :: l) ↔ 0 < p.len ∧ (∀ q ∈ l, p.Before q) ∧ Normal l := by
  constructor
  · intro h
    obtain ⟨hp, hl⟩ := List.pairwise_cons.mp h.pairwise
    exact ⟨h.pos p List.mem_cons_self, hp, fun q hq => h.pos q (List.mem_cons_of_mem p hq), hl⟩
  · rintro ⟨hpos, hp, hl⟩
    refine ⟨fun q hq => ?_, List.pairwise_cons.mpr ⟨hp, hl.pairwise⟩⟩
    rcases List.mem_cons.mp hq with rfl | hq
    · exact hpos
    · exact hl.pos q hq

theorem normal_append {l l' : List (Piece V)} :
    Normal (l ++ l') ↔ Normal l ∧ Normal l' ∧ ∀ p ∈ l, ∀ q ∈ l', p.Before q := by
  constructor
  · intro h
    obtain ⟨hl, hl', hcross⟩ := List.pairwise_append.mp h.pairwise
    exact ⟨⟨fun p hp => h.pos p (List.mem_append_left _ hp), hl⟩,
      ⟨fun p hp => h.pos p (List.mem_append_right _ hp), hl'⟩, hcross⟩
  · rintro ⟨hl, hl', hcross⟩
    refine ⟨fun p hp => ?_, List.pairwise_append.mpr ⟨hl.pairwise, hl'.pairwise, hcross⟩⟩
    rcases List.mem_append.mp hp with hp | hp
    · exact hl.pos p hp
    · exact hl'.pos p hp

theorem Normal.sublist {l l' : List (Piece V)} (h : Normal l') (hsub : l.Sublist l') :
    Normal l :=
  ⟨fun p hp => h.pos p (hsub.subset hp), h.pairwise.sublist hsub⟩

/-- The piece that covers a position is the only one. -/
theorem Normal.meaning_of_mem {l : List (Piece V)} (h : Normal l) {p : Piece V} (hp : p ∈ l)
    {b : ℕ} (hb : p.covers b = true) : meaning l b = some (p.valAt b) := by
  induction l with
  | nil => cases hp
  | cons q l ih =>
      obtain ⟨-, hq, hl⟩ := normal_cons.mp h
      rw [meaning_cons]
      rcases List.mem_cons.mp hp with rfl | hp
      · rw [if_pos hb]
      · rw [if_neg, ih hl hp]
        have hbefore := (hq p hp).1
        rw [covers_iff] at hb ⊢
        omega

section Extensionality

variable {p q : Piece V} {l l' : List (Piece V)}

omit [AddAction ℕ V] in
theorem Piece.covers_lo (h : 0 < p.len) : p.covers p.lo = true :=
  covers_iff.mpr ⟨le_rfl, by unfold hi; omega⟩

@[simp] theorem Piece.valAt_lo (p : Piece V) : p.valAt p.lo = p.val := by
  rw [valAt, Nat.sub_self, zero_vadd]

/-- The pieces after the first one do not cover its positions. -/
theorem Normal.meaning_tail (h : Normal (p :: l)) {b : ℕ} (hb : b < p.hi) :
    meaning l b = none := by
  refine meaning_eq_none fun q hq => ?_
  have hbefore := ((normal_cons.mp h).2.1 q hq).1
  rw [Bool.eq_false_iff, ne_eq, covers_iff]
  omega

theorem Normal.lo_le (h : Normal (p :: l)) {b : ℕ} {v : V} (hb : meaning (p :: l) b = some v) :
    p.lo ≤ b := by
  obtain ⟨q, hq, hcov, -⟩ := exists_of_meaning hb
  have hcov := covers_iff.mp hcov
  rcases List.mem_cons.mp hq with rfl | hq
  · exact hcov.1
  · have hbefore := ((normal_cons.mp h).2.1 q hq).1
    unfold hi at hbefore
    omega

/-- The first piece is as long as it can be. -/
theorem Normal.len_le (h : Normal (p :: l)) (hlo : p.lo = q.lo) (hval : p.val = q.val)
    (heq : ∀ b, meaning (p :: l) b = meaning (q :: l') b) : q.len ≤ p.len := by
  by_contra hlt
  -- the position after `p` would have to be covered by a piece that continues `p`
  have hb := heq p.hi
  rw [meaning_cons, meaning_cons, if_neg (by simp [covers_iff]),
    if_pos (covers_iff.mpr (by unfold hi; omega))] at hb
  obtain ⟨r, hr, hcov, hv⟩ := exists_of_meaning hb
  have hbefore := (normal_cons.mp h).2.1 r hr
  have hrlo : p.hi = r.lo := Nat.le_antisymm hbefore.1 (covers_iff.mp hcov).1
  rw [hrlo, valAt_lo, ← hrlo] at hv
  refine hbefore.2 ⟨hrlo, ?_⟩
  rw [← hv, valAt, hval, ← hlo, hi, Nat.add_sub_cancel_left]

/-- **The map determines the list.** -/
theorem Normal.ext (h : Normal l) (h' : Normal l') (heq : ∀ b, meaning l b = meaning l' b) :
    l = l' := by
  induction l generalizing l' with
  | nil =>
      cases l' with
      | nil => rfl
      | cons q l' =>
          have hq := heq q.lo
          rw [meaning_cons, if_pos (covers_lo (normal_cons.mp h').1)] at hq
          cases hq
  | cons p l ih =>
      have hp := (heq p.lo).symm
      rw [meaning_cons p, if_pos (covers_lo (normal_cons.mp h).1)] at hp
      cases l' with
      | nil => cases hp
      | cons q l' =>
          have hq := heq q.lo
          rw [meaning_cons q, if_pos (covers_lo (normal_cons.mp h').1)] at hq
          have hlo : p.lo = q.lo := Nat.le_antisymm (h.lo_le hq) (h'.lo_le hp)
          have hval : p.val = q.val := by
            have hv := heq p.lo
            rw [meaning_cons, meaning_cons, if_pos (covers_lo (normal_cons.mp h).1), hlo,
              if_pos (covers_lo (normal_cons.mp h').1), ← hlo, valAt_lo, hlo, valAt_lo] at hv
            exact Option.some.inj hv
          have hlen : p.len = q.len := Nat.le_antisymm
            (h'.len_le hlo.symm hval.symm fun b => (heq b).symm) (h.len_le hlo hval heq)
          obtain rfl : p = q := by
            cases p
            cases q
            simp only at hlo hval hlen
            rw [hlo, hval, hlen]
          congr 1
          refine ih (normal_cons.mp h).2.2 (normal_cons.mp h').2.2 fun b => ?_
          by_cases hb : b < p.hi
          · rw [h.meaning_tail hb, h'.meaning_tail hb]
          · have hcons := heq b
            have hcov : ¬ p.covers b = true := by
              rw [covers_iff]
              omega
            rwa [meaning_cons, meaning_cons, if_neg hcov, if_neg hcov] at hcons

end Extensionality

/-! ### Insertion -/

section Insert

variable {p q : Piece V} {l : List (Piece V)}

/-- The list has nothing at the positions of the piece. -/
def Free (p : Piece V) (l : List (Piece V)) : Prop := ∀ q ∈ l, q.hi ≤ p.lo ∨ p.hi ≤ q.lo

/-- A piece that starts at the new one's right is after it, and so is what follows. -/
theorem Free.after (hfree : Free p (q :: l)) (hl : Normal (q :: l))
    (hlt : p.lo < q.lo) : ∀ r ∈ q :: l, p.hi ≤ r.lo := by
  have hq : p.hi ≤ q.lo := by
    rcases hfree q List.mem_cons_self with h | h
    · unfold hi at h
      omega
    · exact h
  intro r hr
  rcases List.mem_cons.mp hr with rfl | hr
  · exact hq
  · have hbefore := ((normal_cons.mp hl).2.1 r hr).1
    unfold hi at *
    omega

/-- A piece that does not start at the new one's right is before it. -/
theorem Free.before (hfree : Free p (q :: l)) (hl : Normal (q :: l)) (hpos : 0 < p.len)
    (hge : ¬ p.lo < q.lo) : q.hi ≤ p.lo := by
  have hqpos := (normal_cons.mp hl).1
  rcases hfree q List.mem_cons_self with h | h
  · exact h
  · unfold hi at h
    omega

/-- What follows a piece that joins the new one is after both. -/
theorem Free.after_joins (hfree : Free p (q :: l)) (hl : Normal (q :: l))
    (hj : q.Joins p) : ∀ r ∈ l, (q.glue p).hi ≤ r.lo := by
  intro r hr
  rw [hj.glue_hi]
  rcases hfree r (List.mem_cons_of_mem q hr) with h | h
  · have hbefore := ((normal_cons.mp hl).2.1 r hr).1
    have hrpos := hl.pos r (List.mem_cons_of_mem q hr)
    have := hj.1
    unfold hi at *
    omega
  · exact h

omit [AddAction ℕ V] in
theorem Free.tail (hfree : Free p (q :: l)) : Free p l :=
  fun r hr => hfree r (List.mem_cons_of_mem q hr)

variable [DecidableEq V]

/-- A piece in front of later ones. -/
def push (p : Piece V) : List (Piece V) → List (Piece V)
  | [] => [p]
  | q :: l => if p.Joins q then p.glue q :: l else p :: q :: l

/-- A piece into a list that has nothing at its positions. -/
def insert (p : Piece V) : List (Piece V) → List (Piece V)
  | [] => [p]
  | q :: l =>
      if p.lo < q.lo then push p (q :: l)
      else if q.Joins p then push (q.glue p) l
      else q :: insert p l

theorem meaning_push (p : Piece V) (l : List (Piece V)) (b : ℕ) :
    meaning (push p l) b = if p.covers b then some (p.valAt b) else meaning l b := by
  cases l with
  | nil => rw [push, meaning_cons]
  | cons q l =>
      rw [push]
      split_ifs with hj hb hb
      · rw [meaning_cons, if_pos (by rw [hj.covers_glue, hb]; rfl), glue_valAt_left]
      · rw [meaning_cons, meaning_cons, hj.covers_glue, Bool.eq_false_of_not_eq_true hb,
          Bool.false_or]
        split_ifs with hq
        · rw [hj.glue_valAt_right (covers_iff.mp hq).1]
        · rfl
      · rw [meaning_cons, if_pos hb]
      · rw [meaning_cons, if_neg hb]

theorem Normal.push (hl : Normal l) (hpos : 0 < p.len) (hafter : ∀ q ∈ l, p.hi ≤ q.lo) :
    Normal (push p l) := by
  cases l with
  | nil => exact normal_cons.mpr ⟨hpos, by simp, Normal.nil⟩
  | cons q l =>
      obtain ⟨hqpos, hq, hl'⟩ := normal_cons.mp hl
      rw [IntervalMap.push]
      split_ifs with hj
      · refine normal_cons.mpr ⟨by rw [glue_len]; omega, fun r hr => ?_, hl'⟩
        unfold Before
        rw [hj.glue_hi, hj.glue_joins_iff]
        exact hq r hr
      · refine normal_cons.mpr ⟨hpos, fun r hr => ?_, hl⟩
        rcases List.mem_cons.mp hr with rfl | hr
        · exact ⟨hafter _ List.mem_cons_self, hj⟩
        · refine Before.of_lt ?_
          have h₁ := hafter q List.mem_cons_self
          have h₂ := (hq r hr).1
          unfold hi at *
          omega

/-- A piece of the new list starts like an old one or like the one that is put in. -/
theorem mem_push {r : Piece V} (hr : r ∈ push p l) :
    ∃ s ∈ p :: l, r.lo = s.lo ∧ r.val = s.val := by
  cases l with
  | nil => exact ⟨r, hr, rfl, rfl⟩
  | cons q l =>
      rw [push] at hr
      split_ifs at hr with hj
      · rcases List.mem_cons.mp hr with rfl | hr
        · exact ⟨p, List.mem_cons_self, rfl, rfl⟩
        · exact ⟨r, List.mem_cons_of_mem _ (List.mem_cons_of_mem _ hr), rfl, rfl⟩
      · exact ⟨r, hr, rfl, rfl⟩

theorem mem_insert {r : Piece V} (hr : r ∈ insert p l) :
    ∃ s ∈ p :: l, r.lo = s.lo ∧ r.val = s.val := by
  induction l with
  | nil => exact ⟨r, hr, rfl, rfl⟩
  | cons q l ih =>
      rw [insert] at hr
      split_ifs at hr with hlt hj
      · exact mem_push hr
      · obtain ⟨s, hs, hlo, hval⟩ := mem_push hr
        rcases List.mem_cons.mp hs with rfl | hs
        · exact ⟨q, by simp, hlo, hval⟩
        · exact ⟨s, by simp [hs], hlo, hval⟩
      · rcases List.mem_cons.mp hr with rfl | hr
        · exact ⟨r, by simp, rfl, rfl⟩
        · obtain ⟨s, hs, hlo, hval⟩ := ih hr
          rcases List.mem_cons.mp hs with rfl | hs
          · exact ⟨s, by simp, hlo, hval⟩
          · exact ⟨s, by simp [hs], hlo, hval⟩

/-- **Insertion** maps the positions of the piece to its values. -/
theorem meaning_insert (hl : Normal l) (hpos : 0 < p.len) (hfree : Free p l) (b : ℕ) :
    meaning (insert p l) b = if p.covers b then some (p.valAt b) else meaning l b := by
  induction l with
  | nil => rw [insert, meaning_cons]
  | cons q l ih =>
      rw [insert]
      by_cases hlt : p.lo < q.lo
      · rw [if_pos hlt, meaning_push]
      · have hbefore := hfree.before hl hpos hlt
        have hdisj : p.covers b = true → q.covers b = false := by
          intro hb
          rw [Bool.eq_false_iff, ne_eq, covers_iff]
          have := (covers_iff.mp hb).1
          omega
        rw [if_neg hlt, meaning_cons q]
        by_cases hj : q.Joins p
        · rw [if_pos hj, meaning_push, hj.covers_glue]
          by_cases hb : p.covers b = true
          · rw [if_pos hb, if_pos (by rw [hb, Bool.or_true]),
              hj.glue_valAt_right (covers_iff.mp hb).1]
          · rw [if_neg hb, Bool.eq_false_of_not_eq_true hb, Bool.or_false]
            rfl
        · rw [if_neg hj, meaning_cons, ih (normal_cons.mp hl).2.2 hfree.tail]
          by_cases hb : p.covers b = true
          · rw [hdisj hb]
            rfl
          · rw [if_neg hb, if_neg hb]

/-- **Insertion keeps the normal form.** -/
theorem Normal.insert (hl : Normal l) (hpos : 0 < p.len) (hfree : Free p l) :
    Normal (insert p l) := by
  induction l with
  | nil => exact normal_cons.mpr ⟨hpos, by simp, Normal.nil⟩
  | cons q l ih =>
      obtain ⟨hqpos, hq, hl'⟩ := normal_cons.mp hl
      rw [IntervalMap.insert]
      by_cases hlt : p.lo < q.lo
      · rw [if_pos hlt]
        exact hl.push hpos (hfree.after hl hlt)
      · rw [if_neg hlt]
        by_cases hj : q.Joins p
        · rw [if_pos hj]
          exact hl'.push (by rw [glue_len]; omega) (hfree.after_joins hl hj)
        · rw [if_neg hj]
          refine normal_cons.mpr ⟨hqpos, fun r hr => ?_, ih hl' hfree.tail⟩
          -- what comes before a piece depends on how it starts
          obtain ⟨s, hs, hlo, hval⟩ := mem_insert hr
          have hs : q.Before s := by
            rcases List.mem_cons.mp hs with rfl | hs
            · exact ⟨hfree.before hl hpos hlt, hj⟩
            · exact hq s hs
          unfold Before Joins at *
          rwa [hlo, hval]

omit [DecidableEq V] in
/-- Of the pieces before, only the last one can join. -/
theorem Normal.not_joins {pre : List (Piece V)} (h : Normal pre) (hpre : ∀ q ∈ pre, q.hi ≤ p.lo)
    (hlast : ∀ q ∈ pre.getLast?, ¬ q.Joins p) : ∀ q ∈ pre, ¬ q.Joins p := by
  intro q hq hj
  cases hz : pre.getLast? with
  | none =>
      rw [List.getLast?_eq_none_iff.mp hz] at hq
      cases hq
  | some z =>
      obtain ⟨pre, rfl⟩ := List.getLast?_eq_some_iff.mp hz
      rcases List.mem_append.mp hq with hq | hq
      · have hzlo := hpre z (by simp)
        have hzpos := h.pos z (by simp)
        have hbefore := ((normal_append.mp h).2.2 q hq z (by simp)).1
        have := hj.1
        unfold Piece.hi at *
        omega
      · obtain rfl := List.mem_singleton.mp hq
        exact hlast q hz hj

/-- Insertion at a known place. -/
theorem insert_append {pre post : List (Piece V)} (hpre : ∀ q ∈ pre, q.lo ≤ p.lo)
    (hjoin : ∀ q ∈ pre, ¬ q.Joins p) (hpost : ∀ q ∈ post.head?, p.lo < q.lo) :
    insert p (pre ++ post) = pre ++ push p post := by
  induction pre with
  | nil =>
      cases post with
      | nil => rfl
      | cons q post => rw [List.nil_append, List.nil_append, insert, if_pos (hpost q rfl)]
  | cons q pre ih =>
      rw [List.cons_append, insert, if_neg (Nat.not_lt.mpr (hpre q List.mem_cons_self)),
        if_neg (hjoin q List.mem_cons_self),
        ih (fun r hr => hpre r (List.mem_cons_of_mem q hr)) fun r hr =>
          hjoin r (List.mem_cons_of_mem q hr)]
      rfl

/-- Insertion after a piece that it continues. -/
theorem insert_append_joins {pre post : List (Piece V)} (hpre : ∀ q ∈ pre, q.lo ≤ p.lo)
    (hjoin : ∀ q ∈ pre, ¬ q.Joins p) (hlo : q.lo ≤ p.lo) (hq : q.Joins p) :
    insert p (pre ++ q :: post) = pre ++ push (q.glue p) post := by
  induction pre with
  | nil =>
      rw [List.nil_append, List.nil_append, insert, if_neg (Nat.not_lt.mpr hlo), if_pos hq]
  | cons r pre ih =>
      rw [List.cons_append, insert, if_neg (Nat.not_lt.mpr (hpre r List.mem_cons_self)),
        if_neg (hjoin r List.mem_cons_self),
        ih (fun s hs => hpre s (List.mem_cons_of_mem r hs)) fun s hs =>
          hjoin s (List.mem_cons_of_mem r hs)]
      rfl

end Insert

/-! ### Removal -/

section Remove

variable {p q r : Piece V} {l : List (Piece V)} {lo hi : ℕ}

/-- What a piece has before `lo`. -/
def below (lo : ℕ) (p : Piece V) : List (Piece V) :=
  if p.lo < lo then [{ p with len := min p.hi lo - p.lo }] else []

/-- What a piece has from `hi` on. -/
def above (hi : ℕ) (p : Piece V) : List (Piece V) :=
  if hi < p.hi then [⟨max p.lo hi, p.hi - max p.lo hi, (max p.lo hi - p.lo) +ᵥ p.val⟩] else []

/-- What is left of a piece. -/
def cut (lo hi : ℕ) (p : Piece V) : List (Piece V) := below lo p ++ above hi p

/-- The positions from `lo` up to `hi` are removed. -/
def remove (lo hi : ℕ) (l : List (Piece V)) : List (Piece V) := l.flatMap (cut lo hi)

theorem remove_append (l l' : List (Piece V)) :
    remove lo hi (l ++ l') = remove lo hi l ++ remove lo hi l' :=
  List.flatMap_append

theorem remove_cons (p : Piece V) (l : List (Piece V)) :
    remove lo hi (p :: l) = cut lo hi p ++ remove lo hi l :=
  rfl

theorem cut_before (hle : lo ≤ hi) (h : p.hi ≤ lo) (hpos : 0 < p.len) : cut lo hi p = [p] := by
  unfold Piece.hi at h
  rw [cut, below, above, if_pos (by omega), if_neg (by unfold Piece.hi; omega), Piece.hi,
    Nat.min_eq_left h, Nat.add_sub_cancel_left]
  rfl

theorem cut_after (hle : lo ≤ hi) (h : hi ≤ p.lo) (hpos : 0 < p.len) : cut lo hi p = [p] := by
  rw [cut, below, above, if_neg (by omega), if_pos (by unfold Piece.hi; omega),
    Nat.max_eq_left h, Piece.hi, Nat.add_sub_cancel_left, Nat.sub_self, zero_vadd]
  rfl

theorem cut_inside (hlo : lo ≤ p.lo) (hhi : p.hi ≤ hi) : cut lo hi p = [] := by
  rw [cut, below, above, if_neg (by omega), if_neg (by omega)]
  rfl

theorem remove_eq_self (hle : lo ≤ hi) (hpos : ∀ p ∈ l, 0 < p.len)
    (h : ∀ p ∈ l, p.hi ≤ lo ∨ hi ≤ p.lo) : remove lo hi l = l := by
  induction l with
  | nil => rfl
  | cons p l ih =>
      rw [remove_cons, ih (fun q hq => hpos q (List.mem_cons_of_mem p hq)) fun q hq =>
        h q (List.mem_cons_of_mem p hq)]
      rcases h p List.mem_cons_self with h | h
      · rw [cut_before hle h (hpos p List.mem_cons_self)]
        rfl
      · rw [cut_after hle h (hpos p List.mem_cons_self)]
        rfl

theorem meaning_below (lo : ℕ) (p : Piece V) (b : ℕ) :
    meaning (below lo p) b = if p.covers b ∧ b < lo then some (p.valAt b) else none := by
  rw [below]
  by_cases hlt : p.lo < lo
  · have hcov : Piece.covers { p with len := min p.hi lo - p.lo } b = true ↔
        p.covers b = true ∧ b < lo := by
      simp only [covers_iff, Piece.hi]
      omega
    rw [if_pos hlt, meaning_cons, if_congr hcov rfl rfl]
    rfl
  · rw [if_neg hlt, if_neg, meaning_nil]
    rw [covers_iff]
    omega

theorem meaning_above (hi : ℕ) (p : Piece V) (b : ℕ) :
    meaning (above hi p) b = if p.covers b ∧ hi ≤ b then some (p.valAt b) else none := by
  rw [above]
  by_cases hlt : hi < p.hi
  · rw [if_pos hlt, meaning_cons, meaning_nil]
    refine if_ctx_congr ?_ (fun h => ?_) fun _ => rfl
    · simp only [covers_iff, Piece.hi] at *
      omega
    · simp only [covers_iff] at h
      rw [valAt, valAt, vadd_vadd]
      congr 2
      simp only
      omega
  · rw [if_neg hlt, if_neg, meaning_nil]
    rw [covers_iff]
    omega

theorem meaning_cut (hle : lo ≤ hi) (p : Piece V) (b : ℕ) :
    meaning (cut lo hi p) b =
      if p.covers b ∧ ¬ (lo ≤ b ∧ b < hi) then some (p.valAt b) else none := by
  rw [cut, meaning_append, meaning_below, meaning_above]
  by_cases hb : b < lo
  · simp only [hb, show ¬ hi ≤ b by omega, show ¬ lo ≤ b by omega, and_true, and_false,
      false_and, not_false_eq_true, if_false, Option.or_none]
  · simp only [hb, show lo ≤ b by omega, and_false, true_and, not_lt, if_false, Option.none_or]

/-- **Removal** maps the positions to nothing. -/
theorem meaning_remove (hle : lo ≤ hi) (l : List (Piece V)) (b : ℕ) :
    meaning (remove lo hi l) b = if lo ≤ b ∧ b < hi then none else meaning l b := by
  induction l with
  | nil => simp [remove]
  | cons p l ih =>
      rw [remove_cons, meaning_append, meaning_cut hle, ih, meaning_cons]
      by_cases hb : lo ≤ b ∧ b < hi
      · rw [if_neg (by simp [hb]), if_pos hb, if_pos hb]
        rfl
      · simp only [hb, not_false_eq_true, and_true, if_false]
        cases p.covers b <;> rfl

/-- The parts of a piece start and end as the piece does, or inside it. -/
theorem mem_cut (hpos : 0 < p.len) (hr : r ∈ cut lo hi p) :
    0 < r.len ∧ (p.lo ≤ r.lo ∧ (r.lo = p.lo → r.val = p.val)) ∧
      (r.hi ≤ p.hi ∧ (r.hi = p.hi → r.len +ᵥ r.val = p.len +ᵥ p.val)) := by
  rcases List.mem_append.mp hr with hr | hr
  · rw [below] at hr
    split_ifs at hr with hlt
    · obtain rfl := List.mem_singleton.mp hr
      simp only [Piece.hi]
      refine ⟨by omega, ⟨le_rfl, fun _ => trivial⟩, by omega, fun h => ?_⟩
      congr 1
      omega
    · cases hr
  · rw [above] at hr
    split_ifs at hr with hlt
    · obtain rfl := List.mem_singleton.mp hr
      simp only [Piece.hi] at hlt ⊢
      refine ⟨by omega, ⟨by omega, fun h => ?_⟩, by omega, fun _ => ?_⟩
      · rw [h, Nat.sub_self, zero_vadd]
      · rw [vadd_vadd]
        congr 1
        omega
    · cases hr

/-- What is left lies before the range or after it. -/
theorem free_of_remove (hr : r ∈ remove lo hi l) : r.hi ≤ lo ∨ hi ≤ r.lo := by
  obtain ⟨p, -, hr⟩ := List.mem_flatMap.mp hr
  rcases List.mem_append.mp hr with hr | hr
  · rw [below] at hr
    split_ifs at hr
    · obtain rfl := List.mem_singleton.mp hr
      left
      simp only [Piece.hi]
      omega
    · cases hr
  · rw [above] at hr
    split_ifs at hr
    · obtain rfl := List.mem_singleton.mp hr
      exact Or.inr (Nat.le_max_right _ _)
    · cases hr

theorem pairwise_cut (hlt : lo < hi) (p : Piece V) : (cut lo hi p).Pairwise Before := by
  refine List.pairwise_append.mpr ⟨?_, ?_, fun q hq r hr => Before.of_lt ?_⟩
  · unfold below
    split_ifs <;> simp
  · unfold above
    split_ifs <;> simp
  · rw [below] at hq
    rw [above] at hr
    split_ifs at hq hr
    · obtain rfl := List.mem_singleton.mp hq
      obtain rfl := List.mem_singleton.mp hr
      simp only [Piece.hi]
      omega
    all_goals cases hq
    all_goals cases hr

/-- **Removal keeps the normal form.** -/
theorem Normal.remove (h : Normal l) (hlt : lo < hi) : Normal (remove lo hi l) := by
  refine ⟨fun r hr => ?_, List.pairwise_flatMap.mpr ⟨fun p _ => pairwise_cut hlt p, ?_⟩⟩
  · obtain ⟨p, hp, hr⟩ := List.mem_flatMap.mp hr
    exact (mem_cut (h.pos p hp) hr).1
  · refine h.pairwise.imp_of_mem fun {p q} hp hq hpq x hx y hy => ?_
    obtain ⟨-, -, hxhi, hxval⟩ := mem_cut (h.pos p hp) hx
    obtain ⟨-, ⟨hylo, hyval⟩, -⟩ := mem_cut (h.pos q hq) hy
    refine ⟨hxhi.trans (hpq.1.trans hylo), fun hj => hpq.2 ?_⟩
    -- parts that join are the end of `p` and the start of `q`
    have hp' : x.hi = p.hi := Nat.le_antisymm hxhi ((hpq.1.trans hylo).trans hj.1.ge)
    have hq' : y.lo = q.lo := Nat.le_antisymm (hj.1.ge.trans (hxhi.trans hpq.1)) hylo
    refine ⟨hp'.symm.trans (hj.1.trans hq'), ?_⟩
    rw [← hyval hq', hj.2, hxval hp']

end Remove

end IntervalMap

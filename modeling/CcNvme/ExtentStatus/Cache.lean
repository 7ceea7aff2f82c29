/-
CcNvme/ExtentStatus/Cache.lean

What the extent status tree is for: a map from the blocks of a file to what is known about them.
`Answers` says how each operation acts on such a map and what it may return; the tree may forget
what it was told about a block, unless the block is delayed (`Forgets`).  Delayed blocks are lost
all the same when a delayed extent that replaces them cannot be recorded: `-ENOMEM` is returned,
and the range is cleared.

* `es_tree_refines_map`: for every sequence of operations with sensible arguments, with any
  allocations failing, any work of the shrinker and any way of balancing the tree, no `BUG_ON` is
  hit and no freed extent is used, and every operation answers as on the map.
* `es_tree_determined_by_map`: trees that know the same have the same extents, up to the
  referenced bit, and the same counters; the extents are as few as possible.
-/
import CcNvme.Lib.Run
import CcNvme.ExtentStatus.Remove

namespace CcNvme.ExtentStatus

open SearchTree IntervalMap

/-! ### The map -/

/-- What is known about the blocks of a file. -/
abbrev Blocks : Type := ℕ → Option Value

namespace Blocks

variable (m : Blocks)

/-- The blocks of an extent are what it says. -/
def set (p : Piece Value) : Blocks := fun b => if p.covers b then some (p.valAt b) else m b

/-- Nothing is known about the range. -/
def clear (lblk len : ℕ) : Blocks := fun b => if lblk ≤ b ∧ b < lblk + len then none else m b

theorem set_apply (p : Piece Value) (b : ℕ) :
    m.set p b = if p.covers b then some (p.valAt b) else m b := rfl

theorem clear_apply (lblk len b : ℕ) :
    m.clear lblk len b = if lblk ≤ b ∧ b < lblk + len then none else m b := rfl

/-- The block is not known to be delayed. -/
def Undelayed (b : ℕ) : Prop := ∀ v, m b = some v → v.delayed = false

/-- What the extent says is so. -/
def Says (es : Extent) : Prop :=
  ∀ b, es.piece.covers b = true → m b = some (es.piece.valAt b)

end Blocks

/-- The second map has forgotten some blocks, but none that is delayed. -/
def Forgets (m m' : Blocks) : Prop := ∀ b, m' b = m b ∨ (m' b = none ∧ m.Undelayed b)

/-- How an operation acts on the map, and what it answers. -/
def Answers (m : Blocks) (m' : Blocks) : Act → Out → Prop
  | .insert lblk len pblk status _ _, .ret .ok => m' = m.set (newExtent lblk len pblk status).piece
  -- a delayed extent that could not be recorded; the range may be gone already
  | .insert lblk len pblk status _ _, .ret .nomem =>
      m' = m ∨ ((newExtent lblk len pblk status).isDelayed = true ∧ m' = m.clear lblk len)
  | .cache lblk len pblk status _, .done =>
      m' = m ∨ ((∀ b, lblk ≤ b → b < lblk + len → m.Undelayed b) ∧
        m' = m.set (newExtent lblk len pblk status).piece)
  | .remove lblk len _, .ret .ok => m' = m.clear lblk len
  | .remove _ _ _, .ret .nomem => m' = m
  | .lookup lblk, .found none => m' = m ∧ m.Undelayed lblk
  | .lookup lblk, .found (some es) => m' = m ∧ es.piece.covers lblk = true ∧ m.Says es
  | .findDelayed lblk last, .found none =>
      m' = m ∧ ∀ b, lblk ≤ b → b ≤ last → m.Undelayed b
  -- the first delayed extent that does not end before the block
  | .findDelayed lblk _, .found (some es) =>
      m' = m ∧ es.isDelayed = true ∧ m.Says es ∧ lblk ≤ es.last ∧
        ∀ b, lblk ≤ b → b < es.lblk → m.Undelayed b
  | .reclaim _, .done => m' = m
  | _, _ => False

/-- The arguments make sense: the blocks are below `EXT_MAX_BLOCKS`, the status is one that is
used, and the physical blocks are block numbers. -/
def insertable (lblk len : ℕ) (pblk status : BitVec 64) : Bool :=
  decide (lblk + len ≤ extMaxBlocks) && kindSound (status.setWidth 4) &&
    (!kindMapped (status.setWidth 4) || decide ((physOf pblk).toNat + len < 2 ^ 59))

def Act.sensible : Act → Bool
  | .insert lblk len pblk status _ _ => insertable lblk len pblk status
  | .cache lblk len pblk status _ => insertable lblk len pblk status
  | .remove lblk len _ => decide (lblk + len ≤ 2 ^ 32)
  | .findDelayed lblk last => decide (lblk ≤ last)
  | _ => true

/-! ### Forgetting -/

namespace Forgets

variable {m m' m'' : Blocks} {p : Piece Value}

theorem refl (m : Blocks) : Forgets m m := fun _ => Or.inl rfl

theorem trans (h : Forgets m m') (h' : Forgets m' m'') : Forgets m m'' := by
  intro b
  rcases h' b with h₁ | ⟨h₁, h₂⟩
  · rw [h₁]
    exact h b
  · refine Or.inr ⟨h₁, ?_⟩
    rcases h b with h₃ | ⟨-, h₃⟩
    · intro v hv
      exact h₂ v (h₃.trans hv)
    · exact h₃

theorem set (h : Forgets m m') (p : Piece Value) : Forgets (m.set p) (m'.set p) := by
  intro b
  unfold Blocks.Undelayed
  rw [Blocks.set_apply, Blocks.set_apply]
  by_cases hb : p.covers b = true
  · rw [if_pos hb, if_pos hb]
    exact Or.inl rfl
  · rw [if_neg hb, if_neg hb]
    exact h b

theorem clear (h : Forgets m m') (lblk len : ℕ) :
    Forgets (m.clear lblk len) (m'.clear lblk len) := by
  intro b
  unfold Blocks.Undelayed
  rw [Blocks.clear_apply, Blocks.clear_apply]
  by_cases hb : lblk ≤ b ∧ b < lblk + len
  · rw [if_pos hb, if_pos hb]
    exact Or.inl rfl
  · rw [if_neg hb, if_neg hb]
    exact h b

/-- An extent that is not delayed may be forgotten at once. -/
theorem clear_set (h : Forgets m m') (hp : p.val.delayed = false) :
    Forgets (m.set p) (m'.clear p.lo p.len) := by
  intro b
  unfold Blocks.Undelayed
  rw [Blocks.clear_apply, Blocks.set_apply]
  by_cases hb : p.covers b = true
  · rw [if_pos (show p.lo ≤ b ∧ b < p.lo + p.len from Piece.covers_iff.mp hb), if_pos hb]
    refine Or.inr ⟨rfl, fun v hv => ?_⟩
    obtain rfl := Option.some.inj hv
    exact hp
  · rw [if_neg (show ¬ (p.lo ≤ b ∧ b < p.lo + p.len) from fun hb' =>
      hb (Piece.covers_iff.mpr hb')), if_neg hb]
    exact h b

/-- What is still there is as it was. -/
theorem eq_of_some (h : Forgets m m') {b : ℕ} {v : Value} (hb : m' b = some v) : m b = some v := by
  rcases h b with h₁ | ⟨h₁, -⟩
  · rw [← h₁, hb]
  · rw [h₁] at hb
    cases hb

/-- What is delayed is still there. -/
theorem eq_of_delayed (h : Forgets m m') {b : ℕ} {v : Value} (hb : m b = some v)
    (hv : v.delayed = true) : m' b = some v := by
  rcases h b with h₁ | ⟨-, h₁⟩
  · rw [h₁, hb]
  · rw [h₁ v hb] at hv
    cases hv

end Forgets

theorem delayed_valAt (p : Piece Value) (b : ℕ) : (p.valAt b).delayed = p.val.delayed := rfl

/-- The shrinker forgets only what is not delayed. -/
theorem Kept.forgets {l l' : List (Piece Value)} (h : Kept l l') (hl : Normal l) :
    Forgets (meaning l) (meaning l') := by
  intro b
  cases hb : meaning l' b with
  | some v =>
      obtain ⟨p, hp, hcov, rfl⟩ := exists_of_meaning hb
      exact Or.inl (hl.meaning_of_mem (h.1.subset hp) hcov).symm
  | none =>
      refine Or.inr ⟨rfl, fun v hv => Bool.eq_false_of_not_eq_true fun hd => ?_⟩
      obtain ⟨p, hp, hcov, rfl⟩ := exists_of_meaning hv
      rw [delayed_valAt] at hd
      rw [(hl.sublist h.1).meaning_of_mem (h.2 p hp hd) hcov] at hb
      cases hb

variable {i : Inode} {n : Node} {m : Blocks} {lblk len : ℕ} {pblk status : BitVec 64}

theorem map_remove {j : Inode} {l : List (Piece Value)} {last : ℕ} (hle : lblk ≤ last)
    (hp : pieces j.nodes = remove lblk (last + 1) l) :
    j.map = Blocks.clear (meaning l) lblk (last + 1 - lblk) := by
  funext b
  rw [Inode.map, hp, meaning_remove (by omega), Blocks.clear_apply,
    Nat.add_sub_cancel' (by omega)]

theorem map_insert {j : Inode} {p : Piece Value} (h : i.Inv) (hpos : 0 < p.len)
    (hfree : Free p (pieces i.nodes))
    (hp : pieces j.nodes = IntervalMap.insert p (pieces i.nodes)) : j.map = Blocks.set i.map p := by
  funext b
  rw [Inode.map, hp, meaning_insert h.normal hpos hfree]
  rfl

/-! ### The operations -/

section Operations

variable (rb : Balancer Node)

theorem valid_newExtent (h : insertable lblk len pblk status = true) (hpos : 0 < len) :
    Valid (newExtent lblk len pblk status).piece := by
  simp only [insertable, Bool.and_eq_true, decide_eq_true_eq, Bool.or_eq_true,
    Bool.not_eq_true'] at h
  obtain ⟨⟨hrange, hsound⟩, hphys⟩ := h
  have hkind : (newExtent lblk len pblk status).kind = status.setWidth 4 :=
    Extent.kind_storePblockStatus _ _ _
  refine ⟨hpos, hrange, fun x hx => ?_, ?_⟩
  · have hx : (if kindMapped (newExtent lblk len pblk status).kind = true then
        some (newExtent lblk len pblk status).phys else none) = some x := hx
    rw [hkind] at hx
    split_ifs at hx with hm
    obtain rfl := Option.some.inj hx
    rcases hphys with hphys | hphys
    · rw [hm] at hphys
      cases hphys
    · exact (congrArg (fun y : BitVec 59 => y.toNat + len)
        (Extent.phys_storePblockStatus _ pblk status)).trans_lt hphys
  · show kindSound (newExtent lblk len pblk status).kind = true
    rw [hkind, hsound]

theorem range_of_insertable (h : insertable lblk len pblk status = true) :
    ¬ 2 ^ 32 < lblk + len := by
  simp only [insertable, Bool.and_eq_true, decide_eq_true_eq] at h
  have := h.1.1
  unfold extMaxBlocks at this
  omega

/-- Removal, as it acts on the map. -/
theorem removeExtent_map (h : i.Inv) (hm : Forgets m i.map) {last : ℕ} (hle : lblk ≤ last)
    (os : List Others) :
    ∃ r j, removeExtent rb lblk last os i = some (r, j) ∧ j.Inv ∧
      (r = .ok → (∀ p ∈ pieces j.nodes, p.hi ≤ lblk ∨ last + 1 ≤ p.lo) ∧
        Forgets (m.clear lblk (last + 1 - lblk)) j.map) ∧
      (r = .nomem → Forgets m j.map) := by
  obtain ⟨r, j, l, hres, hj, hkept, hp⟩ := removeExtent_spec rb h hle os
  have hl := hm.trans (hkept.forgets h.normal)
  refine ⟨r, j, hres, hj, fun hr => ?_, fun hr => ?_⟩
  · rw [if_pos hr] at hp
    refine ⟨fun p hp' => free_of_remove (hp ▸ hp'), ?_⟩
    rw [map_remove hle hp]
    exact hl.clear _ _
  · rw [if_neg (by rw [hr]; decide)] at hp
    have : j.map = meaning l := by
      funext b
      rw [Inode.map, hp]
    rwa [this]

/-- Insertion, as it acts on the map. -/
theorem insertRetry_map {newes : Extent} (h : i.Inv) (hm : Forgets m i.map)
    (hnew : Valid newes.piece) (hfree : Free newes.piece (pieces i.nodes)) (os : List Others) :
    ∃ r j, insertRetry rb newes os i = some (r, j) ∧ j.Inv ∧
      (r = .ok → Forgets (m.set newes.piece) j.map) ∧ (r = .nomem → Forgets m j.map) := by
  induction os generalizing i with
  | nil =>
      rcases insertExtent_spec rb h hnew hfree true with ⟨-, halloc⟩ | ⟨j, hres, hj, hp⟩
      · cases halloc
      · refine ⟨.ok, j, hres, hj, fun _ => ?_, fun hr => by cases hr⟩
        rw [map_insert h hnew.pos hfree hp]
        exact hm.set _
  | cons o os ih =>
      unfold insertRetry
      rcases insertExtent_spec rb h hnew hfree false with ⟨hres, -⟩ | ⟨j, hres, hj, hp⟩
      · obtain ⟨k, j, hshrink, hj, hkept⟩ := shrink_spec rb h o
        have hmj : Forgets m j.map := hm.trans (hkept.forgets h.normal)
        rw [hres, Option.bind_some]
        dsimp only
        rw [hshrink, Option.bind_some]
        by_cases hk : k = 0
        · rw [if_pos hk]
          exact ⟨.nomem, j, rfl, hj, fun hr => (by cases hr), fun _ => hmj⟩
        · rw [if_neg hk]
          exact ih hj hmj fun q hq => hfree q (hkept.1.subset hq)
      · rw [hres]
        refine ⟨.ok, j, rfl, hj, fun _ => ?_, fun hr => by cases hr⟩
        rw [map_insert h hnew.pos hfree hp]
        exact hm.set _

theorem set_empty (m : Blocks) {p : Piece Value} (h : p.len = 0) : m.set p = m := by
  funext b
  refine if_neg fun hb => ?_
  have := Piece.covers_iff.mp hb
  unfold Piece.hi at this
  omega

theorem set_clear (m : Blocks) (p : Piece Value) : Blocks.set (m.clear p.lo p.len) p = m.set p := by
  funext b
  rw [Blocks.set_apply, Blocks.set_apply, Blocks.clear_apply]
  by_cases hb : p.covers b = true
  · rw [if_pos hb, if_pos hb]
  · rw [if_neg hb, if_neg hb,
      if_neg (show ¬ (p.lo ≤ b ∧ b < p.lo + p.len) from fun hb' => hb (Piece.covers_iff.mpr hb'))]

theorem clear_empty (m : Blocks) (lblk : ℕ) : m.clear lblk 0 = m := by
  funext b
  exact if_neg (by omega)

/-- `ext4_es_insert_extent` -/
theorem esInsertExtent_answers (h : i.Inv) (hm : Forgets m i.map)
    (hok : insertable lblk len pblk status = true) (rem ins : List Others) :
    ∃ r j m', esInsertExtent rb i lblk len pblk status rem ins = some (r, j) ∧ j.Inv ∧
      Forgets m' j.map ∧ Answers m m' (.insert lblk len pblk status rem ins) (.ret r) := by
  unfold esInsertExtent
  by_cases hlen : len = 0
  · rw [if_pos hlen]
    exact ⟨.ok, i, m, rfl, h, hm, (set_empty m hlen).symm⟩
  · have hpos : 0 < len := Nat.pos_of_ne_zero hlen
    have hnew := valid_newExtent hok hpos
    rw [if_neg hlen, if_neg (range_of_insertable hok)]
    obtain ⟨r, j, hres, hj, hcleared, hfailed⟩ :=
      removeExtent_map rb h hm (show lblk ≤ lblk + len - 1 by omega) rem
    dsimp only
    rw [hres, Option.bind_some]
    cases r with
    | nomem => exact ⟨.nomem, j, m, rfl, hj, hfailed rfl, Or.inl rfl⟩
    | ok =>
        obtain ⟨hfree, hmj⟩ := hcleared rfl
        rw [show lblk + len - 1 + 1 = lblk + len by omega] at hfree
        rw [show lblk + len - 1 + 1 - lblk = len by omega] at hmj
        obtain ⟨s, k, hres', hk, hset, hlost⟩ := insertRetry_map rb hj hmj hnew hfree ins
        dsimp only
        rw [hres', Option.map_some]
        cases s with
        | ok =>
            refine ⟨.ok, k, _, rfl, hk, ?_, rfl⟩
            rw [← set_clear m (newExtent lblk len pblk status).piece]
            exact hset rfl
        | nomem =>
            by_cases hd : (newExtent lblk len pblk status).isDelayed = true
            · refine ⟨.nomem, k, _, ?_, hk, hlost rfl, Or.inr ⟨hd, rfl⟩⟩
              simp [hd]
            · refine ⟨.ok, k, _, ?_, hk, ?_, rfl⟩
              · simp [hd]
              · refine Forgets.trans ((Forgets.refl m).clear_set ?_) (hlost rfl)
                rw [Extent.piece_val, delayed_value]
                exact Bool.eq_false_of_not_eq_true hd

/-- `ext4_es_remove_extent` -/
theorem esRemoveExtent_answers (h : i.Inv) (hm : Forgets m i.map) (hok : lblk + len ≤ 2 ^ 32)
    (rem : List Others) :
    ∃ r j m', esRemoveExtent rb i lblk len rem = some (r, j) ∧ j.Inv ∧ Forgets m' j.map ∧
      Answers m m' (.remove lblk len rem) (.ret r) := by
  unfold esRemoveExtent
  by_cases hlen : len = 0
  · rw [if_pos hlen, hlen]
    exact ⟨.ok, i, m, rfl, h, hm, (clear_empty m lblk).symm⟩
  · rw [if_neg hlen, if_neg (Nat.not_lt.mpr hok)]
    obtain ⟨r, j, hres, hj, hcleared, hfailed⟩ :=
      removeExtent_map rb h hm (show lblk ≤ lblk + len - 1 by omega) rem
    cases r with
    | nomem => exact ⟨.nomem, j, m, hres, hj, hfailed rfl, rfl⟩
    | ok =>
        have hmj := (hcleared rfl).2
        rw [show lblk + len - 1 + 1 - lblk = len by omega] at hmj
        exact ⟨.ok, j, _, hres, hj, hmj, rfl⟩

theorem undelayed_of_map_none (hm : Forgets m i.map) {b : ℕ} (hb : i.map b = none) :
    m.Undelayed b := by
  intro v hv
  refine Bool.eq_false_of_not_eq_true fun hd => ?_
  rw [hm.eq_of_delayed hv hd] at hb
  cases hb

/-- `ext4_es_cache_extent` -/
theorem esCacheExtent_answers (h : i.Inv) (hm : Forgets m i.map)
    (hok : insertable lblk len pblk status = true) (alloc : Bool) :
    ∃ j m', esCacheExtent rb i lblk len pblk status alloc = some j ∧ j.Inv ∧ Forgets m' j.map ∧
      Answers m m' (.cache lblk len pblk status alloc) .done := by
  unfold esCacheExtent
  by_cases hlen : len = 0
  · rw [if_pos hlen]
    exact ⟨i, m, rfl, h, hm, Or.inl rfl⟩
  · have hpos : 0 < len := Nat.pos_of_ne_zero hlen
    have hnew := valid_newExtent hok hpos
    rw [if_neg hlen, if_neg (range_of_insertable hok)]
    -- where nothing is known about the range
    have hinsert : Free (newExtent lblk len pblk status).piece (pieces i.nodes) →
        ∃ j m', (insertExtent rb i (newExtent lblk len pblk status) alloc).map Prod.snd = some j ∧
          j.Inv ∧ Forgets m' j.map ∧ Answers m m' (.cache lblk len pblk status alloc) .done := by
      intro hfree
      rcases insertExtent_spec rb h hnew hfree alloc with ⟨hres, -⟩ | ⟨j, hres, hj, hp⟩
      · rw [hres]
        exact ⟨i, m, rfl, h, hm, Or.inl rfl⟩
      · rw [hres]
        refine ⟨j, _, rfl, hj, ?_, Or.inr ⟨fun b hlo hhi => ?_, rfl⟩⟩
        · rw [map_insert h hnew.pos hfree hp]
          exact hm.set _
        · refine undelayed_of_map_none hm (meaning_eq_none fun p hp' => ?_)
          rw [Bool.eq_false_iff, ne_eq, Piece.covers_iff]
          rintro ⟨h₁, h₂⟩
          rcases hfree p hp' with h₃ | h₃
          · exact absurd (h₃.trans hlo) (Nat.not_le.mpr h₂)
          · exact absurd (h₃.trans h₁) (Nat.not_le.mpr hhi)
    have hbefore : ∀ n ∈ i.nodes, n.es.last < lblk → n.es.piece.hi ≤ lblk := by
      intro n hn hlt
      have := valid_last (h.valid _ (mem_pieces hn))
      rw [Extent.piece_hi]
      omega
    dsimp only
    rw [h.toSound.treeSearch_eq, Option.bind_some]
    cases hsearch : firstFrom i.root lblk with
    | none =>
        refine hinsert fun p hp => ?_
        obtain ⟨n, hn, rfl⟩ := List.mem_map.mp hp
        exact Or.inl (hbefore n hn (firstFrom_eq_none h.toSound hsearch n hn))
    | some n =>
        dsimp only
        by_cases hlt : lblk + len - 1 < n.es.lblk
        · rw [if_pos hlt]
          obtain ⟨pre, post, hnodes, hpre, -⟩ := firstFrom_eq_some h.toSound hsearch
          have hpair := pairwise_nodes h.normal
          rw [hnodes] at hpair
          refine hinsert fun p hp => ?_
          obtain ⟨x, hx, rfl⟩ := List.mem_map.mp hp
          have hx' := hx
          rw [hnodes] at hx'
          have hhi : (newExtent lblk len pblk status).piece.hi = lblk + len := rfl
          rcases List.mem_append.mp hx' with hx' | hx'
          · exact Or.inl (hbefore x hx (hpre x hx'))
          · right
            rw [hhi, Extent.piece_lo]
            rcases List.mem_cons.mp hx' with rfl | hx'
            · omega
            · have := (List.pairwise_cons.mp (List.pairwise_append.mp hpair).2.1).1 x hx'
              omega
        · rw [if_neg hlt]
          exact ⟨i, m, rfl, h, hm, Or.inl rfl⟩

/-- `cache_es` does not dangle, and what is in it is in the tree. -/
theorem cached_spec (h : i.Inv) (lblk : ℕ) :
    ∃ c, i.cached lblk = some c ∧
      ∀ n ∈ c, n ∈ i.nodes ∧ n.es.piece.covers lblk = true := by
  unfold Inode.cached
  cases hc : i.cache with
  | none => exact ⟨none, rfl, by simp⟩
  | some a =>
      obtain ⟨n, hn, ha⟩ := h.cache a hc
      have hsome : (i.nodeAt a).isSome = true := by
        rw [Inode.nodeAt, List.find?_isSome]
        exact ⟨n, hn, by rw [← ha]; exact isAt_self n⟩
      obtain ⟨x, hx⟩ := Option.isSome_iff_exists.mp hsome
      have hxmem : x ∈ i.nodes := List.mem_of_find?_eq_some hx
      refine ⟨_, by dsimp only; rw [hx, Option.map_some], fun y hy => ?_⟩
      split_ifs at hy with hr
      · obtain rfl := Option.some.inj hy
        refine ⟨hxmem, ?_⟩
        have hpos : 0 < x.es.len := (h.valid _ (mem_pieces hxmem)).pos
        simp only [inRange, Bool.and_eq_true, decide_eq_true_eq] at hr
        rw [Piece.covers_iff, Extent.piece_hi, Extent.piece_lo]
        omega
      · cases hy

theorem covers_of_side (h : side lblk n = .stop) (hn : Valid n.es.piece) :
    n.es.piece.covers lblk = true := by
  have := valid_last hn
  unfold side at h
  split_ifs at h with h₁ h₂
  rw [Piece.covers_iff, Extent.piece_hi, Extent.piece_lo]
  omega

theorem side_of_covers (h : n.es.piece.covers lblk = true) : side lblk n = .stop := by
  rw [Piece.covers_iff, Extent.piece_hi, Extent.piece_lo] at h
  unfold side Extent.last
  rw [if_neg (by omega), if_neg (by omega)]

/-- An extent of the tree says what is so. -/
theorem says_of_mem (h : i.Inv) (hm : Forgets m i.map) (hn : n ∈ i.nodes) : m.Says n.es :=
  fun _ hb => hm.eq_of_some (h.normal.meaning_of_mem (mem_pieces hn) hb)

/-- Changing a node's referenced bit changes nothing else. -/
theorem inv_setReferenced (h : i.Inv) (hn : n ∈ i.nodes) :
    (i.put (n.withEs n.es.setReferenced)).Inv ∧
      (i.put (n.withEs n.es.setReferenced)).map = i.map := by
  obtain ⟨pre, post, hnodes⟩ := List.append_of_mem hn
  have hholds := h.holds
  rw [hnodes] at hholds
  have hpiece : n.es.setReferenced.piece = n.es.piece := by
    show (⟨n.es.lblk, n.es.len, n.es.setReferenced.value⟩ : Piece Value) = _
    rw [Extent.value_setReferenced]
    rfl
  have hput := hholds.withEs (show n.es.setReferenced.isDelayed = n.es.isDelayed by
    rw [← delayed_value, ← delayed_value, Extent.value_setReferenced])
  have hpieces : pieces (pre ++ n.withEs n.es.setReferenced :: post) = pieces i.nodes := by
    rw [hnodes, pieces_append, pieces_append, pieces_cons, pieces_cons, Node.withEs_es, hpiece]
  refine ⟨Inode.Inv.of_holds hput ?_ ?_ fun a ha => ?_, ?_⟩
  · rw [hpieces]
    exact h.valid
  · rw [hpieces]
    exact h.normal
  · obtain ⟨x, hx, hxa⟩ := h.cache a ha
    rw [hnodes] at hx
    rcases List.mem_append.mp hx with hx | hx
    · exact ⟨x, List.mem_append_left _ hx, hxa⟩
    · rcases List.mem_cons.mp hx with rfl | hx
      · exact ⟨x.withEs x.es.setReferenced, by simp, hxa⟩
      · exact ⟨x, by simp [hx], hxa⟩
  · funext b
    rw [Inode.map, hput.nodes, hpieces]
    rfl

/-- `ext4_es_lookup_extent` -/
theorem esLookupExtent_answers (h : i.Inv) (hm : Forgets m i.map) (lblk : ℕ) :
    ∃ r j, esLookupExtent i lblk = some (r, j) ∧ j.Inv ∧ Forgets m j.map ∧
      Answers m m (.lookup lblk) (.found r) := by
  obtain ⟨c, hc, hcache⟩ := cached_spec h lblk
  unfold esLookupExtent
  rw [hc, Option.bind_some, h.toSound.descend_eq, orSearch_some, Option.map_some]
  have hord := ordered_side h.valid h.normal lblk
  cases hfound : c.or (find (side lblk) i.root) with
  | none =>
      obtain ⟨-, hfind⟩ := Option.or_eq_none_iff.mp hfound
      refine ⟨none, i, rfl, h, hm, rfl, undelayed_of_map_none hm (meaning_eq_none ?_)⟩
      intro p hp
      obtain ⟨n, hn, rfl⟩ := List.mem_map.mp hp
      exact Bool.eq_false_of_not_eq_true fun hcov =>
        find_side_eq_none hord hfind n hn (side_of_covers hcov)
  | some n =>
      have hn : n ∈ i.nodes ∧ n.es.piece.covers lblk = true := by
        rcases Option.or_eq_some_iff.mp hfound with hn | ⟨-, hn⟩
        · exact hcache n hn
        · obtain ⟨hmem, hstop⟩ := find_eq_some hn
          exact ⟨hmem, covers_of_side hstop (h.valid _ (mem_pieces hmem))⟩
      dsimp only
      by_cases href : n.es.isReferenced = true
      · rw [if_pos href]
        exact ⟨some n.es, i, rfl, h, hm, rfl, hn.2, says_of_mem h hm hn.1⟩
      · rw [if_neg href]
        obtain ⟨hinv, hmap⟩ := inv_setReferenced h hn.1
        exact ⟨some n.es, _, rfl, hinv, hmap ▸ hm, rfl, hn.2, says_of_mem h hm hn.1⟩

/-- The loop finds the first delayed extent, or none that starts in the range. -/
theorem nextDelayed_spec (last : ℕ) (l : List Node)
    (hl : l.Pairwise fun m n => m.es.lblk + m.es.len ≤ n.es.lblk) :
    (nextDelayed last l = none ∧ ∀ x ∈ l, x.es.isDelayed = true → last < x.es.lblk) ∨
      ∃ pre n post, nextDelayed last l = some n ∧ l = pre ++ n :: post ∧
        n.es.isDelayed = true ∧ ∀ x ∈ pre, x.es.isDelayed = false := by
  induction l with
  | nil => exact Or.inl ⟨rfl, by simp⟩
  | cons n l ih =>
      obtain ⟨hn, hl'⟩ := List.pairwise_cons.mp hl
      rw [nextDelayed]
      by_cases hlast : last < n.es.lblk
      · refine Or.inl ⟨if_pos hlast, fun x hx _ => ?_⟩
        rcases List.mem_cons.mp hx with rfl | hx
        · exact hlast
        · have := hn x hx
          omega
      · rw [if_neg hlast]
        by_cases hd : n.es.isDelayed = true
        · rw [if_pos hd]
          exact Or.inr ⟨[], n, l, rfl, rfl, hd, by simp⟩
        · rw [if_neg hd]
          rcases ih hl' with ⟨hnone, hall⟩ | ⟨pre, x, post, hsome, rfl, hx, hpre⟩
          · refine Or.inl ⟨hnone, fun x hx hxd => ?_⟩
            rcases List.mem_cons.mp hx with rfl | hx
            · exact absurd hxd hd
            · exact hall x hx hxd
          · refine Or.inr ⟨n :: pre, x, post, hsome, rfl, hx, fun y hy => ?_⟩
            rcases List.mem_cons.mp hy with rfl | hy
            · exact Bool.eq_false_of_not_eq_true hd
            · exact hpre y hy

/-- A block is not delayed if no delayed extent of the tree has it. -/
theorem undelayed_of_nodes (hm : Forgets m i.map) {b : ℕ}
    (h : ∀ n ∈ i.nodes, n.es.isDelayed = true → n.es.piece.covers b = false) :
    m.Undelayed b := by
  intro v hv
  refine Bool.eq_false_of_not_eq_true fun hd => ?_
  obtain ⟨p, hp, hcov, rfl⟩ := exists_of_meaning (hm.eq_of_delayed hv hd)
  obtain ⟨n, hn, rfl⟩ := List.mem_map.mp hp
  rw [delayed_valAt, Extent.piece_val, delayed_value] at hd
  rw [h n hn hd] at hcov
  cases hcov

/-- Where the search starts: nothing before it reaches the block. -/
theorem findDelayed_start (h : i.Inv) {c : Option Node}
    (hcache : ∀ n ∈ c, n ∈ i.nodes ∧ n.es.piece.covers lblk = true)
    (hstart : c.or (firstFrom i.root lblk) = some n) :
    ∃ pre post, i.nodes = pre ++ n :: post ∧ (∀ x ∈ pre, x.es.last < lblk) ∧
      lblk ≤ n.es.last := by
  rcases Option.or_eq_some_iff.mp hstart with hn | ⟨-, hn⟩
  · obtain ⟨hmem, hcov⟩ := hcache n hn
    obtain ⟨pre, post, hnodes⟩ := List.append_of_mem hmem
    have hpair := pairwise_nodes h.normal
    rw [hnodes] at hpair
    rw [Piece.covers_iff, Extent.piece_hi, Extent.piece_lo] at hcov
    have hend := valid_last (h.valid _ (mem_pieces hmem))
    refine ⟨pre, post, hnodes, fun x hx => ?_, by omega⟩
    have h₁ := (List.pairwise_append.mp hpair).2.2 x hx n List.mem_cons_self
    have hxmem : x ∈ i.nodes := by
      rw [hnodes]
      exact List.mem_append_left _ hx
    have h₂ := valid_last (h.valid _ (mem_pieces hxmem))
    omega
  · exact firstFrom_eq_some h.toSound hn

/-- Nothing is found if every delayed extent ends before the range or begins behind it. -/
theorem findDelayed_none (h : i.Inv) (hm : Forgets m i.map) {last : ℕ}
    (hout : ∀ n ∈ i.nodes, n.es.isDelayed = true → n.es.last < lblk ∨ last < n.es.lblk) :
    Answers m m (.findDelayed lblk last) (.found none) := by
  refine ⟨rfl, fun b hlo hhi => undelayed_of_nodes hm fun n hn hd => ?_⟩
  have h₁ := valid_last (h.valid _ (mem_pieces hn))
  have h₂ := hout n hn hd
  rw [Bool.eq_false_iff, ne_eq, Piece.covers_iff, Extent.piece_hi, Extent.piece_lo]
  omega

/-- The extent that is found, with the extents before the start of the search and those between
the start and it. -/
theorem findDelayed_some (h : i.Inv) (hm : Forgets m i.map) {last : ℕ} {pre rest : List Node}
    (mid : List Node) {x : Node} (hnodes : i.nodes = pre ++ (mid ++ x :: rest))
    (hpre : ∀ y ∈ pre, y.es.last < lblk) (hmid : ∀ y ∈ mid, y.es.isDelayed = false)
    (hx : x.es.isDelayed = true) (hend : lblk ≤ x.es.last) :
    Inode.Inv { i with cache := some x.addr } ∧
      Answers m m (.findDelayed lblk last) (.found (some x.es)) := by
  have hmem : x ∈ i.nodes := by
    rw [hnodes]
    simp
  refine ⟨Inode.Inv.of_holds (h.holds.setCache _) h.valid h.normal fun a ha =>
    ⟨x, hmem, Option.some.inj ha⟩, rfl, hx, says_of_mem h hm hmem, hend, ?_⟩
  intro b hlo hhi
  refine undelayed_of_nodes hm fun y hy hyd => ?_
  have h₁ := valid_last (h.valid _ (mem_pieces hy))
  have hpair := pairwise_nodes h.normal
  rw [hnodes] at hy hpair
  rw [Bool.eq_false_iff, ne_eq, Piece.covers_iff, Extent.piece_hi, Extent.piece_lo]
  rcases List.mem_append.mp hy with hy | hy
  · have h₂ := hpre y hy
    omega
  · rcases List.mem_append.mp hy with hy | hy
    · rw [hmid y hy] at hyd
      cases hyd
    · rcases List.mem_cons.mp hy with rfl | hy
      · omega
      · have h₂ := (List.pairwise_cons.mp (List.pairwise_append.mp
          (List.pairwise_append.mp hpair).2.1).2.1).1 y hy
        omega

/-- `ext4_es_find_delayed_extent_range` -/
theorem esFindDelayed_answers (h : i.Inv) (hm : Forgets m i.map) {last : ℕ}
    (hle : lblk ≤ last) :
    ∃ r j, esFindDelayedExtentRange i lblk last = some (r, j) ∧ j.Inv ∧ Forgets m j.map ∧
      Answers m m (.findDelayed lblk last) (.found r) := by
  obtain ⟨c, hc, hcache⟩ := cached_spec h lblk
  unfold esFindDelayedExtentRange
  rw [if_neg (Nat.not_lt.mpr hle), hc, Option.bind_some, h.toSound.treeSearch_eq, orSearch_some,
    Option.map_some]
  cases hstart : c.or (firstFrom i.root lblk) with
  | none =>
      obtain ⟨-, hsearch⟩ := Option.or_eq_none_iff.mp hstart
      exact ⟨none, i, rfl, h, hm, findDelayed_none h hm fun n hn _ =>
        Or.inl (firstFrom_eq_none h.toSound hsearch n hn)⟩
  | some n =>
      obtain ⟨pre, post, hnodes, hpre, hend⟩ := findDelayed_start h hcache hstart
      dsimp only
      by_cases hd : n.es.isDelayed = true
      · rw [if_pos hd]
        obtain ⟨hinv, hans⟩ := findDelayed_some h hm [] hnodes hpre (by simp) hd hend
        exact ⟨some n.es, _, rfl, hinv, hm, hans⟩
      · have hd' := Bool.eq_false_of_not_eq_true hd
        have hpair := pairwise_nodes h.normal
        have hnodup := h.holds.nodup
        rw [hnodes] at hpair hnodup
        obtain ⟨-, hpair, -⟩ := List.pairwise_append.mp hpair
        have htail : (tail (isAt n.addr) i.nodes).tail = post := by
          rw [hnodes, tail_eq (not_isAt_of_nodup hnodup).1 (isAt_self n), List.tail_cons]
        rw [if_neg hd, htail]
        rcases nextDelayed_spec last post (List.pairwise_cons.mp hpair).2 with
          ⟨hnone, hall⟩ | ⟨mid, x, rest, hsome, rfl, hx, hmid⟩
        · rw [hnone]
          refine ⟨none, i, rfl, h, hm, findDelayed_none h hm fun y hy hyd => ?_⟩
          rw [hnodes] at hy
          rcases List.mem_append.mp hy with hy | hy
          · exact Or.inl (hpre y hy)
          · rcases List.mem_cons.mp hy with rfl | hy
            · exact absurd hyd hd
            · exact Or.inr (hall y hy hyd)
        · rw [hsome]
          have hxend : lblk ≤ x.es.last := by
            have h₁ := valid_last (h.valid _ (mem_pieces (n := x) (by rw [hnodes]; simp)))
            have h₂ := valid_last (h.valid _ (mem_pieces (n := n) (by rw [hnodes]; simp)))
            have h₃ := (List.pairwise_cons.mp hpair).1 x (by simp)
            omega
          obtain ⟨hinv, hans⟩ := findDelayed_some h hm (n :: mid) hnodes hpre
            (List.forall_mem_cons.mpr ⟨hd', hmid⟩) hx hxend
          exact ⟨some x.es, _, rfl, hinv, hm, hans⟩

/-- **One operation** is possible and answers as on the map. -/
theorem step_answers (h : i.Inv) (hm : Forgets m i.map) {a : Act} (ha : a.sensible = true) :
    ∃ o j m', step rb i a = some (o, j) ∧ j.Inv ∧ Forgets m' j.map ∧ Answers m m' a o := by
  cases a with
  | insert lblk len pblk status rem ins =>
      obtain ⟨r, j, m', hres, hj, hm', hans⟩ := esInsertExtent_answers rb h hm ha rem ins
      exact ⟨.ret r, j, m', by rw [step, hres]; rfl, hj, hm', hans⟩
  | cache lblk len pblk status alloc =>
      obtain ⟨j, m', hres, hj, hm', hans⟩ := esCacheExtent_answers rb h hm ha alloc
      exact ⟨.done, j, m', by rw [step, hres]; rfl, hj, hm', hans⟩
  | remove lblk len rem =>
      obtain ⟨r, j, m', hres, hj, hm', hans⟩ :=
        esRemoveExtent_answers rb h hm (of_decide_eq_true ha) rem
      exact ⟨.ret r, j, m', by rw [step, hres]; rfl, hj, hm', hans⟩
  | lookup lblk =>
      obtain ⟨r, j, hres, hj, hm', hans⟩ := esLookupExtent_answers h hm lblk
      exact ⟨.found r, j, m, by rw [step, hres]; rfl, hj, hm', hans⟩
  | findDelayed lblk last =>
      obtain ⟨r, j, hres, hj, hm', hans⟩ := esFindDelayed_answers h hm (of_decide_eq_true ha)
      exact ⟨.found r, j, m, by rw [step, hres]; rfl, hj, hm', hans⟩
  | reclaim toScan =>
      obtain ⟨k, j, hres, hj, hkept⟩ := reclaimExtents_spec rb h toScan
      exact ⟨.done, j, m, by rw [step, hres]; rfl, hj, hm.trans (hkept.forgets h.normal), rfl⟩

end Operations

/-! ### Runs -/

section Runs

variable (rb : Balancer Node)

/-- An operation, with its answer written down. -/
def logged (s : Inode × List Out) (a : Act) : Option (Inode × List Out) :=
  (step rb s.1 a).map fun r => (r.2, s.2 ++ [r.1])

/-- The answers are those of the map, from `m` to `m'`. -/
def Traced (m : Blocks) : List Act → List Out → Blocks → Prop
  | [], [], m' => m' = m
  | a :: as, o :: os, m' => ∃ m₁, Answers m m₁ a o ∧ Traced m₁ as os m'
  | _, _, _ => False

theorem run_traced {as : List Act} (h : i.Inv) (hm : Forgets m i.map)
    (has : ∀ a ∈ as, a.sensible = true) (os₀ : List Out) :
    ∃ j os m', Run.run (logged rb) (i, os₀) as = some (j, os₀ ++ os) ∧ j.Inv ∧
      Forgets m' j.map ∧ Traced m as os m' := by
  induction as generalizing i m os₀ with
  | nil => exact ⟨i, [], m, by rw [Run.run_nil, List.append_nil], h, hm, rfl⟩
  | cons a as ih =>
      obtain ⟨o, j, m₁, hstep, hj, hm₁, hans⟩ := step_answers rb h hm (has a List.mem_cons_self)
      obtain ⟨k, os, m', hrun, hk, hm', htraced⟩ :=
        ih hj hm₁ (fun b hb => has b (List.mem_cons_of_mem a hb)) (os₀ ++ [o])
      refine ⟨k, o :: os, m', ?_, hk, hm', m₁, hans, htraced⟩
      refine Run.run_cons_eq_some.mpr ⟨(j, os₀ ++ [o]), ?_, by simpa using hrun⟩
      rw [logged, hstep]
      rfl

/-- **The extent status tree is a map.**  If the arguments make sense, then whatever allocations
fail, whatever the shrinker does and however the tree is balanced, the operations never hit a
`BUG_ON` and never follow a pointer to a freed extent, and they answer as on a map from blocks to
what is known about them; the tree has forgotten only blocks that the map does not know to be
delayed. -/
theorem es_tree_refines_map (as : List Act) (has : ∀ a ∈ as, a.sensible = true) :
    ∃ i os m, Run.run (logged rb) (Inode.empty, []) as = some (i, os) ∧
      Traced (fun _ => none) as os m ∧ Forgets m i.map := by
  obtain ⟨i, os, m, hrun, -, hm, htraced⟩ := run_traced rb Inode.Inv.empty
    (Forgets.refl _) has []
  exact ⟨i, os, m, hrun, htraced, hm⟩

/-- The blocks from 3 on are split off by a removal whose first allocation fails, so that the
shrinker comes; then they are looked up, and delayed blocks are found. -/
def splitRun : List Act :=
  [.insert 0 10 100 statusWritten [] [], .lookup 4, .insert 20 5 0 statusDelayed [] [],
    .remove 3 2 [⟨0, 128⟩, ⟨1, 0⟩], .lookup 7, .findDelayed 0 30, .reclaim 4, .lookup 1]

theorem es_tree_refines_map_split :
    ∃ i os m, Run.run (logged (Balancer.plain Node)) (Inode.empty, []) splitRun = some (i, os) ∧
      Traced (fun _ => none) splitRun os m ∧ Forgets m i.map :=
  es_tree_refines_map _ splitRun (by decide +kernel)

-- Delayed blocks are lost when the delayed extent that replaces them cannot be recorded.
example : ∃ s, Run.run (logged (Balancer.plain Node)) (Inode.empty, [])
      [.insert 0 5 0 statusDelayed [] [],
        .insert 0 5 0 (statusUnwritten ||| statusDelayed) [] [⟨0, 0⟩]] = some s ∧
    s.1.nodes = [] ∧ s.2 = [.ret .ok, .ret .nomem] := by
  decide +kernel

-- An extent that ends with the last number of 32 bits hits the `BUG_ON` of `ext4_es_end`.
example : Run.run (logged (Balancer.plain Node)) (Inode.empty, [])
    [.insert (2 ^ 32 - 4) 4 0 statusHole [] [], .remove (2 ^ 32 - 2) 1 []] = none := by
  decide +kernel

/-- **Trees that know the same are the same.**  Two runs, of different operations with arguments
that make sense, on trees that are balanced in different ways, whose trees agree on what is known
about every block, end with the same extents up to the referenced bit: the same blocks in the
same number of pieces, with the same counters. -/
theorem es_tree_determined_by_map (rb' : Balancer Node) (as as' : List Act) (i i' : Inode)
    (os os' : List Out) (has : ∀ a ∈ as, a.sensible = true)
    (has' : ∀ a ∈ as', a.sensible = true)
    (hrun : Run.run (logged rb) (Inode.empty, []) as = some (i, os))
    (hrun' : Run.run (logged rb') (Inode.empty, []) as' = some (i', os'))
    (hmap : ∀ b, i.map b = i'.map b) :
    pieces i.nodes = pieces i'.nodes ∧ i.allNr = i'.allNr ∧ i.shkNr = i'.shkNr ∧
      i.listed = i'.listed := by
  obtain ⟨j, _, _, hj, hinv, -⟩ := run_traced rb Inode.Inv.empty (Forgets.refl _) has []
  obtain ⟨j', _, _, hj', hinv', -⟩ := run_traced rb' Inode.Inv.empty (Forgets.refl _) has' []
  obtain ⟨rfl, -⟩ := Prod.mk.inj (Option.some.inj (hrun.symm.trans hj))
  obtain ⟨rfl, -⟩ := Prod.mk.inj (Option.some.inj (hrun'.symm.trans hj'))
  have hpieces := hinv.normal.ext hinv'.normal hmap
  have hcount : ∀ l : List Node, (l.countP fun n => !n.es.isDelayed) =
      (pieces l).countP fun p => !p.val.delayed := by
    intro l
    rw [pieces, List.countP_map]
    exact List.countP_congr fun n _ => by
      simp only [Function.comp_apply, Extent.piece_val, delayed_value]
  have hshk : i.shkNr = i'.shkNr := by
    rw [hinv.holds.shk, hinv'.holds.shk, hcount, hcount, hpieces]
  refine ⟨hpieces, ?_, hshk, by rw [hinv.holds.listed, hinv'.holds.listed, hshk]⟩
  have hlen := congrArg List.length hpieces
  rwa [pieces, pieces, List.length_map, List.length_map, ← hinv.holds.all,
    ← hinv'.holds.all] at hlen

/-- Three extents that are put together in the middle, and the same as one. -/
theorem es_tree_determined_by_map_merged :
    ∃ i os i' os', Run.run (logged (Balancer.plain Node)) (Inode.empty, [])
        [.insert 0 4 100 statusWritten [] [], .insert 8 4 108 statusWritten [] [],
          .insert 4 4 104 statusWritten [] []] = some (i, os) ∧
      Run.run (logged (Balancer.plain Node)) (Inode.empty, [])
        [.insert 0 12 100 statusWritten [] []] = some (i', os') ∧ i.allNr = i'.allNr := by
  obtain ⟨⟨i, os⟩, hrun, ⟨i', os'⟩, hrun', hpieces⟩ :
      ∃ s, Run.run (logged (Balancer.plain Node)) (Inode.empty, [])
          [.insert 0 4 100 statusWritten [] [], .insert 8 4 108 statusWritten [] [],
            .insert 4 4 104 statusWritten [] []] = some s ∧
        ∃ s', Run.run (logged (Balancer.plain Node)) (Inode.empty, [])
          [.insert 0 12 100 statusWritten [] []] = some s' ∧
          pieces s.1.nodes = pieces s'.1.nodes := by
    decide +kernel
  refine ⟨i, os, i', os', hrun, hrun', ?_⟩
  exact (es_tree_determined_by_map _ _ _ _ i i' os os' (by decide +kernel) (by decide +kernel)
    hrun hrun' fun b => congrArg (fun l => meaning l b) hpieces).2.1

end Runs

end CcNvme.ExtentStatus

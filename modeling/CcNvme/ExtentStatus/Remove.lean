/-
CcNvme/ExtentStatus/Remove.lean

`__es_remove_extent`.  An extent that reaches over both ends of the range is split, which takes
an allocation; if that fails, the extent is as it was before.  Otherwise the extents afterwards
are those of `IntervalMap.remove` (`removeExtent_spec`).
-/
import CcNvme.ExtentStatus.Insert
import CcNvme.ExtentStatus.Reclaim

namespace CcNvme.ExtentStatus

open SearchTree IntervalMap

variable {i : Inode} {pre post : List Node} {n : Node} {es : Extent} {lblk last : ℕ}

/-! ### What is left of an extent -/

section Trim

theorem physOf_sub (v w : BitVec 64) : physOf (v - w) = physOf v - physOf w := by
  rw [BitVec.eq_sub_iff_add_eq, ← physOf_add, BitVec.sub_add_cancel]

theorem physOf_ofNat (k : ℕ) : physOf (BitVec.ofNat 64 k) = BitVec.ofNat 59 k :=
  BitVec.setWidth_ofNat_of_le (by decide) k

theorem physOf_pblock (es : Extent) : physOf es.pblock = es.phys := by
  rw [Extent.pblock_eq, physOf, BitVec.setWidth_setWidth_of_le _ (by decide),
    BitVec.setWidth_eq]

/-- The block number of the rest: the length of what is cut off is added. -/
theorem physOf_rest (v : BitVec 64) {a b : ℕ} (h : b ≤ a) :
    physOf (v + BitVec.ofNat 64 a - BitVec.ofNat 64 b) = physOf v + BitVec.ofNat 59 (a - b) := by
  rw [physOf_sub, physOf_add, physOf_ofNat, physOf_ofNat]
  have hsum : BitVec.ofNat 59 a = BitVec.ofNat 59 (a - b) + BitVec.ofNat 59 b := by
    rw [← BitVec.ofNat_add, Nat.sub_add_cancel h]
  rw [hsum, ← BitVec.add_assoc, BitVec.add_sub_cancel]

variable (hpos : 0 < es.len) (hlo : es.lblk ≤ last) (hhi : last < es.last)

include hpos hlo hhi in
theorem value_trimFront :
    (trimFront es last).value = (last + 1 - es.lblk) +ᵥ es.value := by
  unfold Extent.last at *
  unfold trimFront
  dsimp only
  rw [Extent.mapped_eq]
  show Extent.value (if kindMapped es.kind = true then _ else _) = _
  by_cases hm : kindMapped es.kind = true
  · rw [if_pos hm, Extent.value, Extent.kind_storePblock, Extent.phys_storePblock,
      physOf_rest _ (by unfold Extent.last; omega)]
    show (⟨es.kind, if kindMapped es.kind = true then _ else _⟩ : Value) = _
    rw [if_pos hm, vadd_value, Extent.value, if_pos hm]
    congr 4
    unfold Extent.last
    omega
  · rw [if_neg hm]
    show (⟨es.kind, if kindMapped es.kind = true then _ else _⟩ : Value) = _
    rw [if_neg hm, vadd_value, Extent.value, if_neg hm]
    rfl

include hpos hlo hhi in
theorem value_splitOff : (splitOff es last).value = (last + 1 - es.lblk) +ᵥ es.value := by
  unfold Extent.last at *
  unfold splitOff
  dsimp only
  rw [Extent.value, Extent.kind_storePblockStatus, Extent.phys_storePblockStatus,
    Extent.setWidth_status, Extent.mapped_eq, vadd_value, Extent.value]
  by_cases hm : kindMapped es.kind = true
  · rw [if_pos hm, if_pos hm, if_pos hm, physOf_rest _ (by unfold Extent.last; omega),
      physOf_pblock]
    congr 4
    unfold Extent.last
    omega
  · rw [if_neg hm, if_neg hm]
    rfl

include hpos hlo hhi in
theorem above_eq : above (last + 1) es.piece =
    [⟨last + 1, es.last - last, (last + 1 - es.lblk) +ᵥ es.value⟩] := by
  unfold Extent.last at *
  rw [above, Extent.piece_hi, if_pos (by omega), Extent.piece_lo, Nat.max_eq_right (by omega),
    Extent.piece_val]
  congr 2
  omega

include hpos hlo hhi in
theorem piece_trimFront : above (last + 1) es.piece = [(trimFront es last).piece] := by
  rw [above_eq hpos hlo hhi, Extent.piece, value_trimFront hpos hlo hhi]
  unfold trimFront
  dsimp only
  split_ifs <;> rfl

include hpos hlo hhi in
theorem piece_splitOff : above (last + 1) es.piece = [(splitOff es last).piece] := by
  rw [above_eq hpos hlo hhi, Extent.piece, value_splitOff hpos hlo hhi]
  rfl

include hpos hlo hhi in
theorem isDelayed_trimFront : (trimFront es last).isDelayed = es.isDelayed := by
  rw [← delayed_value, ← delayed_value, value_trimFront hpos hlo hhi]
  rfl

end Trim

/-! ### The loop that erases -/

section Erase

variable (rb : Balancer Node)

/-- `done` are the nodes before those that the loop runs over. -/
theorem eraseRange_spec (lblk last : ℕ) (todo done : List Node) (h : Holds i (done ++ todo))
    (hvalid : ∀ p ∈ pieces todo, Valid p) (hnormal : Normal (pieces todo))
    (hlo : ∀ n ∈ todo, lblk ≤ n.es.lblk) (hle : lblk ≤ last) :
    ∃ j todo', eraseRange rb last todo i = some j ∧ Holds j (done ++ todo') ∧
      j.cache = i.cache ∧ pieces todo' = remove lblk (last + 1) (pieces todo) := by
  induction todo generalizing i with
  | nil => exact ⟨i, [], rfl, h, rfl, rfl⟩
  | cons n rest ih =>
      have hn := hvalid n.es.piece (mem_pieces List.mem_cons_self)
      have hend := valid_last hn
      have hnpos : 0 < n.es.len := hn.pos
      have hnlo := hlo n List.mem_cons_self
      obtain ⟨-, hbefore, hnormal'⟩ := normal_cons.mp hnormal
      rw [pieces_cons, remove_cons]
      unfold eraseRange
      rw [if_neg (Bool.eq_false_iff.mp (wraps_of_valid hn))]
      by_cases hlast : n.es.last ≤ last
      · obtain ⟨j, hj, hholds, hcache⟩ := h.erase rb
        obtain ⟨j', rest', hj', hholds', hcache', hpieces⟩ := ih hholds
          (fun p hp => hvalid p (List.mem_cons_of_mem _ hp)) hnormal'
          fun m hm => hlo m (List.mem_cons_of_mem n hm)
        rw [if_pos hlast, hj]
        refine ⟨j', rest', hj', hholds', hcache'.trans hcache, ?_⟩
        rw [hpieces, cut_inside hnlo (by rw [Extent.piece_hi]; omega)]
        rfl
      · -- nothing after `n` is in the range
        have hrest : remove lblk (last + 1) (pieces rest) = pieces rest := by
          refine remove_eq_self (by omega) hnormal'.pos fun p hp => Or.inr ?_
          have := (hbefore p hp).1
          rw [Extent.piece_hi] at this
          omega
        rw [if_neg hlast, hrest]
        by_cases hin : n.es.lblk < last + 1
        · rw [if_pos hin]
          have htrim := piece_trimFront hnpos (Nat.lt_succ_iff.mp hin) (Nat.lt_of_not_le hlast)
          have hput := h.withEs (isDelayed_trimFront hnpos (Nat.lt_succ_iff.mp hin)
            (Nat.lt_of_not_le hlast))
          refine ⟨_, n.withEs (trimFront n.es last) :: rest, rfl, hput, rfl, ?_⟩
          rw [cut, htrim, below, if_neg (by rw [Extent.piece_lo]; omega)]
          rfl
        · rw [if_neg hin]
          refine ⟨i, n :: rest, rfl, h, rfl, ?_⟩
          rw [cut_after (by omega) (by rw [Extent.piece_lo]; omega) hn.pos]
          rfl

end Erase

/-! ### One attempt -/

section Once

variable (rb : Balancer Node)

theorem valid_remove {l : List (Piece Value)} (hvalid : ∀ p ∈ l, Valid p) {lo hi : ℕ} :
    ∀ p ∈ remove lo hi l, Valid p := by
  intro p hp
  obtain ⟨q, hq, hp⟩ := List.mem_flatMap.mp hp
  exact (hvalid q hq).cut p hp

/-- The tree after extents were removed and `cache_es` was reset. -/
theorem Inode.Inv.of_remove {j : Inode} {l : List Node} {lo hi : ℕ} (h : i.Sound)
    (hj : Holds j l) (hpieces : pieces l = remove lo hi (pieces i.nodes)) (hlt : lo < hi)
    (hcache : j.cache = none) : j.Inv := by
  refine Inode.Inv.of_holds hj ?_ ?_ fun a ha => ?_
  · rw [hpieces]
    exact valid_remove h.valid
  · rw [hpieces]
    exact h.normal.remove hlt
  · rw [hcache] at ha
    cases ha

/-- What `__es_tree_search` found: nothing before it is in the range. -/
theorem remove_pieces_split (hnormal : Normal (pieces (pre ++ n :: post))) (hle : lblk ≤ last)
    (hpre : ∀ m ∈ pre, m.es.last < lblk) (hvalid : ∀ p ∈ pieces (pre ++ n :: post), Valid p) :
    remove lblk (last + 1) (pieces (pre ++ n :: post)) =
      pieces pre ++ (cut lblk (last + 1) n.es.piece ++ remove lblk (last + 1) (pieces post)) := by
  rw [pieces_append, pieces_cons] at *
  rw [remove_append, remove_cons, remove_eq_self (by omega) (normal_append.mp hnormal).1.pos]
  intro p hp
  obtain ⟨m, hm, rfl⟩ := List.mem_map.mp hp
  have h₁ := hpre m hm
  have h₂ := valid_last (hvalid _ (List.mem_append_left _ hp))
  rw [Extent.piece_hi]
  omega

/-- An extent that reaches over the end of the range is the last one that is touched. -/
theorem remove_post (hnormal : Normal (pieces (pre ++ n :: post))) (hle : lblk ≤ last)
    (hn : Valid n.es.piece) (hlast : last < n.es.last) :
    remove lblk (last + 1) (pieces post) = pieces post := by
  rw [pieces_append, pieces_cons] at hnormal
  obtain ⟨-, hbefore, hnormal'⟩ := normal_cons.mp (normal_append.mp hnormal).2.1
  refine remove_eq_self (by omega) hnormal'.pos fun p hp => Or.inr ?_
  have h₁ := (hbefore p hp).1
  have h₂ := valid_last hn
  rw [Extent.piece_hi] at h₁
  omega

theorem below_eq (hn : Valid n.es.piece) (hlt : n.es.lblk < lblk) (hle : lblk ≤ n.es.last) :
    below lblk n.es.piece = [(trimEnd n.es (lblk - n.es.lblk)).piece] := by
  have := valid_last hn
  rw [below, Extent.piece_lo, if_pos hlt, Extent.piece_hi, Nat.min_eq_right (by omega)]
  rfl

/-- The tree without the end of an extent: as if everything up to that end had been removed. -/
theorem pieces_trimEnd (hnormal : Normal (pieces (pre ++ n :: post)))
    (hvalid : ∀ p ∈ pieces (pre ++ n :: post), Valid p)
    (hpre : ∀ m ∈ pre, m.es.last < lblk) (hlt : n.es.lblk < lblk) (hle : lblk ≤ n.es.last) :
    pieces (pre ++ n.withEs (trimEnd n.es (lblk - n.es.lblk)) :: post) =
      remove lblk (n.es.lblk + n.es.len) (pieces (pre ++ n :: post)) := by
  have hn : Valid n.es.piece := hvalid _ (mem_pieces (by simp))
  have hend := valid_last hn
  have hsplit := remove_pieces_split hnormal hle hpre hvalid
  have hpost : remove lblk (n.es.lblk + n.es.len) (pieces post) = pieces post := by
    rw [pieces_append, pieces_cons] at hnormal
    obtain ⟨-, hbefore, hnormal'⟩ := normal_cons.mp (normal_append.mp hnormal).2.1
    exact remove_eq_self (by omega) hnormal'.pos fun p hp => Or.inr (hbefore p hp).1
  rw [hend] at hsplit
  rw [hsplit, cut, below_eq hn hlt hle, above, if_neg (by rw [Extent.piece_hi]; omega), hpost,
    pieces_append, pieces_cons]
  rfl

/-- The extent that was found reaches over both ends: it is split. -/
theorem insertExtent_splitOff {i₁ : Inode} (h : i.Inv) (hle : lblk ≤ last)
    (hnodes : i.nodes = pre ++ n :: post) (hlt : n.es.lblk < lblk) (hlast : last < n.es.last)
    (hi₁ : i₁.Inv)
    (hpieces : pieces i₁.nodes = remove lblk (n.es.lblk + n.es.len) (pieces i.nodes))
    (alloc : Bool) :
    (insertExtent rb i₁ (splitOff n.es last) alloc = some (.nomem, i₁) ∧ alloc = false) ∨
    ∃ j, insertExtent rb i₁ (splitOff n.es last) alloc = some (.ok, j) ∧ j.Inv ∧
      pieces j.nodes = remove lblk (last + 1) (pieces i.nodes) := by
  have hmem : n ∈ i.nodes := by
    rw [hnodes]
    simp
  have hn : Valid n.es.piece := h.valid _ (mem_pieces hmem)
  have hnpos : 0 < n.es.len := hn.pos
  have hend := valid_last hn
  have hnew : Valid (splitOff n.es last).piece := by
    have hcut : (splitOff n.es last).piece ∈ cut lblk (last + 1) n.es.piece := by
      rw [cut, piece_splitOff hnpos (by omega) hlast]
      exact List.mem_append_right _ (List.mem_singleton_self _)
    exact hn.cut _ hcut
  have hnewlo : (splitOff n.es last).piece.lo = last + 1 := rfl
  have hnewhi : (splitOff n.es last).piece.hi = n.es.lblk + n.es.len := by
    show last + 1 + (n.es.last - last) = _
    omega
  have hfree : Free (splitOff n.es last).piece (pieces i₁.nodes) := by
    intro p hp
    rw [hpieces] at hp
    rw [hnewlo, hnewhi]
    have := free_of_remove hp
    omega
  rcases insertExtent_spec rb hi₁ hnew hfree alloc with hres | ⟨j, hres, hj, hjp⟩
  · exact Or.inl hres
  · refine Or.inr ⟨j, hres, hj, ?_⟩
    -- both lists are in normal form and stand for the same map
    refine hj.normal.ext (h.normal.remove (by omega)) fun b => ?_
    rw [hjp, meaning_insert hi₁.normal hnew.pos hfree, hpieces, meaning_remove (by omega),
      meaning_remove (by omega)]
    by_cases hb : (splitOff n.es last).piece.covers b = true
    · have hb' := Piece.covers_iff.mp hb
      rw [hnewlo, hnewhi] at hb'
      have hcov : n.es.piece.covers b = true := by
        rw [Piece.covers_iff, Extent.piece_hi, Extent.piece_lo]
        omega
      have hval : (splitOff n.es last).piece.val = (last + 1 - n.es.lblk) +ᵥ n.es.value :=
        value_splitOff hnpos (by omega) hlast
      rw [if_pos hb, if_neg (by omega), h.normal.meaning_of_mem (mem_pieces hmem) hcov,
        Piece.valAt, hval, hnewlo, vadd_vadd, Piece.valAt, Extent.piece_val, Extent.piece_lo]
      congr 2
      omega
    · rw [if_neg hb]
      rw [Piece.covers_iff, hnewlo, hnewhi] at hb
      by_cases hin : lblk ≤ b ∧ b < last + 1
      · rw [if_pos (by omega), if_pos hin]
      · rw [if_neg (by omega), if_neg hin]

/-- `n` is the first extent of the tree that does not end before the block. -/
structure FirstFrom (i : Inode) (lblk : ℕ) (pre : List Node) (n : Node) (post : List Node) :
    Prop where
  inv : i.Inv
  nodes : i.nodes = pre ++ n :: post
  before : ∀ m ∈ pre, m.es.last < lblk
  reaches : lblk ≤ n.es.last

namespace FirstFrom

variable (h : FirstFrom i lblk pre n post)

include h

theorem holds : Holds i (pre ++ n :: post) := h.nodes ▸ h.inv.holds

theorem valid : ∀ p ∈ pieces (pre ++ n :: post), Valid p := h.nodes ▸ h.inv.valid

theorem normal : Normal (pieces (pre ++ n :: post)) := h.nodes ▸ h.inv.normal

theorem validFrom : ∀ p ∈ pieces (n :: post), Valid p := fun p hp =>
  h.valid p (pieces_append pre (n :: post) ▸ List.mem_append_right _ hp)

theorem validAt : Valid n.es.piece := h.validFrom _ (mem_pieces List.mem_cons_self)

theorem normalFrom : Normal (pieces (n :: post)) := by
  have hnormal := h.normal
  rw [pieces_append] at hnormal
  exact (normal_append.mp hnormal).2.1

theorem after {m : Node} (hm : m ∈ post) : n.es.lblk + n.es.len ≤ m.es.lblk :=
  ((normal_cons.mp h.normalFrom).2.1 _ (mem_pieces hm)).1

theorem remove_eq (hle : lblk ≤ last) : remove lblk (last + 1) (pieces i.nodes) =
    pieces pre ++ (cut lblk (last + 1) n.es.piece ++ remove lblk (last + 1) (pieces post)) := by
  rw [h.nodes]
  exact remove_pieces_split h.normal hle h.before h.valid

/-- The nodes that are left are those of the removal. -/
theorem removed {j : Inode} {l : List Node} (hle : lblk ≤ last) (hj : Holds j l)
    (hcache : j.cache = none) (hp : pieces l = remove lblk (last + 1) (pieces i.nodes)) :
    j.Inv ∧ pieces j.nodes = remove lblk (last + 1) (pieces i.nodes) :=
  ⟨Inode.Inv.of_remove h.inv.toSound hj hp (by omega) hcache, by rw [hj.nodes, hp]⟩

/-- The tree with the extent cut off at the start of the range. -/
theorem trimmed : Holds
    (Inode.put { i with cache := none } (n.withEs (trimEnd n.es (lblk - n.es.lblk))))
    (pre ++ n.withEs (trimEnd n.es (lblk - n.es.lblk)) :: post) :=
  (h.holds.setCache none).withEs (show (trimEnd n.es (lblk - n.es.lblk)).isDelayed =
    n.es.isDelayed from rfl)

/-- The extent reaches over both ends of the range. -/
theorem removeFrom_split (hle : lblk ≤ last) (hlt : n.es.lblk < lblk) (hlast : last < n.es.last)
    (alloc : Bool) :
    (∃ j, removeFrom rb i n lblk last alloc = some (.nomem, j) ∧ alloc = false ∧ j.Inv ∧
      pieces j.nodes = pieces i.nodes) ∨
    ∃ j, removeFrom rb i n lblk last alloc = some (.ok, j) ∧ j.Inv ∧
      pieces j.nodes = remove lblk (last + 1) (pieces i.nodes) := by
  have hpieces := pieces_trimEnd h.normal h.valid h.before hlt h.reaches
  rw [← h.nodes] at hpieces
  have hend := valid_last h.validAt
  unfold removeFrom
  simp only [if_pos (Nat.sub_pos_of_lt hlt), if_pos (Nat.sub_pos_of_lt hlast)]
  rcases insertExtent_splitOff rb h.inv hle h.nodes hlt hlast
    (Inode.Inv.of_remove h.inv.toSound h.trimmed hpieces (by omega) rfl)
    (by rw [h.trimmed.nodes, hpieces]) alloc with ⟨hres, halloc⟩ | ⟨j, hres, hj⟩
  · have hback := h.trimmed.put (n := n) rfl rfl
    rw [hres]
    refine Or.inl ⟨_, rfl, halloc, ?_, by rw [hback.nodes, h.nodes]⟩
    exact Inode.Inv.of_holds hback h.valid h.normal fun a ha => (by cases ha)
  · rw [hres]
    exact Or.inr ⟨j, rfl, hj⟩

/-- It reaches over the start only: its end goes, with what follows in the range. -/
theorem removeFrom_end (hle : lblk ≤ last) (hlt : n.es.lblk < lblk) (hlast : n.es.last ≤ last)
    (alloc : Bool) :
    ∃ j, removeFrom rb i n lblk last alloc = some (.ok, j) ∧ j.Inv ∧
      pieces j.nodes = remove lblk (last + 1) (pieces i.nodes) := by
  have hend := valid_last h.validAt
  have htail : tail (isAt n.addr) (Inode.nodes (Inode.put { i with cache := none }
      (n.withEs (trimEnd n.es (lblk - n.es.lblk))))) =
      n.withEs (trimEnd n.es (lblk - n.es.lblk)) :: post := by
    rw [h.trimmed.nodes]
    exact tail_eq (not_isAt_of_nodup h.trimmed.nodup).1 (isAt_self _)
  obtain ⟨j, post', hj, hjh, hjc, hjp⟩ := eraseRange_spec rb lblk last post
    (pre ++ [n.withEs (trimEnd n.es (lblk - n.es.lblk))])
    (by simpa using h.trimmed) (fun p hp => h.validFrom p (List.mem_cons_of_mem _ hp))
    (normal_cons.mp h.normalFrom).2.2
    (fun m hm => by
      have h₁ := h.after hm
      have h₂ := h.reaches
      omega) hle
  unfold removeFrom
  simp only [if_pos (Nat.sub_pos_of_lt hlt), if_neg (show ¬ 0 < n.es.last - last by omega)]
  rw [htail, List.tail_cons, hj]
  refine ⟨j, rfl, h.removed hle hjh hjc ?_⟩
  rw [h.remove_eq hle, cut, below_eq h.validAt hlt h.reaches, above,
    if_neg (by rw [Extent.piece_hi]; omega), pieces_append, pieces_append, hjp]
  simp

/-- It reaches over the end only. -/
theorem removeFrom_front (hle : lblk ≤ last) (hge : lblk ≤ n.es.lblk) (hin : n.es.lblk ≤ last)
    (hlast : last < n.es.last) (alloc : Bool) :
    ∃ j, removeFrom rb i n lblk last alloc = some (.ok, j) ∧ j.Inv ∧
      pieces j.nodes = remove lblk (last + 1) (pieces i.nodes) := by
  have hpos : 0 < n.es.len := h.validAt.pos
  have hput := ((h.holds.setCache none).put (n := n) rfl rfl).withEs
    (isDelayed_trimFront hpos hin hlast)
  unfold removeFrom
  simp only [if_neg (show ¬ 0 < lblk - n.es.lblk by omega), if_pos (Nat.sub_pos_of_lt hlast)]
  refine ⟨_, rfl, h.removed hle hput rfl ?_⟩
  rw [h.remove_eq hle, cut, piece_trimFront hpos hin hlast, below,
    if_neg (by rw [Extent.piece_lo]; omega), remove_post h.normal hle h.validAt hlast,
    pieces_append, pieces_cons]
  rfl

/-- It lies in the range, and goes with what follows. -/
theorem removeFrom_whole (hle : lblk ≤ last) (hge : lblk ≤ n.es.lblk) (hlast : n.es.last ≤ last)
    (alloc : Bool) :
    ∃ j, removeFrom rb i n lblk last alloc = some (.ok, j) ∧ j.Inv ∧
      pieces j.nodes = remove lblk (last + 1) (pieces i.nodes) := by
  have hsame := (h.holds.setCache none).put (n := n) rfl rfl
  have htail : tail (isAt n.addr) (Inode.nodes (Inode.put { i with cache := none } n)) =
      n :: post := by
    rw [hsame.nodes]
    exact tail_eq (not_isAt_of_nodup hsame.nodup).1 (isAt_self n)
  obtain ⟨j, todo', hj, hjh, hjc, hjp⟩ := eraseRange_spec rb lblk last (n :: post) pre
    hsame h.validFrom h.normalFrom
    (fun m hm => by
      rcases List.mem_cons.mp hm with rfl | hm
      · exact hge
      · have := h.after hm
        omega) hle
  unfold removeFrom
  simp only [if_neg (show ¬ 0 < lblk - n.es.lblk by omega),
    if_neg (show ¬ 0 < n.es.last - last by omega)]
  rw [htail, hj]
  refine ⟨j, rfl, h.removed hle hjh hjc ?_⟩
  rw [h.remove_eq hle, pieces_append, hjp, pieces_cons, remove_cons]

end FirstFrom

/-- **`__es_remove_extent`, one attempt.** -/
theorem removeOnce_spec (h : i.Inv) (hle : lblk ≤ last) (alloc : Bool) :
    (∃ j, removeOnce rb i lblk last alloc = some (.nomem, j) ∧ alloc = false ∧ j.Inv ∧
      pieces j.nodes = pieces i.nodes) ∨
    ∃ j, removeOnce rb i lblk last alloc = some (.ok, j) ∧ j.Inv ∧
      pieces j.nodes = remove lblk (last + 1) (pieces i.nodes) := by
  unfold removeOnce
  rw [h.toSound.treeSearch_eq, Option.bind_some]
  cases hsearch : firstFrom i.root lblk with
  | none =>
      have hall := firstFrom_eq_none h.toSound hsearch
      refine Or.inr ⟨i, rfl, h, (remove_eq_self (by omega) h.normal.pos fun p hp => ?_).symm⟩
      obtain ⟨m, hm, rfl⟩ := List.mem_map.mp hp
      have h₁ := hall m hm
      have h₂ := valid_last (h.valid _ hp)
      rw [Extent.piece_hi]
      omega
  | some n =>
      obtain ⟨pre, post, hnodes, hpre, hend⟩ := firstFrom_eq_some h.toSound hsearch
      have hfirst : FirstFrom i lblk pre n post := ⟨h, hnodes, hpre, hend⟩
      have hlast := valid_last hfirst.validAt
      have hpos : 0 < n.es.len := hfirst.validAt.pos
      dsimp only
      by_cases hout : last < n.es.lblk
      · rw [if_pos hout]
        refine Or.inr ⟨i, rfl, h, ?_⟩
        rw [hfirst.remove_eq hle, hnodes, pieces_append, pieces_cons,
          cut_after (by omega) (by rw [Extent.piece_lo]; omega) hpos,
          remove_post hfirst.normal hle hfirst.validAt (by omega)]
        rfl
      · rw [if_neg hout, if_neg (Bool.eq_false_iff.mp (wraps_of_valid hfirst.validAt))]
        rcases Nat.lt_or_ge n.es.lblk lblk with hlt | hge <;>
          rcases Nat.lt_or_ge last n.es.last with hover | hwithin
        · exact hfirst.removeFrom_split rb hle hlt hover alloc
        · exact Or.inr (hfirst.removeFrom_end rb hle hlt hwithin alloc)
        · exact Or.inr (hfirst.removeFrom_front rb hle hge (Nat.le_of_not_lt hout) hover alloc)
        · exact Or.inr (hfirst.removeFrom_whole rb hle hge hwithin alloc)

end Once

/-! ### With `__es_shrink` -/

/-- **`__es_remove_extent`**: the range is removed, or the allocation has failed for good and the
extents are as before; on the way the shrinker may have freed some. -/
theorem removeExtent_spec (rb : Balancer Node) (h : i.Inv) (hle : lblk ≤ last)
    (os : List Others) :
    ∃ r j l, removeExtent rb lblk last os i = some (r, j) ∧ j.Inv ∧ Kept (pieces i.nodes) l ∧
      pieces j.nodes = if r = .ok then remove lblk (last + 1) l else l := by
  induction os generalizing i with
  | nil =>
      rcases removeOnce_spec rb h hle true with ⟨-, -, halloc, -⟩ | ⟨j, hres, hj, hp⟩
      · cases halloc
      · exact ⟨.ok, j, _, hres, hj, Kept.refl _, hp⟩
  | cons o os ih =>
      unfold removeExtent
      rcases removeOnce_spec rb h hle false with ⟨j, hres, -, hj, hp⟩ | ⟨j, hres, hj, hp⟩
      · obtain ⟨k, j', hshrink, hj', hkept⟩ := shrink_spec rb hj o
        rw [hp] at hkept
        rw [hres, Option.bind_some]
        dsimp only
        rw [hshrink, Option.bind_some]
        by_cases hk : k = 0
        · rw [if_pos hk]
          exact ⟨.nomem, j', _, rfl, hj', hkept, rfl⟩
        · rw [if_neg hk]
          obtain ⟨r, j'', l, hres', hj'', hkept', hp'⟩ := ih hj'
          exact ⟨r, j'', l, hres', hj'', hkept.trans hkept', hp'⟩
      · rw [hres]
        exact ⟨.ok, j, _, rfl, hj, Kept.refl _, hp⟩

end CcNvme.ExtentStatus

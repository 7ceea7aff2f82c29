/-
CcNvme/ExtentStatus/Tree.lean

The nodes of an extent status tree, in order.  `Holds i l` says that they are those of `l`, at
different addresses, and that the counters of the inode are right; replacing, erasing and linking
a node keep it, whatever the extents are.  `Inode.Sound` adds that the extents are valid and in
normal form, `Inode.Inv` that `cache_es` points to one of the nodes.
-/
import CcNvme.ExtentStatus.Model

namespace CcNvme.ExtentStatus

open SearchTree IntervalMap

/-- The extents of a list of nodes. -/
def pieces (l : List Node) : List (Piece Value) := l.map fun n => n.es.piece

@[simp] theorem pieces_nil : pieces [] = [] := rfl

@[simp] theorem pieces_cons (n : Node) (l : List Node) :
    pieces (n :: l) = n.es.piece :: pieces l := rfl

@[simp] theorem pieces_append (l l' : List Node) : pieces (l ++ l') = pieces l ++ pieces l' :=
  List.map_append

theorem mem_pieces {l : List Node} {n : Node} (h : n ∈ l) : n.es.piece ∈ pieces l :=
  List.mem_map_of_mem h

/-- The nodes are those of `l`, and the counters are right. -/
structure Holds (i : Inode) (l : List Node) : Prop where
  nodes : i.nodes = l
  nodup : (l.map Node.addr).Nodup
  fresh : ∀ n ∈ l, n.addr < i.fresh
  all : i.allNr = l.length
  shk : i.shkNr = l.countP fun n => !n.es.isDelayed
  listed : i.listed = decide (0 < i.shkNr)

variable {i : Inode} {l pre post : List Node} {m n : Node} {lblk : ℕ}

/-! ### Addresses -/

section Addresses

theorem not_isAt_of_nodup (h : ((pre ++ n :: post).map Node.addr).Nodup) :
    (∀ m ∈ pre, isAt n.addr m = false) ∧ ∀ m ∈ post, isAt n.addr m = false := by
  rw [List.map_append, List.map_cons, List.nodup_append, List.nodup_cons] at h
  obtain ⟨-, ⟨hpost, -⟩, hpre⟩ := h
  refine ⟨fun m hm => decide_eq_false fun heq => ?_, fun m hm => decide_eq_false fun heq => ?_⟩
  · exact hpre m.addr (List.mem_map_of_mem hm) n.addr List.mem_cons_self heq
  · exact hpost (heq ▸ List.mem_map_of_mem hm)

@[simp] theorem isAt_self (n : Node) : isAt n.addr n = true := decide_eq_true rfl

theorem map_put (h : ((pre ++ m :: post).map Node.addr).Nodup) (ha : n.addr = m.addr) :
    ((pre ++ m :: post).map fun x => if x.addr = n.addr then n else x) = pre ++ n :: post := by
  obtain ⟨hpre, hpost⟩ := not_isAt_of_nodup h
  have hkeep : ∀ l' : List Node, (∀ x ∈ l', isAt m.addr x = false) →
      (l'.map fun x => if x.addr = n.addr then n else x) = l' := by
    intro l' hl'
    refine (List.map_congr_left fun x hx => if_neg ?_).trans (List.map_id l')
    rw [ha]
    exact of_decide_eq_false (hl' x hx)
  rw [List.map_append, List.map_cons, hkeep pre hpre, hkeep post hpost, if_pos ha.symm]

theorem filter_erase (h : ((pre ++ n :: post).map Node.addr).Nodup) :
    ((pre ++ n :: post).filter fun x => !isAt n.addr x) = pre ++ post := by
  obtain ⟨hpre, hpost⟩ := not_isAt_of_nodup h
  rw [List.filter_append, List.filter_cons, isAt_self,
    List.filter_eq_self.mpr fun x hx => by rw [hpre x hx]; rfl,
    List.filter_eq_self.mpr fun x hx => by rw [hpost x hx]; rfl]
  rfl

end Addresses

/-! ### The operations on nodes -/

namespace Holds

/-- The fields of a node are changed; what is delayed stays so. -/
theorem put (h : Holds i (pre ++ m :: post)) (ha : n.addr = m.addr)
    (hd : n.es.isDelayed = m.es.isDelayed) : Holds (i.put n) (pre ++ n :: post) where
  nodes := by
    rw [Inode.nodes, Inode.put, inorder_map]
    show (i.nodes.map fun x => if x.addr = n.addr then n else x) = _
    rw [h.nodes, map_put h.nodup ha]
  nodup := by simpa [ha] using h.nodup
  fresh x hx := by
    rcases List.mem_append.mp hx with hx | hx
    · exact h.fresh x (List.mem_append_left _ hx)
    · rcases List.mem_cons.mp hx with rfl | hx
      · rw [ha]
        exact h.fresh m (by simp)
      · exact h.fresh x (by simp [hx])
  all := by
    show i.allNr = _
    rw [h.all]
    simp
  shk := by
    show i.shkNr = _
    rw [h.shk]
    simp [List.countP_cons, hd]
  listed := h.listed

theorem withEs {es : Extent} (h : Holds i (pre ++ n :: post))
    (hd : es.isDelayed = n.es.isDelayed) :
    Holds (i.put (n.withEs es)) (pre ++ n.withEs es :: post) :=
  h.put rfl hd

/-- A node is erased and freed; the `BUG_ON` is not hit. -/
theorem erase (rb : Balancer Node) (h : Holds i (pre ++ n :: post)) :
    ∃ j, i.eraseNode rb n = some j ∧ Holds j (pre ++ post) ∧ j.cache = i.cache := by
  have hnodes : inorder (rb.erase (isAt n.addr) i.root) = pre ++ post := by
    rw [rb.inorder_erase]
    show (i.nodes.filter fun x => !isAt n.addr x) = _
    rw [h.nodes, filter_erase h.nodup]
  have hnodup : ((pre ++ post).map Node.addr).Nodup := by
    refine h.nodup.sublist (List.Sublist.map _ ?_)
    exact (List.Sublist.refl pre).append (List.sublist_cons_self n post)
  have hfresh : ∀ x ∈ pre ++ post, x.addr < i.fresh := by
    intro x hx
    refine h.fresh x ?_
    rcases List.mem_append.mp hx with hx | hx <;> simp [hx]
  have hall := h.all
  have hshk := h.shk
  have hlisted := h.listed
  simp only [List.length_append, List.length_cons, List.countP_append, List.countP_cons]
    at hall hshk
  unfold Inode.eraseNode Inode.freeExtent
  by_cases hd : n.es.isDelayed = true
  · rw [if_pos hd]
    simp only [hd, Bool.not_true, Bool.false_eq_true, if_false] at hshk
    refine ⟨_, rfl, ⟨hnodes, hnodup, hfresh, ?_, ?_, hlisted⟩, rfl⟩
    · show i.allNr - 1 = _
      rw [List.length_append]
      omega
    · show i.shkNr = _
      rw [List.countP_append, hshk, Nat.add_zero]
  · rw [if_neg hd]
    simp only [Bool.eq_false_of_not_eq_true hd, Bool.not_false, if_true] at hshk
    rw [if_neg (show ¬ i.shkNr = 0 by omega)]
    refine ⟨_, rfl, ⟨hnodes, hnodup, hfresh, ?_, ?_, ?_⟩, rfl⟩
    · show i.allNr - 1 = _
      rw [List.length_append]
      omega
    · show i.shkNr - 1 = _
      rw [List.countP_append]
      omega
    · show (i.listed && !decide (i.shkNr - 1 = 0)) = decide (0 < i.shkNr - 1)
      rw [hlisted, decide_eq_true (by omega : 0 < i.shkNr), Bool.true_and, ← decide_not]
      exact decide_eq_decide.mpr (by omega)

/-- A new node is linked into the tree. -/
theorem link (rb : Balancer Node) {t : BinaryTree Node} {es : Extent}
    (h : Holds i (pre ++ post)) (ht : inorder t = pre ++ ⟨i.fresh, es⟩ :: post) (c : Option ℕ) :
    Holds { i.countNew es with root := rb.insertColor t, cache := c, fresh := i.fresh + 1 }
      (pre ++ ⟨i.fresh, es⟩ :: post) where
  nodes := by
    show inorder (rb.insertColor t) = _
    rw [rb.inorder_insertColor, ht]
  nodup := by
    have hnew : ∀ x ∈ pre ++ post, x.addr ≠ i.fresh := fun x hx => (h.fresh x hx).ne
    have hnodup := h.nodup
    rw [List.map_append, List.map_cons, List.nodup_append, List.nodup_cons]
    rw [List.map_append, List.nodup_append] at hnodup
    refine ⟨hnodup.1, ⟨?_, hnodup.2.1⟩, ?_⟩
    · rintro hmem
      obtain ⟨x, hx, hxa⟩ := List.mem_map.mp hmem
      exact hnew x (List.mem_append_right _ hx) hxa
    · intro a ha b hb
      rcases List.mem_cons.mp hb with rfl | hb
      · obtain ⟨x, hx, rfl⟩ := List.mem_map.mp ha
        exact hnew x (List.mem_append_left _ hx)
      · exact hnodup.2.2 a ha b hb
  fresh x hx := by
    show x.addr < i.fresh + 1
    rcases List.mem_append.mp hx with hx | hx
    · have := h.fresh x (List.mem_append_left _ hx)
      omega
    · rcases List.mem_cons.mp hx with rfl | hx
      · exact Nat.lt_succ_self _
      · have := h.fresh x (List.mem_append_right _ hx)
        omega
  all := by
    have hall := h.all
    show (i.countNew es).allNr = _
    rw [List.length_append] at *
    rw [List.length_cons]
    unfold Inode.countNew
    split_ifs <;> simp only <;> omega
  shk := by
    have hshk := h.shk
    show (i.countNew es).shkNr = _
    rw [List.countP_append] at *
    rw [List.countP_cons]
    unfold Inode.countNew
    by_cases hd : es.isDelayed = true
    · simp only [hd, if_true, Bool.not_true, Bool.false_eq_true, if_false]
      exact hshk
    · rw [if_neg hd]
      simp only [Bool.eq_false_of_not_eq_true hd, Bool.not_false, if_true]
      omega
  listed := by
    have hlisted := h.listed
    show (i.countNew es).listed = decide (0 < (i.countNew es).shkNr)
    unfold Inode.countNew
    split_ifs
    · exact hlisted
    · show (i.listed || decide (i.shkNr = 0)) = decide (0 < i.shkNr + 1)
      rw [hlisted, Bool.eq_iff_iff]
      simp
      omega

theorem setCache (h : Holds i l) (c : Option ℕ) : Holds { i with cache := c } l :=
  ⟨h.nodes, h.nodup, h.fresh, h.all, h.shk, h.listed⟩

theorem setShrinkLblk (h : Holds i l) (b : ℕ) : Holds { i with shrinkLblk := b } l :=
  ⟨h.nodes, h.nodup, h.fresh, h.all, h.shk, h.listed⟩

end Holds

/-! ### The invariant -/

/-- The counters are right, and the extents are valid and in normal form. -/
structure Inode.Sound (i : Inode) : Prop where
  holds : Holds i i.nodes
  valid : ∀ p ∈ pieces i.nodes, Valid p
  normal : Normal (pieces i.nodes)

/-- **The extent status tree of an inode**, between two operations: `cache_es` points to one of
the nodes. -/
structure Inode.Inv (i : Inode) : Prop extends i.Sound where
  cache : ∀ a, i.cache = some a → ∃ n ∈ i.nodes, n.addr = a

/-- What is known about a block. -/
def Inode.map (i : Inode) (b : ℕ) : Option Value := meaning (pieces i.nodes) b

theorem Inode.Sound.of_holds (h : Holds i l) (hvalid : ∀ p ∈ pieces l, Valid p)
    (hnormal : Normal (pieces l)) : i.Sound := by
  obtain rfl := h.nodes
  exact ⟨h, hvalid, hnormal⟩

theorem Inode.Inv.of_holds (h : Holds i l) (hvalid : ∀ p ∈ pieces l, Valid p)
    (hnormal : Normal (pieces l)) (hcache : ∀ a, i.cache = some a → ∃ n ∈ l, n.addr = a) :
    i.Inv := by
  obtain rfl := h.nodes
  exact ⟨⟨h, hvalid, hnormal⟩, hcache⟩

theorem Inode.Inv.empty : Inode.empty.Inv :=
  Inode.Inv.of_holds (l := []) ⟨rfl, List.nodup_nil, by simp, rfl, rfl, rfl⟩ (by simp)
    Normal.nil fun _ h => by cases h

/-! ### Searching -/

section Search

theorem valid_last (h : Valid n.es.piece) : n.es.last + 1 = n.es.lblk + n.es.len := by
  have := h.pos
  rw [Extent.piece_len] at this
  unfold Extent.last
  omega

theorem pairwise_nodes (h : Normal (pieces l)) :
    l.Pairwise fun m n => m.es.lblk + m.es.len ≤ n.es.lblk :=
  (List.pairwise_map.mp h.pairwise).imp fun hb => hb.1

/-- The order of the extents is one for searching. -/
theorem ordered_side (hvalid : ∀ p ∈ pieces l, Valid p) (h : Normal (pieces l)) (lblk : ℕ) :
    Ordered (side lblk) l := by
  refine (pairwise_nodes h).imp_of_mem fun {m n} hm _ hmn hne => ?_
  have hlast := valid_last (hvalid _ (mem_pieces hm))
  unfold side at *
  split_ifs at hne with h₁ h₂
  · rw [if_pos (by omega)]
  · exact (hne rfl).elim
  · rw [if_pos (by omega)]

theorem side_eq_right (h : side lblk n = .right) : n.es.last < lblk := by
  unfold side at h
  split_ifs at h with h₁ h₂
  exact h₂

theorem side_eq_left (h : side lblk n = .left) : lblk < n.es.lblk := by
  unfold side at h
  split_ifs at h with h₁
  exact h₁

/-- No block number in the tree wraps around. -/
theorem wraps_of_valid (h : Valid n.es.piece) : n.es.wraps = false := by
  have hrange := h.range
  rw [Extent.piece_hi] at hrange
  unfold extMaxBlocks at hrange
  exact decide_eq_false (by omega)

/-- So no search of the tree hits the `BUG_ON`. -/
theorem Inode.Sound.descend_eq {β : Type} (h : i.Sound) (turn : Node → Turn) (lblk : ℕ) (r : β) :
    descend turn lblk i.root r = some r := by
  refine if_neg fun hany => ?_
  obtain ⟨x, hx, hwraps⟩ := List.any_eq_true.mp hany
  have hvalid := h.valid _ (mem_pieces (mem_inorder_of_mem_path hx))
  rw [wraps_of_valid hvalid, Bool.and_false] at hwraps
  cases hwraps

theorem Inode.Sound.treeSearch_eq (h : i.Sound) (lblk : ℕ) :
    treeSearch i.root lblk = some (firstFrom i.root lblk) :=
  h.descend_eq _ _ _

theorem orSearch_some (cached found : Option Node) :
    orSearch cached (some found) = some (cached.or found) := by
  cases cached with
  | none => rfl
  | some n => rfl

/-- **`__es_tree_search`** finds the first extent that does not end before the block. -/
theorem firstFrom_eq_some (h : i.Sound) (hs : firstFrom i.root lblk = some n) :
    ∃ pre post, i.nodes = pre ++ n :: post ∧ (∀ m ∈ pre, m.es.last < lblk) ∧
      lblk ≤ n.es.last := by
  have hord := ordered_side h.valid h.normal lblk
  unfold firstFrom at hs
  split at hs
  · cases hs
  next m hm =>
    obtain ⟨pre, post, heq, hpre, hpost⟩ := last_eq_some hord hm
    have hlt : ∀ x ∈ pre, x.es.last < lblk := fun x hx => side_eq_right (hpre x hx)
    split_ifs at hs with hend
    · have hnodup := h.holds.nodup
      rw [Inode.nodes, heq] at hnodup
      rw [heq, next_eq (not_isAt_of_nodup hnodup).1 (isAt_self m)] at hs
      obtain ⟨post', rfl⟩ := List.head?_eq_some_iff.mp hs
      refine ⟨pre ++ [m], post', by simp [Inode.nodes, heq], fun x hx => ?_, ?_⟩
      · rcases List.mem_append.mp hx with hx | hx
        · exact hlt x hx
        · obtain rfl := List.mem_singleton.mp hx
          exact hend
      · have hleft := side_eq_left (hpost n List.mem_cons_self)
        have hmem : n ∈ i.nodes := by
          rw [Inode.nodes, heq]
          simp
        have hlast := valid_last (h.valid _ (mem_pieces hmem))
        have hpos : 0 < n.es.len := (h.valid _ (mem_pieces hmem)).pos
        omega
    · obtain rfl := Option.some.inj hs
      exact ⟨pre, post, heq, hlt, Nat.le_of_not_lt hend⟩

theorem firstFrom_eq_none (h : i.Sound) (hs : firstFrom i.root lblk = none) :
    ∀ n ∈ i.nodes, n.es.last < lblk := by
  have hord := ordered_side h.valid h.normal lblk
  unfold firstFrom at hs
  split at hs
  next hlast =>
    intro n hn
    rw [Inode.nodes, last_eq_none hlast] at hn
    cases hn
  next m hm =>
    obtain ⟨pre, post, heq, hpre, hpost⟩ := last_eq_some hord hm
    split_ifs at hs with hend
    have hnodup := h.holds.nodup
    rw [Inode.nodes, heq] at hnodup
    rw [heq, next_eq (not_isAt_of_nodup hnodup).1 (isAt_self m)] at hs
    obtain rfl := List.head?_eq_none_iff.mp hs
    intro n hn
    rw [Inode.nodes, heq] at hn
    rcases List.mem_append.mp hn with hn | hn
    · exact side_eq_right (hpre n hn)
    · obtain rfl := List.mem_singleton.mp hn
      exact hend

end Search

end CcNvme.ExtentStatus

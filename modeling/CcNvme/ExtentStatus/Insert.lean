/-
CcNvme/ExtentStatus/Insert.lean

`__es_insert_extent`.  The loop descends the tree and stops at the first node on its way with
which the new extent can be merged; then the neighbour on the other side is tried.  Which of two
neighbours is met first depends on the shape of the tree; the extents afterwards do not
(`insertExtent_spec`).
-/
import CcNvme.ExtentStatus.Tree

namespace CcNvme.ExtentStatus

open SearchTree IntervalMap

variable {i : Inode} {pre post : List Node} {m n : Node} {es es₁ newes : Extent}

/-! ### Extents that grow -/

section Grow

theorem kind_eq_of_joins (h : es₁.piece.Joins es.piece) : es.kind = es₁.kind :=
  congrArg Value.kind h.2

theorem piece_absorb (es₁ es : Extent) : (absorb es₁ es).piece = es₁.piece.glue es.piece := by
  unfold absorb
  split_ifs
  · show (⟨es₁.lblk, es₁.len + es.len, Extent.value (Extent.setReferenced _)⟩ : Piece Value) = _
    rw [Extent.value_setReferenced]
    rfl
  · rfl

theorem piece_growLeft (h : newes.piece.Joins es.piece) :
    (growLeft newes es).piece = newes.piece.glue es.piece := by
  have hkind : ({ es with lblk := newes.lblk, len := es.len + newes.len } : Extent).kind =
      newes.kind := show es.kind = newes.kind from kind_eq_of_joins h
  have hval : (growLeft newes es).value = newes.value := by
    unfold growLeft
    dsimp only
    rw [Extent.mapped_eq, hkind, Extent.value, Extent.value]
    by_cases hm : kindMapped newes.kind = true
    · rw [if_pos hm, Extent.kind_storePblock, hkind, if_pos hm, if_pos hm,
        Extent.phys_storePblock]
      rfl
    · rw [if_neg hm, hkind, if_neg hm, if_neg hm]
  have hlo : (growLeft newes es).lblk = newes.lblk := by
    unfold growLeft
    dsimp only
    split_ifs <;> rfl
  have hlen : (growLeft newes es).len = es.len + newes.len := by
    unfold growLeft
    dsimp only
    split_ifs <;> rfl
  rw [Extent.piece, hval, hlo, hlen, Nat.add_comm]
  rfl

theorem isDelayed_of_value (h : es.value = es₁.value) : es.isDelayed = es₁.isDelayed := by
  rw [Extent.isDelayed_eq, Extent.isDelayed_eq]
  exact congrArg (fun v : Value => v.kind.getLsbD 2) h

end Grow

/-! ### Merging with the other neighbour -/

section Merge

variable (rb : Balancer Node)

/-- `ext4_es_try_to_merge_left` -/
theorem tryToMergeLeft_spec (h : Holds i (pre ++ n :: post)) (hvalid : Valid n.es.piece)
    (hpre : ∀ p ∈ pieces pre, Valid p) :
    (∃ j, tryToMergeLeft rb i n = some (n, j) ∧ Holds j (pre ++ n :: post) ∧
      ∀ m ∈ pre.getLast?, ¬ m.es.piece.Joins n.es.piece) ∨
    ∃ pre' m j, pre = pre' ++ [m] ∧ m.es.piece.Joins n.es.piece ∧
      tryToMergeLeft rb i n = some (m.withEs (absorb m.es n.es), j) ∧
      Holds j (pre' ++ m.withEs (absorb m.es n.es) :: post) := by
  have hprev : prev (isAt n.addr) i.nodes = pre.getLast? := by
    rw [h.nodes, prev_eq (not_isAt_of_nodup h.nodup).1 (isAt_self n)]
  unfold tryToMergeLeft
  rw [hprev]
  cases hlast : pre.getLast? with
  | none => exact Or.inl ⟨i, rfl, h, by simp⟩
  | some m =>
      obtain ⟨pre', rfl⟩ := List.getLast?_eq_some_iff.mp hlast
      have hm : Valid m.es.piece := hpre _ (mem_pieces (by simp))
      by_cases hmerge : canBeMerged m.es n.es = true
      · refine Or.inr ⟨pre', m, ?_⟩
        dsimp only
        rw [if_pos hmerge]
        have hput : Holds (i.put (m.withEs (absorb m.es n.es)))
            ((pre' ++ [m.withEs (absorb m.es n.es)]) ++ n :: post) := by
          have h' : Holds i (pre' ++ m :: n :: post) := by simpa using h
          have := h'.withEs
            (isDelayed_of_value (congrArg Piece.val (piece_absorb m.es n.es)))
          simpa using this
        obtain ⟨j, hj, hholds, -⟩ := hput.erase rb
        refine ⟨j, rfl, (canBeMerged_iff hm hvalid).mp hmerge, ?_, by simpa using hholds⟩
        rw [hj]
        rfl
      · refine Or.inl ⟨i, ?_, h, ?_⟩
        · dsimp only
          rw [if_neg hmerge]
        · rintro x hx
          obtain rfl := Option.some.inj hx
          exact fun hj => hmerge ((canBeMerged_iff hm hvalid).mpr hj)

/-- `ext4_es_try_to_merge_right` -/
theorem tryToMergeRight_spec (h : Holds i (pre ++ n :: post)) (hvalid : Valid n.es.piece)
    (hpost : ∀ p ∈ pieces post, Valid p) :
    ∃ m j post', tryToMergeRight rb i n = some (m, j) ∧ m.addr = n.addr ∧
      Holds j (pre ++ m :: post') ∧ pieces (m :: post') = push n.es.piece (pieces post) := by
  have hnext : next (isAt n.addr) i.nodes = post.head? := by
    rw [h.nodes, next_eq (not_isAt_of_nodup h.nodup).1 (isAt_self n)]
  unfold tryToMergeRight
  rw [hnext]
  cases post with
  | nil => exact ⟨n, i, [], rfl, rfl, h, rfl⟩
  | cons p post =>
      have hp : Valid p.es.piece := hpost _ (mem_pieces List.mem_cons_self)
      rw [pieces_cons, push, List.head?_cons]
      by_cases hmerge : canBeMerged n.es p.es = true
      · dsimp only
        rw [if_pos hmerge, if_pos ((canBeMerged_iff hvalid hp).mp hmerge)]
        have hput := h.withEs
          (isDelayed_of_value (congrArg Piece.val (piece_absorb n.es p.es)))
        have hput' : Holds (i.put (n.withEs (absorb n.es p.es)))
            ((pre ++ [n.withEs (absorb n.es p.es)]) ++ p :: post) := by
          simpa using hput
        obtain ⟨j, hj, hholds, -⟩ := hput'.erase rb
        refine ⟨n.withEs (absorb n.es p.es), j, post, ?_, rfl, by simpa using hholds, ?_⟩
        · rw [hj]
          rfl
        · rw [pieces_cons, Node.withEs_es, piece_absorb]
      · dsimp only
        rw [if_neg hmerge, if_neg fun hj => hmerge ((canBeMerged_iff hvalid hp).mpr hj)]
        exact ⟨n, i, p :: post, rfl, rfl, h, rfl⟩

end Merge

/-! ### The loop -/

section Turn

theorem side_of_insertTurn (n : Node) (h : insertTurn newes n ≠ .stop) :
    side newes.lblk n = insertTurn newes n := by
  unfold insertTurn side at *
  split_ifs at * <;> first | rfl | exact (h rfl).elim

theorem not_merged_of_right (h : insertTurn newes n = .right) :
    canBeMerged n.es newes = false := by
  unfold insertTurn at h
  split_ifs at h with h₁ h₂ h₃ h₄
  exact Bool.eq_false_of_not_eq_true h₄

theorem not_merged_of_left (h : insertTurn newes n = .left) :
    canBeMerged newes n.es = false := by
  unfold insertTurn at h
  split_ifs at h with h₁ h₂
  exact Bool.eq_false_of_not_eq_true h₂

/-- The loop stops at a node with which the new extent can be merged. -/
theorem merged_of_stop (h : insertTurn newes n = .stop) (hn : Valid n.es.piece)
    (hnew : Valid newes.piece)
    (hfree : n.es.piece.hi ≤ newes.lblk ∨ newes.piece.hi ≤ n.es.lblk) :
    (newes.lblk < n.es.lblk ∧ newes.piece.Joins n.es.piece) ∨
      (¬ newes.lblk < n.es.lblk ∧ n.es.last < newes.lblk ∧ n.es.piece.Joins newes.piece) := by
  have hlast := valid_last hn
  have hpos : 0 < newes.len := hnew.pos
  rw [Extent.piece_hi, Extent.piece_hi] at hfree
  unfold insertTurn at h
  split_ifs at h with h₁ h₂ h₃ h₄
  · exact Or.inl ⟨h₁, (canBeMerged_iff hnew hn).mp h₂⟩
  · exact Or.inr ⟨h₁, h₃, (canBeMerged_iff hn hnew).mp h₄⟩
  · omega

end Turn

/-! ### `__es_insert_extent` -/

section Spec

variable (rb : Balancer Node)

/-- The new extent gets a node of its own. -/
theorem insertExtent_leaf (h : i.Inv) (hnew : Valid newes.piece)
    (hfind : find (insertTurn newes) i.root = none) (alloc : Bool) :
    (insertExtent rb i newes alloc = some (.nomem, i) ∧ alloc = false) ∨
      ∃ j l, insertExtent rb i newes alloc = some (.ok, j) ∧ Holds j l ∧
        (∃ n ∈ l, j.cache = some n.addr) ∧
        pieces l = IntervalMap.insert newes.piece (pieces i.nodes) := by
  obtain ⟨pre, post, heq, hpre, hpost, hlast, hhead, hlink⟩ := find_eq_none
    side_of_insertTurn (ordered_side h.valid h.normal newes.lblk) hfind
  have hnodes : i.nodes = pre ++ post := heq
  unfold insertExtent
  rw [h.toSound.descend_eq, Option.bind_some, hfind]
  cases alloc with
  | false => exact Or.inl ⟨rfl, rfl⟩
  | true =>
      refine Or.inr ⟨_, pre ++ ⟨i.fresh, newes⟩ :: post, rfl, ?_, ?_, ?_⟩
      · exact Holds.link rb (hnodes ▸ h.holds) (hlink _) _
      · exact ⟨⟨i.fresh, newes⟩, by simp, rfl⟩
      · have hvalid : ∀ x ∈ pre ++ post, Valid x.es.piece := fun x hx =>
          h.valid _ (mem_pieces (hnodes ▸ hx))
        have hnormal := h.normal
        rw [hnodes, pieces_append] at hnormal
        rw [hnodes, pieces_append, pieces_append]
        obtain ⟨hnpre, -, -⟩ := normal_append.mp hnormal
        have hlt : ∀ x ∈ pre, x.es.lblk + x.es.len ≤ newes.lblk := by
          intro x hx
          have h₁ := side_eq_right (hpre x hx)
          have h₂ := valid_last (hvalid x (List.mem_append_left _ hx))
          omega
        have hjoin : ∀ q ∈ pieces pre, ¬ q.Joins newes.piece := by
          refine hnpre.not_joins (fun q hq => ?_) fun q hq => ?_
          · obtain ⟨x, hx, rfl⟩ := List.mem_map.mp hq
            exact hlt x hx
          · rw [pieces, List.getLast?_map] at hq
            obtain ⟨x, hx, rfl⟩ := Option.map_eq_some_iff.mp hq
            have hx' := hvalid x (List.mem_append_left _ (List.mem_of_getLast? hx))
            intro hj
            rw [← canBeMerged_iff hx' hnew, not_merged_of_right (hlast x hx)] at hj
            cases hj
        rw [insert_append (fun q hq => ?_) hjoin fun q hq => ?_, pieces_cons]
        · congr 1
          cases post with
          | nil => rfl
          | cons x post =>
              rw [pieces_cons, push, if_neg]
              intro hj
              rw [← canBeMerged_iff hnew (hvalid x (by simp)),
                not_merged_of_left (hhead x rfl)] at hj
              cases hj
        · obtain ⟨x, hx, rfl⟩ := List.mem_map.mp hq
          have := hlt x hx
          show x.es.lblk ≤ newes.lblk
          omega
        · rw [pieces, List.head?_map] at hq
          obtain ⟨x, hx, rfl⟩ := Option.map_eq_some_iff.mp hq
          exact side_eq_left (hpost x (List.mem_of_head? hx))

/-- The new extent is merged with the one after it, and that one perhaps with the one before. -/
theorem insertExtent_before (h : Holds i (pre ++ n :: post))
    (hvalid : ∀ p ∈ pieces (pre ++ n :: post), Valid p)
    (hnormal : Normal (pieces (pre ++ n :: post))) (hnew : Valid newes.piece)
    (hfree : Free newes.piece (pieces (pre ++ n :: post)))
    (hlt : newes.lblk < n.es.lblk) (hj : newes.piece.Joins n.es.piece) :
    ∃ r l, tryToMergeLeft rb (i.put (n.withEs (growLeft newes n.es)))
        (n.withEs (growLeft newes n.es)) = some r ∧ Holds r.2 l ∧
      (∃ m ∈ l, r.1.addr = m.addr) ∧
      pieces l = IntervalMap.insert newes.piece (pieces (pre ++ n :: post)) := by
  have hn : Valid n.es.piece := hvalid _ (mem_pieces (by simp))
  have hpiece := piece_growLeft hj
  rw [pieces_append, pieces_cons] at hvalid hnormal hfree ⊢
  obtain ⟨hnpre, -, hcross⟩ := normal_append.mp hnormal
  have hvpre : ∀ p ∈ pieces pre, Valid p := fun p hp => hvalid p (List.mem_append_left _ hp)
  -- the extents before `n` end before the new one
  have hle : ∀ q ∈ pieces pre, q.hi ≤ newes.lblk := by
    intro q hq
    rcases hfree q (List.mem_append_left _ hq) with hq' | hq'
    · exact hq'
    · have h₁ := (hcross q hq n.es.piece List.mem_cons_self).1
      have h₂ := (hvpre q hq).pos
      have h₃ := hj.1
      unfold Piece.hi at *
      omega
  have hlo : ∀ q ∈ pieces pre, q.lo ≤ newes.lblk := fun q hq =>
    (Nat.le_add_right q.lo q.len).trans (hle q hq)
  have hput : Holds (i.put (n.withEs (growLeft newes n.es)))
      (pre ++ n.withEs (growLeft newes n.es) :: post) := by
    refine h.withEs ?_
    rw [isDelayed_of_value (show (growLeft newes n.es).value = newes.value from
      congrArg Piece.val hpiece), Extent.isDelayed_eq, Extent.isDelayed_eq, kind_eq_of_joins hj]
  have hgrown : Valid (growLeft newes n.es).piece := by
    rw [hpiece]
    exact hnew.glue hn hj
  rcases tryToMergeLeft_spec rb hput hgrown hvpre with ⟨j, hres, hholds, hnot⟩ |
    ⟨pre', m, j, rfl, hm, hres, hholds⟩
  · refine ⟨_, _, hres, hholds, ⟨n.withEs (growLeft newes n.es), by simp, rfl⟩, ?_⟩
    have hjoin : ∀ q ∈ pieces pre, ¬ q.Joins newes.piece := by
      refine hnpre.not_joins hle fun q hq => ?_
      rw [pieces, List.getLast?_map] at hq
      obtain ⟨x, hx, rfl⟩ := Option.map_eq_some_iff.mp hq
      have := hnot x hx
      rwa [Node.withEs_es, hpiece, Piece.joins_glue_iff] at this
    rw [insert_append hlo hjoin (by simpa using hlt), push, if_pos hj, pieces_append,
      pieces_cons, Node.withEs_es, hpiece]
  · refine ⟨_, _, hres, hholds, ⟨m.withEs (absorb m.es (growLeft newes n.es)), by simp,
      rfl⟩, ?_⟩
    rw [Node.withEs_es, hpiece, Piece.joins_glue_iff] at hm
    rw [pieces_append, pieces_cons, pieces_nil] at hnpre hlo hle
    obtain ⟨-, -, hm'⟩ := normal_append.mp hnpre
    have hmpos : 0 < m.es.len := (hvpre m.es.piece (mem_pieces (by simp))).pos
    have hjoin : ∀ q ∈ pieces pre', ¬ q.Joins newes.piece := by
      intro q hq hqj
      have h₁ := (hm' q hq m.es.piece (by simp)).1
      have h₂ := hqj.1
      have h₃ := hm.1
      unfold Piece.hi at *
      simp only [Extent.piece_lo, Extent.piece_len] at *
      omega
    rw [pieces_append, pieces_cons, pieces_append, pieces_cons, pieces_nil, List.append_assoc,
      List.singleton_append,
      insert_append_joins (fun q hq => hlo q (List.mem_append_left _ hq)) hjoin
        (hlo m.es.piece (by simp)) hm,
      push, if_pos (hm.glue_joins_iff.mpr hj), Piece.glue_assoc, Node.withEs_es, piece_absorb,
      Node.withEs_es, hpiece]

/-- The new extent is merged with the one before it, and that one perhaps with the one after. -/
theorem insertExtent_after (h : Holds i (pre ++ n :: post))
    (hvalid : ∀ p ∈ pieces (pre ++ n :: post), Valid p)
    (hnormal : Normal (pieces (pre ++ n :: post))) (hnew : Valid newes.piece)
    (hj : n.es.piece.Joins newes.piece) :
    ∃ r l, tryToMergeRight rb
        (i.put (n.withEs { n.es with len := n.es.len + newes.len }))
        (n.withEs { n.es with len := n.es.len + newes.len }) = some r ∧ Holds r.2 l ∧
      (∃ m ∈ l, r.1.addr = m.addr) ∧
      pieces l = IntervalMap.insert newes.piece (pieces (pre ++ n :: post)) := by
  have hn : Valid n.es.piece := hvalid _ (mem_pieces (by simp))
  rw [pieces_append, pieces_cons] at hvalid hnormal ⊢
  obtain ⟨hnpre, -, hcross⟩ := normal_append.mp hnormal
  have hput := h.withEs (show ({ n.es with len := n.es.len + newes.len } : Extent).isDelayed =
    n.es.isDelayed from rfl)
  obtain ⟨m, j, post', hres, haddr, hholds, hpieces⟩ := tryToMergeRight_spec rb hput
    (hn.glue hnew hj) fun p hp => hvalid p (by simp [hp])
  refine ⟨_, _, hres, hholds, ⟨m, by simp, rfl⟩, ?_⟩
  have hnpos : 0 < n.es.len := hn.pos
  have hlt : ∀ q ∈ pieces pre, q.hi < newes.lblk := by
    intro q hq
    have h₁ := (hcross q hq n.es.piece List.mem_cons_self).1
    have h₂ := hj.1
    unfold Piece.hi at *
    simp only [Extent.piece_lo, Extent.piece_len] at *
    omega
  have hnlo : n.es.lblk ≤ newes.lblk := by
    have h₂ := hj.1
    rw [Extent.piece_hi, Extent.piece_lo] at h₂
    omega
  rw [insert_append_joins (fun q hq => ?_) (fun q hq hqj => (hlt q hq).ne hqj.1) hnlo hj,
    pieces_append, hpieces]
  · rfl
  · have := hlt q hq
    unfold Piece.hi at this
    show q.lo ≤ newes.lblk
    omega

/-- **`__es_insert_extent`** puts the extent into the list, merged with its neighbours where that
is possible, for any shape of the tree; it fails only if an allocation does, and then it has
changed nothing. -/
theorem insertExtent_spec (h : i.Inv) (hnew : Valid newes.piece)
    (hfree : Free newes.piece (pieces i.nodes)) (alloc : Bool) :
    (insertExtent rb i newes alloc = some (.nomem, i) ∧ alloc = false) ∨
      ∃ j, insertExtent rb i newes alloc = some (.ok, j) ∧ j.Inv ∧
        pieces j.nodes = IntervalMap.insert newes.piece (pieces i.nodes) := by
  have hdone : ∀ (j : Inode) (l : List Node) (a : ℕ), Holds j l → (∃ m ∈ l, a = m.addr) →
      pieces l = IntervalMap.insert newes.piece (pieces i.nodes) →
      Inode.Inv { j with cache := some a } ∧
        pieces (Inode.nodes { j with cache := some a }) =
          IntervalMap.insert newes.piece (pieces i.nodes) := by
    rintro j l a hholds ⟨m, hm, rfl⟩ hpieces
    refine ⟨Inode.Inv.of_holds (hholds.setCache _) ?_ ?_ fun b hb => ⟨m, hm, ?_⟩, ?_⟩
    · rw [hpieces]
      exact hnew.insert h.valid
    · rw [hpieces]
      exact h.normal.insert hnew.pos hfree
    · exact Option.some.inj hb
    · rw [(hholds.setCache _).nodes, hpieces]
  cases hfind : find (insertTurn newes) i.root with
  | none =>
      rcases insertExtent_leaf rb h hnew hfind alloc with hleaf | ⟨j, l, hres, hholds, hc, hp⟩
      · exact Or.inl hleaf
      · obtain ⟨m, hm, hcache⟩ := hc
        obtain ⟨hinv, hpieces⟩ := hdone j l m.addr hholds ⟨m, hm, rfl⟩ hp
        have hj : ({ j with cache := some m.addr } : Inode) = j := by rw [← hcache]
        rw [hj] at hinv hpieces
        exact Or.inr ⟨j, hres, hinv, hpieces⟩
  | some n =>
      refine Or.inr ?_
      obtain ⟨hmem, hstop⟩ := find_eq_some hfind
      have hmem : n ∈ i.nodes := hmem
      obtain ⟨pre, post, hnodes⟩ := List.append_of_mem hmem
      have hholds : Holds i (pre ++ n :: post) := hnodes ▸ h.holds
      have hvalid : ∀ p ∈ pieces (pre ++ n :: post), Valid p := hnodes ▸ h.valid
      have hnormal : Normal (pieces (pre ++ n :: post)) := hnodes ▸ h.normal
      have hfree' : Free newes.piece (pieces (pre ++ n :: post)) := hnodes ▸ hfree
      unfold insertExtent
      rw [h.toSound.descend_eq, Option.bind_some, hfind]
      dsimp only
      rcases merged_of_stop hstop (h.valid _ (mem_pieces hmem)) hnew (hfree _ (mem_pieces hmem))
        with ⟨hlt, hj⟩ | ⟨hge, hlast, hj⟩
      · rw [if_pos hlt]
        obtain ⟨r, l, hres, hr, hc, hp⟩ :=
          insertExtent_before rb hholds hvalid hnormal hnew hfree' hlt hj
        rw [hres]
        exact ⟨_, rfl, hdone r.2 l r.1.addr hr hc (hnodes ▸ hp)⟩
      · rw [if_neg hge, if_pos hlast]
        obtain ⟨r, l, hres, hr, hc, hp⟩ := insertExtent_after rb hholds hvalid hnormal hnew hj
        rw [hres]
        exact ⟨_, rfl, hdone r.2 l r.1.addr hr hc (hnodes ▸ hp)⟩

end Spec

end CcNvme.ExtentStatus

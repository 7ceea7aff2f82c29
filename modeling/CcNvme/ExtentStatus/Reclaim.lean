/-
CcNvme/ExtentStatus/Reclaim.lean

`es_reclaim_extents`: the shrinker frees extents that were not looked up since it last came by.
It frees no delayed extent (`reclaimExtents_spec`): what is delayed is nowhere else.
-/
import CcNvme.ExtentStatus.Tree

namespace CcNvme.ExtentStatus

open SearchTree IntervalMap

/-- The block is delayed. -/
def Value.delayed (v : Value) : Bool := v.kind.getLsbD 2

theorem delayed_value (es : Extent) : es.value.delayed = es.isDelayed := (es.isDelayed_eq).symm

/-- Some extents are gone, but none that is delayed. -/
def Kept (l l' : List (Piece Value)) : Prop :=
  l'.Sublist l ∧ ∀ p ∈ l, p.val.delayed = true → p ∈ l'

namespace Kept

variable {l l' l'' : List (Piece Value)} {p : Piece Value}

theorem refl (l : List (Piece Value)) : Kept l l := ⟨List.Sublist.refl l, fun _ hp _ => hp⟩

theorem trans (h : Kept l l') (h' : Kept l' l'') : Kept l l'' :=
  ⟨h'.1.trans h.1, fun p hp hd => h'.2 p (h.2 p hp hd) hd⟩

theorem cons (h : Kept l l') (p : Piece Value) : Kept (p :: l) (p :: l') := by
  refine ⟨h.1.cons_cons p, fun q hq hd => ?_⟩
  rcases List.mem_cons.mp hq with rfl | hq
  · exact List.mem_cons_self
  · exact List.mem_cons_of_mem p (h.2 q hq hd)

theorem drop (h : Kept l l') (hd : p.val.delayed = false) : Kept (p :: l) l' := by
  refine ⟨h.1.cons p, fun q hq hq' => ?_⟩
  rcases List.mem_cons.mp hq with rfl | hq
  · rw [hd] at hq'
    cases hq'
  · exact h.2 q hq hq'

theorem append (h : Kept l l') (pre : List (Piece Value)) : Kept (pre ++ l) (pre ++ l') := by
  induction pre with
  | nil => exact h
  | cons p pre ih => exact ih.cons p

end Kept

variable {i : Inode} (rb : Balancer Node)

/-- The loop; `done` are the nodes before those that are still to be scanned. -/
theorem scanNodes_spec (last : ℕ) (todo done : List Node) (toScan shrunk : ℕ)
    (h : Holds i (done ++ todo)) :
    ∃ s todo', scanNodes rb last todo i toScan shrunk = some s ∧
      Holds s.inode (done ++ todo') ∧ Kept (pieces todo) (pieces todo') := by
  induction todo generalizing i done toScan shrunk with
  | nil => exact ⟨_, [], rfl, h.setShrinkLblk 0, Kept.refl _⟩
  | cons n rest ih =>
      cases toScan with
      | zero => exact ⟨_, n :: rest, rfl, h.setShrinkLblk _, Kept.refl _⟩
      | succ toScan =>
          unfold scanNodes
          by_cases hlast : last < n.es.lblk
          · rw [if_pos hlast]
            exact ⟨_, n :: rest, rfl, h.setShrinkLblk _, Kept.refl _⟩
          · rw [if_neg hlast]
            by_cases hd : n.es.isDelayed = true
            · rw [if_pos hd]
              obtain ⟨s, rest', hs, hholds, hkept⟩ :=
                ih (done ++ [n]) toScan shrunk (by simpa using h)
              exact ⟨s, n :: rest', hs, by simpa using hholds, hkept.cons n.es.piece⟩
            · rw [if_neg hd]
              by_cases href : n.es.isReferenced = true
              · rw [if_pos href]
                have hpiece : n.es.clearReferenced.piece = n.es.piece := by
                  show (⟨n.es.lblk, n.es.len, n.es.clearReferenced.value⟩ : Piece Value) = _
                  rw [Extent.value_clearReferenced]
                  rfl
                have hput := h.withEs (show n.es.clearReferenced.isDelayed = n.es.isDelayed by
                  rw [← delayed_value, ← delayed_value, Extent.value_clearReferenced])
                obtain ⟨s, rest', hs, hholds, hkept⟩ :=
                  ih (done ++ [n.withEs n.es.clearReferenced]) toScan shrunk
                    (by simpa using hput)
                refine ⟨s, n.withEs n.es.clearReferenced :: rest', hs,
                  by simpa using hholds, ?_⟩
                rw [pieces_cons, pieces_cons, Node.withEs_es, hpiece]
                exact hkept.cons _
              · rw [if_neg href]
                obtain ⟨j, hj, hholds, -⟩ := h.erase rb
                obtain ⟨s, rest', hs, hholds', hkept⟩ := ih done toScan (shrunk + 1) hholds
                refine ⟨s, rest', ?_, hholds', hkept.drop ?_⟩
                · rw [hj]
                  exact hs
                · rw [Extent.piece_val, delayed_value]
                  exact Bool.eq_false_of_not_eq_true hd

theorem Inode.Sound.of_kept {j : Inode} {l : List Node} (h : i.Sound) (hj : Holds j l)
    (hkept : Kept (pieces i.nodes) (pieces l)) : j.Sound :=
  Inode.Sound.of_holds hj (fun p hp => h.valid p (hkept.1.subset hp)) (h.normal.sublist hkept.1)

theorem doReclaimExtents_spec (h : i.Sound) (last toScan shrunk : ℕ) :
    ∃ s, doReclaimExtents rb i last toScan shrunk = some s ∧ s.inode.Sound ∧
      Kept (pieces i.nodes) (pieces s.inode.nodes) := by
  unfold doReclaimExtents
  rw [h.treeSearch_eq, Option.bind_some]
  cases hsearch : firstFrom i.root i.shrinkLblk with
  | none =>
      have hholds := h.holds.setShrinkLblk 0
      exact ⟨_, rfl, Inode.Sound.of_holds hholds h.valid h.normal, Kept.refl _⟩
  | some n =>
      obtain ⟨pre, post, hnodes, -⟩ := firstFrom_eq_some h hsearch
      have hholds := h.holds
      rw [hnodes] at hholds
      obtain ⟨s, todo', hs, hholds', hkept⟩ :=
        scanNodes_spec rb last (n :: post) pre toScan shrunk hholds
      have hkept' : Kept (pieces i.nodes) (pieces (pre ++ todo')) := by
        rw [hnodes, pieces_append, pieces_append]
        exact hkept.append _
      refine ⟨s, ?_, h.of_kept hholds' hkept', by rwa [hholds'.nodes]⟩
      dsimp only
      rw [hnodes, tail_eq (not_isAt_of_nodup hholds.nodup).1 (isAt_self n)]
      exact hs

/-- **The shrinker keeps what is delayed**, and the rest is unchanged or gone. -/
theorem reclaimExtents_spec (h : i.Inv) (toScan : ℕ) :
    ∃ k j, reclaimExtents rb i toScan = some (k, j) ∧ j.Inv ∧
      Kept (pieces i.nodes) (pieces j.nodes) := by
  unfold reclaimExtents
  by_cases hshk : i.shkNr = 0
  · rw [if_pos hshk]
    exact ⟨0, i, rfl, h, Kept.refl _⟩
  · rw [if_neg hshk]
    obtain ⟨s, hs, hsound, hkept⟩ := doReclaimExtents_spec rb h.toSound extMaxBlocks toScan 0
    have hagain : ∃ s', (if !s.exhausted && decide (i.shrinkLblk ≠ 0) then
        doReclaimExtents rb s.inode (i.shrinkLblk - 1) s.toScan s.shrunk
      else some s) = some s' ∧ s'.inode.Sound ∧
        Kept (pieces i.nodes) (pieces s'.inode.nodes) := by
      split_ifs
      · obtain ⟨s', hs', hsound', hkept'⟩ :=
          doReclaimExtents_spec rb hsound (i.shrinkLblk - 1) s.toScan s.shrunk
        exact ⟨s', hs', hsound', hkept.trans hkept'⟩
      · exact ⟨s, rfl, hsound, hkept⟩
    obtain ⟨s', hs', hsound', hkept'⟩ := hagain
    refine ⟨s'.shrunk, { s'.inode with cache := none }, ?_, ?_, hkept'⟩
    · rw [hs]
      dsimp only [Option.bind_some]
      rw [hs']
      rfl
    · exact Inode.Inv.of_holds (hsound'.holds.setCache none) hsound'.valid hsound'.normal
        fun _ hc => by cases hc

theorem shrink_spec (h : i.Inv) (o : Others) :
    ∃ k j, shrink rb i o = some (k, j) ∧ j.Inv ∧ Kept (pieces i.nodes) (pieces j.nodes) := by
  unfold shrink
  split_ifs
  · exact ⟨o.shrunk, i, rfl, h, Kept.refl _⟩
  · exact reclaimExtents_spec rb h o.left

end CcNvme.ExtentStatus

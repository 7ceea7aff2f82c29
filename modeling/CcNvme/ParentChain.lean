/-
CcNvme/ParentChain.lean

The two ways to sync the directories above a file whose entry is new.  `ext4_sync_parent`
goes up as long as it finds `EXT4_STATE_NEWENTRY`, clears the flag, and syncs each directory
it gets to, with one reference in hand.  `mqfs_atomic_write_parent_submit` only submits the
directories and keeps a reference to each of them in a list, for
`mqfs_atomic_write_parent_wait` to wait, clear the flag and drop the reference.

When nothing fails the two do the same (`two_phase_parent_sync`).  When a step fails
`ext4_sync_parent` still gives back what it holds (`ext4SyncParent_settles`), but the other
loop is left with a reference that is in no list, and `ext4_atomic_file` never goes over the
list: `parent_references_iff`.
-/
import CcNvme.Lib.Custody
import CcNvme.SyncErrors
import Mathlib.Data.Nat.Find

namespace CcNvme

namespace ParentChain

open Custody

/-! ### The functions -/

/-- The directories above an inode, and the results of the steps for each. -/
structure ParentEnv where
  /-- `d_inode(dentry->d_parent)`; the root is its own -/
  parent : ℕ → ℕ
  /-- `d_find_any_alias` finds a dentry -/
  hasAlias : ℕ → Bool
  /-- `igrab` does not fail -/
  grabs : ℕ → Bool
  /-- `mqfs_submit_mapping_buffers`, `sync_mapping_buffers` -/
  buffers : ℕ → ℤ
  /-- `tx_write_inode_metadata`, `sync_inode_metadata` -/
  inode : ℕ → ℤ
  waitBuffers : ℕ → ℤ
  waitInode : ℕ → ℤ

/-- What is taken and given back. -/
inductive ParentRes where
  /-- a reference to an inode -/
  | inode (x : ℕ)
  /-- the `waiting_inode_list` node for an inode -/
  | node (x : ℕ)
  deriving DecidableEq

inductive ParentStep where
  | submitBuffers (x : ℕ)
  | submitInode (x : ℕ)
  | waitBuffers (x : ℕ)
  | waitInode (x : ℕ)
  | syncBuffers (x : ℕ)
  | syncInode (x : ℕ)
  deriving DecidableEq

structure ParentState where
  /-- `EXT4_STATE_NEWENTRY` -/
  newEntry : ℕ → Bool
  waiting : List ℕ
  uses : List (Use ParentRes)
  steps : List ParentStep

namespace ParentState

/-- No call has done anything. -/
def init (newEntry : ℕ → Bool) : ParentState := ⟨newEntry, [], [], []⟩

def clearNewEntry (st : ParentState) (x : ℕ) : ParentState :=
  { st with newEntry := Function.update st.newEntry x false }

def igrab (st : ParentState) (x : ℕ) : ParentState :=
  { st with uses := st.uses ++ [Use.take (ParentRes.inode x)] }

def iput (st : ParentState) (x : ℕ) : ParentState :=
  { st with uses := st.uses ++ [Use.release (ParentRes.inode x)] }

def step (st : ParentState) (s : ParentStep) : ParentState := { st with steps := st.steps ++ [s] }

/-- `kmalloc` and `list_add_tail` -/
def addWaiting (st : ParentState) (x : ℕ) : ParentState :=
  { st with waiting := st.waiting ++ [x], uses := st.uses ++ [Use.take (ParentRes.node x)] }

/-- `list_del_init` of the first node and `kfree` -/
def delWaiting (st : ParentState) (x : ℕ) : ParentState :=
  { st with waiting := st.waiting.tail, uses := st.uses ++ [Use.release (ParentRes.node x)] }

end ParentState

variable (T : ParentEnv)

/-- The body of the loop of `mqfs_atomic_write_parent_submit`; a value is returned when it
breaks. -/
def parentSubmitBody (inode : ℕ) (leaf : Bool) (st : ParentState) : ParentState × Option ℤ :=
  let st := if leaf then st.clearNewEntry inode else st
  let next := T.parent inode
  if !T.hasAlias inode then (st, some 0)
  else if !T.grabs next then (st, some 0)
  else
    let st := st.igrab next
    let st := if leaf then st.iput inode else st
    let st := st.step (.submitBuffers next)
    if T.buffers next ≠ 0 then (st, some (T.buffers next))
    else
      let st := st.step (.submitInode next)
      if T.inode next ≠ 0 then (st, some (T.inode next))
      else (st.addWaiting next, none)

def parentSubmitLoop : ℕ → ℕ → Bool → ParentState → Option (ParentState × ℤ)
  | 0, _, _, _ => none
  | fuel + 1, inode, leaf, st =>
      if st.newEntry inode then
        match parentSubmitBody T inode leaf st with
        | (st, some ret) => some (st, ret)
        | (st, none) => parentSubmitLoop fuel (T.parent inode) false st
      else some (st, 0)

def mqfsAtomicWriteParentSubmit (fuel inode : ℕ) (st : ParentState) : Option (ParentState × ℤ) :=
  if st.newEntry inode then parentSubmitLoop T fuel inode true (st.igrab inode) else some (st, 0)

/-- The loop over the list; `ret` is what the iteration before left. -/
def parentWaitLoop : ℤ → List ℕ → ParentState → ParentState × ℤ
  | ret, [], st => (st, ret)
  | _, inode :: rest, st =>
      let st := st.clearNewEntry inode
      let st := (st.step (.waitBuffers inode)).step (.waitInode inode)
      parentWaitLoop (T.waitInode inode) rest ((st.iput inode).delWaiting inode)

def mqfsAtomicWriteParentWait (st : ParentState) : ParentState × ℤ :=
  parentWaitLoop T 0 st.waiting st

def syncParentLoop : ℕ → ℕ → ParentState → Option (ParentState × ℤ)
  | 0, _, _ => none
  | fuel + 1, inode, st =>
      if st.newEntry inode then
        let st := st.clearNewEntry inode
        let next := T.parent inode
        if !T.hasAlias inode then some (st.iput inode, 0)
        else if !T.grabs next then some (st.iput inode, 0)
        else
          let st := (st.igrab next).iput inode
          let st := st.step (.syncBuffers next)
          if T.buffers next ≠ 0 then some (st.iput next, T.buffers next)
          else
            let st := st.step (.syncInode next)
            if T.inode next ≠ 0 then some (st.iput next, T.inode next)
            else syncParentLoop fuel next st
      else some (st.iput inode, 0)

def ext4SyncParent (fuel inode : ℕ) (st : ParentState) : Option (ParentState × ℤ) :=
  if st.newEntry inode then syncParentLoop T fuel inode (st.igrab inode) else some (st, 0)

/-- `mqfs_atomic_write_parent_submit` and `mqfs_atomic_write_parent_wait` -/
def submitAndWait (fuel inode : ℕ) (st : ParentState) : Option ParentState :=
  (mqfsAtomicWriteParentSubmit T fuel inode st).map fun r => (mqfsAtomicWriteParentWait T r.1).1

/-- `ext4_sync_file` as far as the directories go; `err` is what
`__generic_file_atomic_write_submit` returns. -/
def ext4SyncFile (fuel inode : ℕ) (err : ℤ) (st : ParentState) : Option ParentState :=
  if err = 0 then submitAndWait T fuel inode st else some st

/-- `ext4_atomic_file`, which does not go over the list -/
def ext4AtomicFile (fuel inode : ℕ) (err : ℤ) (st : ParentState) : Option ParentState :=
  if err = 0 then (mqfsAtomicWriteParentSubmit T fuel inode st).map Prod.fst else some st

/-! ### The way up -/

/-- How the loop of `mqfs_atomic_write_parent_submit` ends. -/
inductive Stop where
  /-- at an inode without the flag -/
  | top
  /-- without the next directory: no alias, or `igrab` fails -/
  | lost
  /-- the buffers of the directory, or its inode, cannot be submitted -/
  | buffers (dir : ℕ)
  | inode (dir : ℕ)
  deriving DecidableEq

namespace Stop

def ret : Stop → ℤ
  | top | lost => 0
  | buffers dir => T.buffers dir
  | inode dir => T.inode dir

def steps : Stop → List ParentStep
  | top | lost => []
  | buffers dir => [.submitBuffers dir]
  | inode dir => [.submitBuffers dir, .submitInode dir]

/-- The reference that is in no list. -/
def left : Stop → List ParentRes
  | top | lost => []
  | buffers dir | inode dir => [.inode dir]

end Stop

/-- The next directory is found and held. -/
def ParentEnv.reaches (x : ℕ) : Bool := T.hasAlias x && T.grabs (T.parent x)

/-- How an iteration at a flagged inode breaks, if it does. -/
def ParentEnv.stop (x : ℕ) : Option Stop :=
  if !T.reaches x then some .lost
  else if T.buffers (T.parent x) ≠ 0 then some (.buffers (T.parent x))
  else if T.inode (T.parent x) ≠ 0 then some (.inode (T.parent x))
  else none

/-- The directories `ps` that the loop puts on the list when it goes up from `x`, and how it
ends, while the flags stay. -/
inductive Climb (flag : ℕ → Bool) : ℕ → List ℕ → Stop → Prop
  | top {x} : flag x = false → Climb flag x [] .top
  | stop {x e} : flag x = true → T.stop x = some e → Climb flag x [] e
  | up {x ps e} : flag x = true → T.stop x = none → Climb flag (T.parent x) ps e →
      Climb flag x (T.parent x :: ps) e

/-- What is kept for a directory on the list. -/
def kept (x : ℕ) : List ParentRes := [.inode x, .node x]

def submitSteps (x : ℕ) : List ParentStep := [.submitBuffers x, .submitInode x]

def waitSteps (x : ℕ) : List ParentStep := [.waitBuffers x, .waitInode x]

/-- The loop has put `ps` on the list and ended with `e`. -/
def ParentState.climbed (st : ParentState) (ps : List ℕ) (e : Stop) : ParentState where
  newEntry := st.newEntry
  waiting := st.waiting ++ ps
  uses := st.uses ++ (ps.flatMap kept ++ e.left).map Use.take
  steps := st.steps ++ (ps.flatMap submitSteps ++ e.steps)

variable {T} {flag flag' : ℕ → Bool} {x : ℕ} {ps qs : List ℕ} {e e' : Stop} {st : ParentState}

theorem climbed_nil_top : st.climbed [] .top = st := by
  simp [ParentState.climbed, Stop.left, Stop.steps]

theorem climbed_climbed : (st.climbed ps .top).climbed qs e = st.climbed (ps ++ qs) e := by
  simp [ParentState.climbed, Stop.left, Stop.steps]

theorem stop_eq_none_iff : T.stop x = none ↔
    T.reaches x = true ∧ T.buffers (T.parent x) = 0 ∧ T.inode (T.parent x) = 0 := by
  unfold ParentEnv.stop
  split_ifs <;> simp_all

/-- The three ways to break. -/
theorem stop_eq_some (h : T.stop x = some e) :
    (T.reaches x = false ∧ e = .lost) ∨
      (T.reaches x = true ∧ T.buffers (T.parent x) ≠ 0 ∧ e = .buffers (T.parent x)) ∨
      (T.reaches x = true ∧ T.buffers (T.parent x) = 0 ∧ T.inode (T.parent x) ≠ 0 ∧
        e = .inode (T.parent x)) := by
  unfold ParentEnv.stop at h
  split_ifs at h <;> simp_all

theorem parentSubmitBody_of_lost (h : T.reaches x = false) (leaf : Bool) :
    parentSubmitBody T x leaf st = (if leaf then st.clearNewEntry x else st, some 0) := by
  unfold ParentEnv.reaches at h
  unfold parentSubmitBody
  cases halias : T.hasAlias x
  · simp
  · simp_all

/-- The next directory takes the place of the file. -/
def ParentState.moved (st : ParentState) (T : ParentEnv) (x : ℕ) (leaf : Bool) : ParentState :=
  if leaf then ((st.clearNewEntry x).igrab (T.parent x)).iput x else st.igrab (T.parent x)

theorem parentSubmitBody_of_reaches (h : T.reaches x = true) (leaf : Bool) :
    parentSubmitBody T x leaf st =
      let st := (st.moved T x leaf).step (.submitBuffers (T.parent x))
      if T.buffers (T.parent x) ≠ 0 then (st, some (T.buffers (T.parent x)))
      else
        let st := st.step (.submitInode (T.parent x))
        if T.inode (T.parent x) ≠ 0 then (st, some (T.inode (T.parent x)))
        else (st.addWaiting (T.parent x), none) := by
  rw [ParentEnv.reaches, Bool.and_eq_true] at h
  unfold parentSubmitBody ParentState.moved
  cases leaf <;> simp [h.1, h.2]

/-- The body at an inode that is not the file. -/
theorem parentSubmitBody_of_stop (h : T.stop x = some e) :
    parentSubmitBody T x false st = (st.climbed [] e, some (e.ret T)) := by
  rcases stop_eq_some h with ⟨hx, rfl⟩ | ⟨hx, hbuffers, rfl⟩ | ⟨hx, hbuffers, hinode, rfl⟩
  · rw [parentSubmitBody_of_lost hx]
    simp [ParentState.climbed, Stop.left, Stop.steps, Stop.ret]
  · rw [parentSubmitBody_of_reaches hx, if_pos hbuffers]
    simp [ParentState.climbed, Stop.left, Stop.steps, Stop.ret, ParentState.moved,
      ParentState.step, ParentState.igrab]
  · simp [parentSubmitBody_of_reaches hx, hbuffers, hinode, ParentState.climbed, Stop.left,
      Stop.steps, Stop.ret, ParentState.moved, ParentState.step, ParentState.igrab]

theorem parentSubmitBody_of_none (h : T.stop x = none) :
    parentSubmitBody T x false st = (st.climbed [T.parent x] .top, none) := by
  obtain ⟨hx, hbuffers, hinode⟩ := stop_eq_none_iff.mp h
  simp [parentSubmitBody_of_reaches hx, hbuffers, hinode, ParentState.climbed, Stop.left,
    Stop.steps, ParentState.moved, ParentState.step, ParentState.igrab, ParentState.addWaiting,
    kept, submitSteps]

/-- The loop does what the relation says, if it has the time. -/
theorem parentSubmitLoop_of_climb (h : Climb T flag x ps e) {fuel : ℕ} (hfuel : ps.length < fuel)
    (hflag : st.newEntry = flag) :
    parentSubmitLoop T fuel x false st = some (st.climbed ps e, e.ret T) := by
  induction h generalizing st fuel with
  | top hx =>
      obtain ⟨fuel, rfl⟩ := Nat.exists_eq_succ_of_ne_zero (Nat.ne_of_gt hfuel)
      rw [climbed_nil_top]
      simp [parentSubmitLoop, hflag, hx, Stop.ret]
  | stop hx hstop =>
      obtain ⟨fuel, rfl⟩ := Nat.exists_eq_succ_of_ne_zero (Nat.ne_of_gt hfuel)
      simp [parentSubmitLoop, hflag, hx, parentSubmitBody_of_stop hstop]
  | @up x _ _ hx hstop _ ih =>
      obtain ⟨fuel, rfl⟩ := Nat.exists_eq_succ_of_ne_zero (Nat.ne_zero_of_lt hfuel)
      rw [List.length_cons, Nat.succ_lt_succ_iff] at hfuel
      have hrest := @ih (st.climbed [T.parent x] .top) _ hfuel hflag
      rw [climbed_climbed] at hrest
      simpa [parentSubmitLoop, hflag, hx, parentSubmitBody_of_none hstop] using hrest

/-- If the loop ends, it has gone up. -/
theorem climb_of_parentSubmitLoop {fuel : ℕ} {r : ParentState × ℤ}
    (h : parentSubmitLoop T fuel x false st = some r) :
    ∃ ps e, Climb T st.newEntry x ps e ∧ r = (st.climbed ps e, e.ret T) := by
  induction fuel generalizing x st with
  | zero => cases h
  | succ fuel ih =>
      rw [parentSubmitLoop] at h
      split_ifs at h with hx
      · cases hstop : T.stop x with
        | none =>
            rw [parentSubmitBody_of_none hstop] at h
            obtain ⟨ps, e, hclimb, rfl⟩ := ih h
            rw [climbed_climbed]
            exact ⟨T.parent x :: ps, e, Climb.up hx hstop hclimb, rfl⟩
        | some e =>
            rw [parentSubmitBody_of_stop hstop] at h
            obtain rfl := Option.some.inj h
            exact ⟨[], e, Climb.stop hx hstop, rfl⟩
      · obtain rfl := Option.some.inj h
        rw [Bool.not_eq_true] at hx
        exact ⟨[], .top, Climb.top hx, by rw [climbed_nil_top]; rfl⟩

/-- The flags behind a pass that clears those of `l`. -/
def cleared (flag : ℕ → Bool) (l : List ℕ) (y : ℕ) : Bool := if y ∈ l then false else flag y

@[simp] theorem cleared_nil : cleared flag [] = flag := rfl

theorem cleared_cons (flag : ℕ → Bool) (x : ℕ) (l : List ℕ) :
    cleared flag (x :: l) = cleared (Function.update flag x false) l := by
  funext y
  unfold cleared
  by_cases hy : y = x <;> simp [hy]

/-- The flag of a directory stays while the loop goes up, so it does not get past a root that
has it. -/
theorem parentSubmitLoop_flagged_root (hx : st.newEntry x = true) (hroot : T.parent x = x)
    (hstop : T.stop x = none) (fuel : ℕ) : parentSubmitLoop T fuel x false st = none := by
  induction fuel generalizing st with
  | zero => rfl
  | succ fuel ih =>
      rw [parentSubmitLoop, if_pos hx, parentSubmitBody_of_none hstop, hroot]
      exact @ih (st.climbed [x] .top) hx

theorem cleared_self (hx : flag x = false) : cleared flag [x] = flag := by
  rw [cleared_cons, cleared_nil, ← hx, Function.update_eq_self]

/-- The wait gives back what is kept for the directories on the list. -/
def ParentState.waited (st : ParentState) (ps : List ℕ) : ParentState where
  newEntry := cleared st.newEntry ps
  waiting := st.waiting.drop ps.length
  uses := st.uses ++ (ps.flatMap kept).map Use.release
  steps := st.steps ++ ps.flatMap waitSteps

theorem parentWaitLoop_fst (ps : List ℕ) (ret : ℤ) (st : ParentState) :
    (parentWaitLoop T ret ps st).1 = st.waited ps := by
  induction ps generalizing ret st with
  | nil => simp [parentWaitLoop, ParentState.waited]
  | cons x ps ih =>
      rw [parentWaitLoop, ih]
      simp [ParentState.waited, ParentState.clearNewEntry, ParentState.step, ParentState.iput,
        ParentState.delWaiting, kept, waitSteps, cleared_cons]

theorem submitAndWait_of_submit {st' : ParentState} {ret : ℤ} {fuel : ℕ}
    (h : mqfsAtomicWriteParentSubmit T fuel x st = some (st', ret)) (hps : st'.waiting = ps) :
    submitAndWait T fuel x st = some { st'.waited ps with waiting := [] } := by
  subst hps
  simp [submitAndWait, h, mqfsAtomicWriteParentWait, parentWaitLoop_fst, ParentState.waited]

/-! ### Chains -/

namespace Climb

theorem unique (h : Climb T flag x ps e) (h' : Climb T flag x qs e') : ps = qs := by
  induction h generalizing qs with
  | top hx => cases h' <;> simp_all
  | stop hx hstop => cases h' <;> simp_all
  | up hx hstop _ ih =>
      cases h' with
      | top hx' => simp_all
      | stop _ hstop' => simp_all
      | up _ _ hrest => rw [ih hrest]

/-- From a directory on the way there is less to climb. -/
theorem shorter_of_mem (h : Climb T flag x ps e) {y : ℕ} (hy : y ∈ ps) :
    ∃ qs, Climb T flag y qs e ∧ qs.length < ps.length := by
  induction h with
  | top => cases hy
  | stop => cases hy
  | up _ _ hrest ih =>
      rcases List.mem_cons.mp hy with rfl | hy
      · exact ⟨_, hrest, Nat.lt_succ_self _⟩
      · obtain ⟨qs, hqs, hlt⟩ := ih hy
        exact ⟨qs, hqs, Nat.lt_succ_of_lt hlt⟩

theorem not_mem (h : Climb T flag x ps e) : x ∉ ps := by
  intro hx
  obtain ⟨qs, hqs, hlt⟩ := h.shorter_of_mem hx
  rw [h.unique hqs] at hlt
  exact Nat.lt_irrefl _ hlt

/-- No directory comes twice. -/
theorem nodup (h : Climb T flag x ps e) : ps.Nodup := by
  induction h with
  | top => exact List.nodup_nil
  | stop => exact List.nodup_nil
  | up _ _ hrest ih => exact List.nodup_cons.mpr ⟨hrest.not_mem, ih⟩

/-- Only the flags on the way matter. -/
theorem congr (h : Climb T flag x ps e) (hflag : ∀ y ∈ x :: ps, flag' y = flag y) :
    Climb T flag' x ps e := by
  induction h with
  | @top x hx => exact Climb.top ((hflag x List.mem_cons_self).trans hx)
  | @stop x _ hx hstop => exact Climb.stop ((hflag x List.mem_cons_self).trans hx) hstop
  | @up x _ _ hx hstop _ ih =>
      refine Climb.up ((hflag x List.mem_cons_self).trans hx) hstop (ih fun y hy => ?_)
      exact hflag y (List.mem_cons_of_mem _ hy)

/-- The flag of `x` itself may be cleared once it is left. -/
theorem clear (h : Climb T flag (T.parent x) ps e) (hx : x ∉ T.parent x :: ps) :
    Climb T (Function.update flag x false) (T.parent x) ps e := by
  refine h.congr fun y hy => Function.update_of_ne ?_ _ _
  rintro rfl
  exact hx hy

/-- The loop ends below an inode without the flag. -/
theorem exists_of_unflagged {n : ℕ} (h : flag (T.parent^[n] x) = false) :
    ∃ ps e, Climb T flag x ps e ∧ ps.length ≤ n := by
  induction n generalizing x with
  | zero => exact ⟨[], .top, Climb.top h, Nat.le_refl _⟩
  | succ n ih =>
      rcases hx : flag x with - | -
      · exact ⟨[], .top, Climb.top hx, Nat.zero_le _⟩
      · cases hstop : T.stop x with
        | some e => exact ⟨[], e, Climb.stop hx hstop, Nat.zero_le _⟩
        | none =>
            rw [Function.iterate_succ_apply] at h
            obtain ⟨ps, e, hclimb, hle⟩ := ih h
            exact ⟨T.parent x :: ps, e, Climb.up hx hstop hclimb, Nat.succ_le_succ hle⟩

end Climb

/-! ### The two ways -/

/-- One reference is in hand, to `x`. -/
def ParentState.Holds (st : ParentState) (x : ℕ) : Prop := after 0 st.uses = some {.inode x}

theorem ParentState.Holds.iput (h : st.Holds x) : Settled (st.iput x).uses := by
  unfold ParentState.Holds at h
  rw [ParentState.iput, Settled, after_append_of h, ← Multiset.cons_zero, after_release, after_nil]

theorem ParentState.Holds.move (h : st.Holds x) (p : ℕ) : ((st.igrab p).iput x).Holds p := by
  unfold ParentState.Holds at h ⊢
  rw [ParentState.iput, ParentState.igrab, List.append_assoc, after_append_of h,
    List.singleton_append, after_take, ← Multiset.cons_zero, Multiset.cons_swap, after_release,
    after_nil, Multiset.cons_zero]

/-- However `ext4_sync_parent` leaves its loop, the reference in hand is given back. -/
theorem syncParentLoop_settles {fuel : ℕ} {r : ParentState × ℤ} (hst : st.Holds x)
    (h : syncParentLoop T fuel x st = some r) : Settled r.1.uses := by
  induction fuel generalizing x st with
  | zero => cases h
  | succ fuel ih =>
      have hnext : (((st.clearNewEntry x).igrab (T.parent x)).iput x).Holds (T.parent x) :=
        ParentState.Holds.move hst (T.parent x)
      rw [syncParentLoop] at h
      dsimp only at h
      split_ifs at h
      · obtain rfl := Option.some.inj h
        exact hst.iput
      · obtain rfl := Option.some.inj h
        exact hst.iput
      · obtain rfl := Option.some.inj h
        exact hnext.iput
      · obtain rfl := Option.some.inj h
        exact hnext.iput
      · refine ih ?_ h
        exact hnext
      · obtain rfl := Option.some.inj h
        exact hst.iput

/-- `ext4_sync_parent` gives back every reference, whatever fails. -/
theorem ext4SyncParent_settles {fuel : ℕ} {r : ParentState × ℤ}
    (h : ext4SyncParent T fuel x (ParentState.init flag) = some r) : Settled r.1.uses := by
  unfold ext4SyncParent at h
  split_ifs at h
  · refine syncParentLoop_settles ?_ h
    exact rfl
  · obtain rfl := Option.some.inj h
    rfl

def syncSteps (x : ℕ) : List ParentStep := [.syncBuffers x, .syncInode x]

theorem stop_ne_top : T.stop x ≠ some .top := by
  intro h
  rcases stop_eq_some h with ⟨_, h⟩ | ⟨_, _, h⟩ | ⟨_, _, _, h⟩ <;> cases h

/-- `ext4_sync_parent` has gone from `x` to `p` and synced it. -/
def ParentState.syncedUp (st : ParentState) (x p : ℕ) : ParentState :=
  (((st.clearNewEntry x).igrab p).iput x |>.step (.syncBuffers p)).step (.syncInode p)

theorem syncParentLoop_of_none (hx : st.newEntry x = true) (h : T.stop x = none) (fuel : ℕ) :
    syncParentLoop T (fuel + 1) x st
      = syncParentLoop T fuel (T.parent x) (st.syncedUp x (T.parent x)) := by
  obtain ⟨hreach, hbuffers, hinode⟩ := stop_eq_none_iff.mp h
  rw [ParentEnv.reaches, Bool.and_eq_true] at hreach
  simp [syncParentLoop, hx, hreach.1, hreach.2, hbuffers, hinode, ParentState.syncedUp]

/-- The flags are cleared on the way, those of inodes that do not come again. -/
theorem syncParentLoop_of_climb (h : Climb T st.newEntry x ps .top) {fuel : ℕ}
    (hfuel : ps.length < fuel) :
    ∃ st', syncParentLoop T fuel x st = some (st', 0) ∧
      st'.newEntry = cleared st.newEntry (x :: ps) ∧ st'.waiting = st.waiting ∧
      st'.steps = st.steps ++ ps.flatMap syncSteps := by
  obtain ⟨fuel, rfl⟩ := Nat.exists_eq_succ_of_ne_zero (Nat.ne_zero_of_lt hfuel)
  induction ps generalizing x st fuel with
  | nil =>
      cases h with
      | top hx =>
          refine ⟨st.iput x, ?_, (cleared_self hx).symm, rfl, (List.append_nil _).symm⟩
          rw [syncParentLoop, if_neg (by rw [hx]; exact Bool.false_ne_true)]
      | stop _ hstop => exact absurd hstop stop_ne_top
  | cons p ps ih =>
      have hx := h.not_mem
      cases h with
      | up hflag hstop hrest =>
          rw [List.length_cons, Nat.succ_lt_succ_iff] at hfuel
          obtain ⟨fuel, rfl⟩ := Nat.exists_eq_succ_of_ne_zero (Nat.ne_zero_of_lt hfuel)
          rw [syncParentLoop_of_none hflag hstop]
          obtain ⟨st', hst', hflags, hwaiting, hsteps⟩ :=
            @ih (T.parent x) (st.syncedUp x (T.parent x)) (hrest.clear hx) fuel hfuel
          refine ⟨st', hst', hflags.trans (cleared_cons _ _ _).symm, hwaiting, ?_⟩
          rw [hsteps]
          simp [ParentState.syncedUp, ParentState.clearNewEntry, ParentState.step,
            ParentState.igrab, ParentState.iput, syncSteps]

/-- The file's own iteration, when nothing fails in it. -/
theorem parentSubmitBody_leaf_of_none (h : T.stop x = none) :
    parentSubmitBody T x true st =
      (((((st.clearNewEntry x).igrab (T.parent x)).iput x).step (.submitBuffers (T.parent x))
        |>.step (.submitInode (T.parent x))).addWaiting (T.parent x), none) := by
  obtain ⟨hreach, hbuffers, hinode⟩ := stop_eq_none_iff.mp h
  simp [parentSubmitBody_of_reaches hreach, hbuffers, hinode, ParentState.moved]

/-- The file has been left for its parent, which is on the list. -/
def ParentState.leftFile (st : ParentState) (x p : ℕ) : ParentState where
  newEntry := Function.update st.newEntry x false
  waiting := st.waiting ++ [p]
  uses := st.uses ++
    [Use.take (.inode x), Use.take (.inode p), Use.release (.inode x), Use.take (.node p)]
  steps := st.steps ++ submitSteps p

theorem mqfsAtomicWriteParentSubmit_of_none (hx : flag x = true) (h : T.stop x = none)
    (fuel : ℕ) :
    mqfsAtomicWriteParentSubmit T (fuel + 1) x (ParentState.init flag) =
      parentSubmitLoop T fuel (T.parent x) false
        ((ParentState.init flag).leftFile x (T.parent x)) := by
  simp [mqfsAtomicWriteParentSubmit, ParentState.init, hx, parentSubmitLoop,
    parentSubmitBody_leaf_of_none h, ParentState.leftFile, ParentState.clearNewEntry,
    ParentState.step, ParentState.igrab, ParentState.iput, ParentState.addWaiting, submitSteps]

/-- What is held when the loop has ended with `e`, and when the wait is through. -/
theorem after_submit (x p : ℕ) (ps : List ℕ) (e : Stop) :
    after 0 (((ParentState.init flag).leftFile x p).climbed ps e).uses
      = some (((p :: ps).flatMap kept ++ e.left : List ParentRes) : Multiset ParentRes) := by
  have hfile : after 0 ((ParentState.init flag).leftFile x p).uses
      = some (kept p : Multiset ParentRes) := by
    simp only [ParentState.leftFile, ParentState.init, List.nil_append, after_take]
    rw [Multiset.cons_swap, after_release, after_take, Multiset.cons_swap]
    rfl
  unfold ParentState.climbed
  rw [after_append_of hfile, after_takes, Multiset.add_comm, Multiset.coe_add,
    List.flatMap_cons, List.append_assoc]

theorem after_submit_wait (x p : ℕ) (ps : List ℕ) (e : Stop) :
    after 0 ((((ParentState.init flag).leftFile x p).climbed ps e).waited (p :: ps)).uses
      = some (e.left : Multiset ParentRes) := by
  unfold ParentState.waited
  rw [after_append_of (after_submit x p ps e), ← Multiset.coe_add, after_releases]

theorem settled_submit_wait_iff (x p : ℕ) (ps : List ℕ) (e : Stop) :
    Settled ((((ParentState.init flag).leftFile x p).climbed ps e).waited (p :: ps)).uses ↔
      e.left = [] := by
  rw [Settled, after_submit_wait, Option.some.injEq, Multiset.coe_eq_zero]

/-- No step fails on the way from an inode to its parent. -/
structure ParentEnv.Succeeds (T : ParentEnv) (x : ℕ) : Prop where
  hasAlias : T.hasAlias x = true
  grabs : T.grabs (T.parent x) = true
  buffers : T.buffers (T.parent x) = 0
  inode : T.inode (T.parent x) = 0

theorem ParentEnv.Succeeds.stop_eq_none (h : T.Succeeds x) : T.stop x = none :=
  stop_eq_none_iff.mpr ⟨by rw [ParentEnv.reaches, h.hasAlias, h.grabs]; rfl, h.buffers, h.inode⟩

/-- The parents of the flagged inodes from `x` on, the last of them the first inode without the
flag. -/
def newParents (T : ParentEnv) (flag : ℕ → Bool) (x : ℕ)
    (h : ∃ n, flag (T.parent^[n] x) = false) : List ℕ :=
  (List.range (Nat.find h)).map fun i => T.parent^[i + 1] x

theorem climb_newParents {n : ℕ} (hflag : ∀ i < n, flag (T.parent^[i] x) = true)
    (hn : flag (T.parent^[n] x) = false) (hok : ∀ i < n, T.Succeeds (T.parent^[i] x)) :
    Climb T flag x ((List.range n).map fun i => T.parent^[i + 1] x) .top := by
  induction n generalizing x with
  | zero => exact Climb.top hn
  | succ n ih =>
      rw [List.range_succ_eq_map, List.map_cons, List.map_map]
      refine Climb.up (hflag 0 (Nat.succ_pos n)) (hok 0 (Nat.succ_pos n)).stop_eq_none ?_
      exact ih (fun i hi => hflag (i + 1) (Nat.succ_lt_succ hi)) hn
        fun i hi => hok (i + 1) (Nat.succ_lt_succ hi)

/-- What either call leaves when it has gone up from `x` over `ps`. -/
structure GoneUp (flag : ℕ → Bool) (x : ℕ) (ps : List ℕ) (st : ParentState) : Prop where
  newEntry : st.newEntry = cleared flag (x :: ps)
  waiting : st.waiting = []
  settled : Settled st.uses

theorem GoneUp.init (hx : flag x = false) : GoneUp flag x [] (ParentState.init flag) :=
  ⟨(cleared_self hx).symm, rfl, rfl⟩

theorem mqfsAtomicWriteParentSubmit_of_unflagged (hx : flag x = false) (fuel : ℕ) :
    mqfsAtomicWriteParentSubmit T fuel x (ParentState.init flag)
      = some (ParentState.init flag, 0) := by
  rw [mqfsAtomicWriteParentSubmit, if_neg (by simp [ParentState.init, hx])]

theorem submitAndWait_of_climb (h : Climb T flag x ps .top) {fuel : ℕ} (hfuel : ps.length < fuel) :
    ∃ st, submitAndWait T fuel x (ParentState.init flag) = some st ∧ GoneUp flag x ps st ∧
      st.steps = ps.flatMap submitSteps ++ ps.flatMap waitSteps := by
  obtain ⟨fuel, rfl⟩ := Nat.exists_eq_succ_of_ne_zero (Nat.ne_zero_of_lt hfuel)
  have hnot := h.not_mem
  cases h with
  | top hx =>
      rw [submitAndWait, mqfsAtomicWriteParentSubmit_of_unflagged hx]
      exact ⟨_, rfl, GoneUp.init hx, rfl⟩
  | stop _ hstop => exact absurd hstop stop_ne_top
  | @up _ ps _ hx hstop hrest =>
      rw [List.length_cons, Nat.succ_lt_succ_iff] at hfuel
      have hsubmit := mqfsAtomicWriteParentSubmit_of_none hx hstop fuel
      rw [parentSubmitLoop_of_climb (hrest.clear hnot) hfuel rfl] at hsubmit
      refine ⟨_, submitAndWait_of_submit hsubmit rfl,
        ⟨(cleared_cons flag x _).symm, rfl,
          (settled_submit_wait_iff x (T.parent x) ps .top).mpr rfl⟩, ?_⟩
      simp [ParentState.waited, ParentState.climbed, ParentState.leftFile, ParentState.init,
        Stop.steps]

theorem ext4SyncParent_of_climb (h : Climb T flag x ps .top) {fuel : ℕ} (hfuel : ps.length < fuel) :
    ∃ st, ext4SyncParent T fuel x (ParentState.init flag) = some (st, 0) ∧ GoneUp flag x ps st ∧
      st.steps = ps.flatMap syncSteps := by
  rcases hx : flag x with - | -
  · have hnil : ps = [] := h.unique (Climb.top hx)
    subst hnil
    rw [ext4SyncParent, if_neg (by simp [ParentState.init, hx])]
    exact ⟨_, rfl, GoneUp.init hx, rfl⟩
  · have hclimb : Climb T ((ParentState.init flag).igrab x).newEntry x ps .top := h
    obtain ⟨st, hst, hflags, hwaiting, hsteps⟩ := syncParentLoop_of_climb hclimb hfuel
    have hcall : ext4SyncParent T fuel x (ParentState.init flag) = some (st, 0) := by
      rw [ext4SyncParent, if_pos (by exact hx), hst]
    exact ⟨st, hcall, ⟨hflags, hwaiting, ext4SyncParent_settles hcall⟩, hsteps⟩

/-- For every chain of directories that ends in one without the flag, and every assignment of
the flag, when no step fails: both ways return; the directories submitted and waited for, and
those synced, are the parents of the flagged inodes, bottom-up and each once; both leave the
same flags, and the references and the list as they were. -/
theorem two_phase_parent_sync (T : ParentEnv) (inode : ℕ) (newEntry : ℕ → Bool)
    (hroot : ∃ n, newEntry (T.parent^[n] inode) = false)
    (hok : ∀ i < Nat.find hroot, T.Succeeds (T.parent^[i] inode)) :
    (newParents T newEntry inode hroot).Nodup ∧ ∀ fuel > Nat.find hroot,
      ∃ st₁ st₂, submitAndWait T fuel inode (ParentState.init newEntry) = some st₁ ∧
        ext4SyncParent T fuel inode (ParentState.init newEntry) = some (st₂, 0) ∧
        st₁.steps = (newParents T newEntry inode hroot).flatMap submitSteps ++
          (newParents T newEntry inode hroot).flatMap waitSteps ∧
        st₂.steps = (newParents T newEntry inode hroot).flatMap syncSteps ∧
        st₁.newEntry = st₂.newEntry ∧
        (∀ held, after held st₁.uses = some held) ∧ (∀ held, after held st₂.uses = some held) ∧
        st₁.waiting = [] := by
  have hclimb : Climb T newEntry inode (newParents T newEntry inode hroot) .top := by
    refine climb_newParents (fun i hi => ?_) (Nat.find_spec hroot) hok
    exact Bool.not_eq_false _ ▸ Nat.find_min hroot hi
  refine ⟨hclimb.nodup, fun fuel hfuel => ?_⟩
  have hlength : (newParents T newEntry inode hroot).length < fuel := by
    rw [newParents, List.length_map, List.length_range]
    exact hfuel
  obtain ⟨st₁, h₁, hup₁, hsteps₁⟩ := submitAndWait_of_climb hclimb hlength
  obtain ⟨st₂, h₂, hup₂, hsteps₂⟩ := ext4SyncParent_of_climb hclimb hlength
  exact ⟨st₁, st₂, h₁, h₂, hsteps₁, hsteps₂, hup₁.newEntry.trans hup₂.newEntry.symm,
    hup₁.settled.after_eq, hup₂.settled.after_eq, hup₁.waiting⟩

/-- Four directories in one another under the root 0, and no failing step. -/
def chainEnv : ParentEnv where
  parent x := x - 1
  hasAlias _ := true
  grabs _ := true
  buffers _ := 0
  inode _ := 0
  waitBuffers _ := 0
  waitInode _ := 0

theorem chainEnv_succeeds (x : ℕ) : chainEnv.Succeeds x := ⟨rfl, rfl, rfl, rfl⟩

def newAbove (x : ℕ) : Bool := decide (2 < x)

/-- Of the file 5 and the directories above it, 5, 4 and 3 are new: 4, 3 and 2 are synced. -/
theorem two_phase_parent_sync_chain :
    (∃ st, submitAndWait chainEnv 6 5 (ParentState.init newAbove) = some st ∧
      st.steps = [4, 3, 2].flatMap submitSteps ++ [4, 3, 2].flatMap waitSteps) ∧
    ∃ st₁ st₂, submitAndWait chainEnv 6 5 (ParentState.init newAbove) = some st₁ ∧
      ext4SyncParent chainEnv 6 5 (ParentState.init newAbove) = some (st₂, 0) ∧
      st₁.newEntry = st₂.newEntry ∧ (∀ held, after held st₁.uses = some held) ∧
      (∀ held, after held st₂.uses = some held) ∧ st₁.waiting = [] := by
  refine ⟨⟨_, rfl, by decide +kernel⟩, ?_⟩
  have hroot : ∃ n, newAbove (chainEnv.parent^[n] 5) = false := ⟨3, by decide⟩
  have hfind : Nat.find hroot ≤ 3 := Nat.find_min' hroot (by decide)
  obtain ⟨st₁, st₂, h₁, h₂, -, -, hflags, hrefs₁, hrefs₂, hwaiting⟩ :=
    (two_phase_parent_sync chainEnv 5 newAbove hroot fun _ _ => chainEnv_succeeds _).2 6
      (Nat.lt_of_le_of_lt hfind (by decide))
  exact ⟨st₁, st₂, h₁, h₂, hflags, hrefs₁, hrefs₂, hwaiting⟩

/-! ### When a step fails -/

/-- The result of a submission. -/
def ParentStep.submitResult (T : ParentEnv) : ParentStep → ℤ
  | .submitBuffers x => T.buffers x
  | .submitInode x => T.inode x
  | _ => 0

/-- Every submission that is made succeeds. -/
def SubmissionsOk (T : ParentEnv) (steps : List ParentStep) : Prop :=
  ∀ s ∈ steps, s.submitResult T = 0

theorem submissionsOk_append {l l' : List ParentStep} :
    SubmissionsOk T (l ++ l') ↔ SubmissionsOk T l ∧ SubmissionsOk T l' :=
  List.forall_mem_append

theorem submissionsOk_waitSteps (ps : List ℕ) : SubmissionsOk T (ps.flatMap waitSteps) := by
  unfold SubmissionsOk
  rw [List.forall_mem_flatMap]
  simp [waitSteps, ParentStep.submitResult]

theorem submissionsOk_submitSteps (h : T.stop x = none) :
    SubmissionsOk T (submitSteps (T.parent x)) := by
  obtain ⟨-, hbuffers, hinode⟩ := stop_eq_none_iff.mp h
  simp [SubmissionsOk, submitSteps, ParentStep.submitResult, hbuffers, hinode]

/-- The loop breaks without losing a directory when no submission fails. -/
theorem submissionsOk_stop_iff (h : T.stop x = some e) :
    SubmissionsOk T e.steps ↔ e = .lost := by
  rcases stop_eq_some h with ⟨-, rfl⟩ | ⟨-, hbuffers, rfl⟩ | ⟨-, -, hinode, rfl⟩
  · simp [SubmissionsOk, Stop.steps]
  · simp [SubmissionsOk, Stop.steps, ParentStep.submitResult, hbuffers]
  · simp [SubmissionsOk, Stop.steps, ParentStep.submitResult, hinode]

/-- A directory is left in no list when a submission fails, and only then. -/
theorem Climb.submissionsOk_iff (h : Climb T flag x ps e) :
    SubmissionsOk T (ps.flatMap submitSteps ++ e.steps) ↔ e.left = [] := by
  induction h with
  | top => simp [SubmissionsOk, Stop.steps, Stop.left]
  | stop _ hstop =>
      rw [List.flatMap_nil, List.nil_append, submissionsOk_stop_iff hstop]
      rcases stop_eq_some hstop with ⟨-, rfl⟩ | ⟨-, -, rfl⟩ | ⟨-, -, -, rfl⟩ <;> simp [Stop.left]
  | up _ hstop _ ih =>
      rw [List.flatMap_cons, List.append_assoc, submissionsOk_append, ih]
      exact and_iff_right (submissionsOk_submitSteps hstop)

/-- The iteration at the file breaks. -/
theorem mqfsAtomicWriteParentSubmit_of_stop (hx : flag x = true) (h : T.stop x = some e)
    (fuel : ℕ) :
    ∃ st, mqfsAtomicWriteParentSubmit T (fuel + 1) x (ParentState.init flag)
        = some (st, e.ret T) ∧ st.waiting = [] ∧ st.steps = e.steps ∧ st.uses =
          Use.take (.inode x) :: e.left.flatMap fun r => [Use.take r, Use.release (.inode x)] := by
  have hloop : mqfsAtomicWriteParentSubmit T (fuel + 1) x (ParentState.init flag)
      = match parentSubmitBody T x true ((ParentState.init flag).igrab x) with
        | (st, some ret) => some (st, ret)
        | (st, none) => parentSubmitLoop T fuel (T.parent x) false st := by
    simp [mqfsAtomicWriteParentSubmit, ParentState.init, hx, parentSubmitLoop, ParentState.igrab]
  rw [hloop]
  rcases stop_eq_some h with ⟨hreach, rfl⟩ | ⟨hreach, hbuffers, rfl⟩ |
    ⟨hreach, hbuffers, hinode, rfl⟩
  · rw [parentSubmitBody_of_lost hreach]
    exact ⟨_, rfl, rfl, rfl, rfl⟩
  · rw [parentSubmitBody_of_reaches hreach, if_pos hbuffers]
    exact ⟨_, rfl, rfl, rfl, rfl⟩
  · rw [parentSubmitBody_of_reaches hreach, if_neg (not_not.mpr hbuffers), if_pos hinode]
    exact ⟨_, rfl, rfl, rfl, rfl⟩

/-- The iteration at the file breaks with one reference taken and not given back. -/
theorem after_stop (h : T.stop x = some e) : ∃ r : ParentRes,
    after 0 (Use.take (.inode x) :: e.left.flatMap fun r => [Use.take r, Use.release (.inode x)])
      = some {r} := by
  have hleft (dir : ℕ) : after 0 [Use.take (ParentRes.inode x), Use.take (.inode dir),
      Use.release (.inode x)] = some {.inode dir} := by
    rw [after_take, after_take, Multiset.cons_swap, after_release, after_nil]
    rfl
  rcases stop_eq_some h with ⟨-, rfl⟩ | ⟨-, -, rfl⟩ | ⟨-, -, -, rfl⟩
  · exact ⟨.inode x, rfl⟩
  · exact ⟨.inode (T.parent x), hleft (T.parent x)⟩
  · exact ⟨.inode (T.parent x), hleft (T.parent x)⟩

theorem not_settled_of_after {us : List (Use ParentRes)} {held : Multiset ParentRes}
    (h : after 0 us = some held) (hne : held ≠ 0) : ¬ Settled us := by
  rw [Settled, h, Option.some.injEq]
  exact hne

/-- How `mqfs_atomic_write_parent_submit` leaves a flagged file. -/
inductive SubmitOutcome (T : ParentEnv) (flag : ℕ → Bool) (x : ℕ) (st : ParentState) : Prop
  /-- at once, with one reference -/
  | stopped (r : ParentRes) (waiting : st.waiting = []) (uses : after 0 st.uses = some {r})
      (fails : ¬ (T.reaches x = true ∧ SubmissionsOk T st.steps))
  /-- with the directories from its parent on in the list -/
  | listed (ps : List ℕ) (e : Stop) (reaches : T.reaches x = true)
      (eq : st = ((ParentState.init flag).leftFile x (T.parent x)).climbed ps e)
      (ok : SubmissionsOk T st.steps ↔ e.left = [])

theorem submitOutcome (hx : flag x = true) {fuel : ℕ} {ret : ℤ}
    (h : mqfsAtomicWriteParentSubmit T fuel x (ParentState.init flag) = some (st, ret)) :
    SubmitOutcome T flag x st := by
  cases fuel with
  | zero =>
      rw [mqfsAtomicWriteParentSubmit, if_pos (by exact hx)] at h
      cases h
  | succ fuel =>
      cases hstop : T.stop x with
      | some e =>
          obtain ⟨st', hst', hwaiting, hsteps, huses⟩ :=
            mqfsAtomicWriteParentSubmit_of_stop hx hstop fuel
          obtain ⟨rfl, -⟩ := Prod.mk.inj (Option.some.inj (hst'.symm.trans h))
          obtain ⟨r, hr⟩ := after_stop hstop
          refine .stopped r hwaiting (huses ▸ hr) ?_
          rintro ⟨hreach, hok⟩
          rw [hsteps, submissionsOk_stop_iff hstop] at hok
          subst hok
          rcases stop_eq_some hstop with ⟨hlost, -⟩ | ⟨-, -, h⟩ | ⟨-, -, -, h⟩
          · rw [hlost] at hreach
            cases hreach
          · cases h
          · cases h
      | none =>
          rw [mqfsAtomicWriteParentSubmit_of_none hx hstop] at h
          obtain ⟨ps, e, hclimb, hr⟩ := climb_of_parentSubmitLoop h
          obtain ⟨rfl, -⟩ := Prod.mk.inj hr
          refine .listed ps e (stop_eq_none_iff.mp hstop).1 rfl ?_
          rw [← hclimb.submissionsOk_iff]
          -- the steps are those for the parent and those of the climb
          show SubmissionsOk T (submitSteps (T.parent x) ++ _) ↔ _
          rw [submissionsOk_append]
          exact and_iff_right (submissionsOk_submitSteps hstop)

theorem submitAndWait_settled_iff (hx : flag x = true) {fuel : ℕ}
    (h : submitAndWait T fuel x (ParentState.init flag) = some st) :
    Settled st.uses ↔ T.reaches x = true ∧ SubmissionsOk T st.steps := by
  obtain ⟨⟨st', ret⟩, hsubmit, -⟩ := Option.map_eq_some_iff.mp h
  rw [submitAndWait_of_submit hsubmit rfl] at h
  obtain rfl := Option.some.inj h
  have hsteps : SubmissionsOk T (st'.steps ++ st'.waiting.flatMap waitSteps) ↔
      SubmissionsOk T st'.steps := by
    rw [submissionsOk_append]
    exact and_iff_left (submissionsOk_waitSteps _)
  show Settled (st'.uses ++ _) ↔ _ ∧ SubmissionsOk T (st'.steps ++ _)
  rw [hsteps]
  cases submitOutcome hx hsubmit with
  | stopped r hwaiting huses hfails =>
      rw [hwaiting, List.flatMap_nil, List.map_nil, List.append_nil]
      exact iff_of_false (not_settled_of_after huses (Multiset.singleton_ne_zero r)) hfails
  | listed ps e hreach heq hok =>
      rw [hok, and_iff_right hreach]
      subst heq
      exact settled_submit_wait_iff x (T.parent x) ps e

theorem submit_not_settled (hx : flag x = true) {fuel : ℕ} {ret : ℤ}
    (h : mqfsAtomicWriteParentSubmit T fuel x (ParentState.init flag) = some (st, ret)) :
    ¬ Settled st.uses := by
  cases submitOutcome hx h with
  | stopped r _ huses _ => exact not_settled_of_after huses (Multiset.singleton_ne_zero r)
  | listed ps e _ heq _ =>
      subst heq
      exact not_settled_of_after (after_submit x (T.parent x) ps e) (by simp [kept])

/-- Below a directory without the flag the loop ends. -/
theorem mqfsAtomicWriteParentSubmit_returns {n fuel : ℕ} (h : flag (T.parent^[n] x) = false)
    (hfuel : n < fuel) :
    ∃ st ret, mqfsAtomicWriteParentSubmit T fuel x (ParentState.init flag) = some (st, ret) := by
  obtain ⟨fuel, rfl⟩ := Nat.exists_eq_succ_of_ne_zero (Nat.ne_zero_of_lt hfuel)
  rcases hx : flag x with - | -
  · exact ⟨_, _, mqfsAtomicWriteParentSubmit_of_unflagged hx _⟩
  · cases hstop : T.stop x with
    | some e =>
        obtain ⟨st, hst, -⟩ := mqfsAtomicWriteParentSubmit_of_stop hx hstop fuel
        exact ⟨st, _, hst⟩
    | none =>
        cases n with
        | zero =>
            rw [Function.iterate_zero_apply, hx] at h
            cases h
        | succ n =>
            rw [mqfsAtomicWriteParentSubmit_of_none hx hstop]
            rw [Function.iterate_succ_apply] at h
            have hflag : Function.update flag x false (T.parent^[n] (T.parent x)) = false := by
              rw [Function.update_apply, h, ite_self]
            obtain ⟨ps, e, hclimb, hle⟩ := Climb.exists_of_unflagged hflag
            exact ⟨_, _, parentSubmitLoop_of_climb hclimb (by omega) rfl⟩

/-- For every chain of directories, every assignment of the flag and every pattern of results:
when `ext4_sync_file` ends it has given back every reference and freed every node exactly when
the submission of the file fails, or the file does not have the flag, or its parent is found
and held and every submission that is made for a directory succeeds; for `ext4_atomic_file` it
is the first two.  Both end below a directory without the flag. -/
theorem parent_references_iff (T : ParentEnv) (fuel inode : ℕ) (err : ℤ) (newEntry : ℕ → Bool) :
    (∀ st, ext4SyncFile T fuel inode err (ParentState.init newEntry) = some st →
      (Settled st.uses ↔ err ≠ 0 ∨ newEntry inode = false ∨
        (T.reaches inode = true ∧ SubmissionsOk T st.steps))) ∧
    (∀ st, ext4AtomicFile T fuel inode err (ParentState.init newEntry) = some st →
      (Settled st.uses ↔ err ≠ 0 ∨ newEntry inode = false)) ∧
    ∀ n < fuel, newEntry (T.parent^[n] inode) = false →
      (∃ st, ext4SyncFile T fuel inode err (ParentState.init newEntry) = some st) ∧
      ∃ st, ext4AtomicFile T fuel inode err (ParentState.init newEntry) = some st := by
  unfold ext4SyncFile ext4AtomicFile
  rcases eq_or_ne err 0 with rfl | herr
  · simp only [↓reduceIte, ne_eq, not_true_eq_false, false_or]
    refine ⟨fun st h => ?_, fun st h => ?_, fun n hn hroot => ?_⟩
    · rcases hx : newEntry inode with - | -
      · rw [submitAndWait, mqfsAtomicWriteParentSubmit_of_unflagged hx] at h
        obtain rfl := Option.some.inj h
        exact iff_of_true rfl (Or.inl rfl)
      · rw [submitAndWait_settled_iff hx h]
        simp
    · obtain ⟨⟨st', ret⟩, hsubmit, rfl⟩ := Option.map_eq_some_iff.mp h
      rcases hx : newEntry inode with - | -
      · rw [mqfsAtomicWriteParentSubmit_of_unflagged hx] at hsubmit
        obtain ⟨rfl, -⟩ := Prod.mk.inj (Option.some.inj hsubmit)
        exact iff_of_true rfl rfl
      · exact iff_of_false (submit_not_settled hx hsubmit) (by simp)
    · obtain ⟨st, ret, hsubmit⟩ := mqfsAtomicWriteParentSubmit_returns hroot hn
      exact ⟨⟨_, submitAndWait_of_submit hsubmit rfl⟩, ⟨st, by rw [hsubmit]; rfl⟩⟩
  · simp only [herr, ↓reduceIte, ne_eq, not_false_eq_true, true_or, iff_true, Option.some.injEq]
    refine ⟨?_, ?_, fun _ _ _ => ⟨⟨_, rfl⟩, ⟨_, rfl⟩⟩⟩
    · rintro st rfl
      rfl
    · rintro st rfl
      rfl

/-- The grandparent is not found: what is in the list is given back. -/
theorem parent_references_lost_above :
    (∃ st, ext4SyncFile { chainEnv with hasAlias := fun x => decide (x ≠ 4) } 6 5 0
        (ParentState.init newAbove) = some st ∧ st.steps = submitSteps 4 ++ waitSteps 4) ∧
      ∃ st, ext4SyncFile { chainEnv with hasAlias := fun x => decide (x ≠ 4) } 6 5 0
        (ParentState.init newAbove) = some st ∧ Settled st.uses := by
  refine ⟨⟨_, rfl, by decide +kernel⟩, _, rfl, ?_⟩
  refine ((parent_references_iff { chainEnv with hasAlias := fun x => decide (x ≠ 4) } 6 5 0
    newAbove).1 _ rfl).mpr (Or.inr (Or.inr ⟨by decide, ?_⟩))
  unfold SubmissionsOk
  decide +kernel

/-- The reference to the file stays when it has no alias, that to its parent when the inode of
the parent cannot be submitted with `-EIO`; `ext4_atomic_file` keeps all it has taken when
nothing fails. -/
theorem parent_references_leak :
    (∃ st, ext4SyncFile { chainEnv with hasAlias := fun x => decide (x ≠ 5) } 6 5 0
        (ParentState.init newAbove) = some st ∧
        after 0 st.uses = some {.inode 5} ∧ ¬ Settled st.uses) ∧
      (∃ st, ext4SyncFile { chainEnv with inode := fun x => if x = 4 then -5 else 0 } 6 5 0
        (ParentState.init newAbove) = some st ∧
        after 0 st.uses = some {.inode 4} ∧ ¬ Settled st.uses) ∧
      ∃ st, ext4AtomicFile chainEnv 6 5 0 (ParentState.init newAbove) = some st ∧
        after 0 st.uses = some {.inode 4, .node 4, .inode 3, .node 3, .inode 2, .node 2} ∧
        ¬ Settled st.uses := by
  refine ⟨⟨_, rfl, ?_, ?_⟩, ⟨_, rfl, ?_, ?_⟩, _, rfl, ?_, ?_⟩ <;> decide +kernel

/-! ### The results -/

/-- What `SyncErrors` is given for a directory. -/
def ParentEnv.results (T : ParentEnv) (x : ℕ) : ParentResults where
  buffers := T.buffers x
  inode := T.inode x
  waitBuffers := T.waitBuffers x
  waitInode := T.waitInode x

/-- The directory at which the loop breaks. -/
def Stop.dirs : Stop → List ℕ
  | top | lost => []
  | buffers dir | inode dir => [dir]

/-- Given the results for the directories that the loop gets to, `SyncErrors` has the same
list. -/
theorem Climb.waitingList_results (h : Climb T flag x ps e) :
    waitingList ((ps ++ e.dirs).map T.results) = ps.map T.results := by
  induction h with
  | top => rfl
  | stop _ hstop =>
      rcases stop_eq_some hstop with ⟨-, rfl⟩ | ⟨-, hbuffers, rfl⟩ | ⟨-, -, hinode, rfl⟩
      · rfl
      · simp [waitingList, Stop.dirs, ParentEnv.results, hbuffers]
      · simp [waitingList, Stop.dirs, ParentEnv.results, hinode]
  | up _ hstop _ ih =>
      obtain ⟨-, hbuffers, hinode⟩ := stop_eq_none_iff.mp hstop
      unfold waitingList at ih ⊢
      rw [List.cons_append, List.map_cons, List.takeWhile_cons, ih]
      simp [ParentEnv.results, hbuffers, hinode]

/-- And the wait returns the same. -/
theorem mqfsAtomicWriteParentWait_snd (st : ParentState) :
    (mqfsAtomicWriteParentWait T st).2 = parentWaitErr 0 (st.waiting.map T.results) := by
  have hloop (ps : List ℕ) (ret : ℤ) (st : ParentState) :
      (parentWaitLoop T ret ps st).2 = parentWaitErr ret (ps.map T.results) := by
    induction ps generalizing ret st with
    | nil => rfl
    | cons x ps ih =>
        rw [parentWaitLoop, ih, List.map_cons, parentWaitErr_cons]
        rfl
  exact hloop st.waiting 0 st

end ParentChain

end CcNvme

/-
CcNvme/PageSharing/Written.lean

What a call of `fsync` gets for its inode.  The invariant says of each call, by its place in the
code, where the change is that it came for: not yet sent and marked, carried by a bio from the
buffer that the call has claimed, or in a copy on its list.  When the buffers and the copies have
been waited for, a completed bio has it.

All this is for one call at a time for an inode, which the inode lock gives for a file.  The
parents of a new file are written without their locks; two calls for one directory can free each
other's copies (at the end).
-/
import CcNvme.PageSharing.Lists

namespace CcNvme.PageSharing

open Snapshot (floor)

variable {ι β : Type} {blk : ι → β} {w w' : World ι β} {t : ℕ} {u v : Call ι β}

/-! ### The invariant -/

/-- Where the change is that the call came for. -/
def Fits (blk : ι → β) (w : World ι β) (u : Call ι β) : Prop :=
  match u.stage with
  | .enter | .shared | .lockCopy => u.since ≤ w.marked u.inode
  | .claimed => u.since ≤ w.marked u.inode ∧ blk u.inode ∈ w.pending u.inode
  | .copying got => u.since ≤ w.marked u.inode ∧ ∀ n, got u.inode = some n → u.since ≤ n
  | .listed k => InCopy blk w u.inode u.since k ∧ k ∈ w.copyouts u.inode
  | .check => Sent blk w u.inode u.since u.err (w.pending u.inode) (w.copyouts u.inode)
  | .written | .drain =>
      u.werr ≠ -12 →
        Sent blk w u.inode u.since u.err (w.pending u.inode) (w.copyouts u.inode)
  | .waitBuf b =>
      u.werr ≠ -12 →
        Sent blk w u.inode u.since u.err (b :: w.pending u.inode) (w.copyouts u.inode)
  | .drainCopies =>
      u.werr ≠ -12 → Sent blk w u.inode u.since u.err [] (w.copyouts u.inode)
  | .waitCopy k =>
      u.werr ≠ -12 → Sent blk w u.inode u.since u.err [] (k :: w.copyouts u.inode)
  | .done waited => waited = true → u.werr ≠ -12 → Covered blk w u.inode u.since u.err

structure Inv (blk : ι → β) (w : World ι β) : Prop where
  bug : w.bug = false
  marked : ∀ j, w.marked j ≤ w.data j
  /-- what is in a buffer that is not dirty has been sent from it -/
  clean : ∀ j, (w.heads (blk j)).dirty = false → Carried blk w j (w.marked j)
  locks : Locks blk w.bios w.heads w.copies w.calls
  claims : Claims blk w.assoc w.pending w.privateData
  copies : Copies w.bios w.copies w.copyouts w.calls
  exclusive : Exclusive w.calls
  fits : ∀ (t : ℕ) (u : Call ι β), w.calls[t]? = some u → Fits blk w u

/-- A call stays where it fits if its lists stay as they are. -/
theorem Fits.frame (h : Fits blk w u) (hl : Later w w')
    (hp : u.stage.isDone = false → w'.pending u.inode = w.pending u.inode)
    (hk : u.stage.isDone = false → w'.copyouts u.inode = w.copyouts u.inode) :
    Fits blk w' u := by
  unfold Fits at h ⊢
  rcases hst : u.stage with - | - | - | - | got | k | - | - | - | b | - | k | waited <;>
    simp only [hst, Stage.isDone, Bool.true_eq_false, false_implies, forall_true_left] at h hp hk ⊢
  · exact h.trans (hl.marked _)
  · rw [hp]
    exact ⟨h.1.trans (hl.marked _), h.2⟩
  · exact h.trans (hl.marked _)
  · exact h.trans (hl.marked _)
  · exact ⟨h.1.trans (hl.marked _), h.2⟩
  · rw [hk]
    exact ⟨hl.inCopy h.1, h.2⟩
  · rw [hp, hk]
    exact hl.sent h
  · rw [hp, hk]
    exact fun he => hl.sent (h he)
  · rw [hp, hk]
    exact fun he => hl.sent (h he)
  · rw [hp, hk]
    exact fun he => hl.sent (h he)
  · rw [hk]
    exact fun he => hl.sent (h he)
  · rw [hk]
    exact fun he => hl.sent (h he)
  · exact fun hd he => hl.covered (h hd he)

namespace Inv

/-- Everything but the calls' places is as it was. -/
theorem frame_fits (h : Inv blk w) (hl : Later w w') (hp : w'.pending = w.pending)
    (hk : w'.copyouts = w.copyouts) (hc : w'.calls = w.calls) :
    ∀ (t : ℕ) (u : Call ι β), w'.calls[t]? = some u → Fits blk w' u := by
  intro t u hu
  rw [hc] at hu
  exact (h.fits t u hu).frame hl (fun _ => by rw [hp]) fun _ => by rw [hk]

theorem clean_of_later (h : Inv blk w) (hl : Later w w') (hm : w'.marked = w.marked)
    (hd : ∀ b, (w'.heads b).dirty = false → (w.heads b).dirty = false) :
    ∀ j, (w'.heads (blk j)).dirty = false → Carried blk w' j (w'.marked j) := by
  intro j hj
  rw [hm]
  exact hl.carried (h.clean j (hd _ hj))

/-- A step of call `t` leaves the other calls where they fit: those under way are for other
inodes, whose lists it does not touch. -/
theorem fits_of_call (h : Inv blk w) (hu : w.calls[t]? = some u) (hact : u.stage.isDone = false)
    (hcalls : w'.calls = w.calls.set t v) (hl : Later w w')
    (hp : ∀ j, j ≠ u.inode → w'.pending j = w.pending j)
    (hk : ∀ j, j ≠ u.inode → w'.copyouts j = w.copyouts j) (hfit : Fits blk w' v) :
    ∀ (t' : ℕ) (x : Call ι β), w'.calls[t']? = some x → Fits blk w' x := by
  intro t' x hx
  rw [hcalls] at hx
  rcases Table.get_set_cases hx with ⟨rfl, rfl⟩ | ⟨hne, hx⟩
  · exact hfit
  · refine (h.fits t' x hx).frame hl (fun hd => hp _ ?_) fun hd => hk _ ?_ <;>
      exact h.exclusive.inode_ne hu hact hx hne hd

end Inv

/-- Stages in which a call has no copy in its hands and is not at its end. -/
def Stage.plain : Stage ι β → Bool
  | .listed _ | .waitCopy _ | .done _ => false
  | _ => true

theorem Stage.isDone_of_plain {s : Stage ι β} (h : s.plain = true) : s.isDone = false := by
  cases s <;> first | rfl | cases h

theorem Stage.copy_of_plain {s : Stage ι β} (h : s.plain = true) : s.copy = none := by
  cases s <;> first | rfl | cases h

def Stage.isCopying : Stage ι β → Bool
  | .copying _ => true
  | _ => false

theorem Stage.not_copying {s : Stage ι β} {P : Prop} (h : s.isCopying = false)
    (got : ι → Option ℕ) (hs : s = .copying got) : P := by
  rw [hs] at h
  cases h

section Steps

variable [DecidableEq ι] [DecidableEq β]

omit [DecidableEq ι] [DecidableEq β] in
theorem setCall_later (w : World ι β) (t : ℕ) (v : Call ι β) : Later w (w.setCall t v) :=
  Later.of_eq rfl rfl rfl rfl

omit [DecidableEq ι] [DecidableEq β] in
/-- A call goes on and changes nothing else. -/
theorem Inv.setCall (h : Inv blk w) (hu : w.calls[t]? = some u) (hplain : u.stage.plain = true)
    (hvi : v.inode = u.inode) (hv : v.stage.copy = none)
    (hvc : ∀ got, v.stage = .copying got → (w.heads (blk v.inode)).lock = some (.copy t))
    (hfit : Fits blk w v) : Inv blk (w.setCall t v) where
  bug := h.bug
  marked := h.marked
  clean := h.clean
  locks := h.locks.setCall hvc
  claims := h.claims
  copies := h.copies.setCall hu (Stage.copy_of_plain hplain) hv
  exclusive := h.exclusive.setCall hu (Stage.isDone_of_plain hplain) hvi
  fits := h.fits_of_call hu (Stage.isDone_of_plain hplain) rfl (setCall_later w t v)
    (fun _ _ => rfl) (fun _ _ => rfl)
    (hfit.frame (setCall_later w t v) (fun _ => rfl) fun _ => rfl)

omit [DecidableEq ι] [DecidableEq β] in
theorem Inv.goto (h : Inv blk w) (hu : w.calls[t]? = some u) (hplain : u.stage.plain = true)
    (hvi : v.inode = u.inode) (hv : v.stage.copy = none) (hvc : v.stage.isCopying = false)
    (hfit : Fits blk w v) : Inv blk (w.setCall t v) :=
  h.setCall hu hplain hvi hv (Stage.not_copying hvc) hfit

/-! ### Steps of the buffers -/

omit [DecidableEq ι] in
theorem getInodeLoc_inv {b : β} (h : Inv blk w) (hw : w.getInodeLoc b = some w') :
    Inv blk w' ∧ w'.calls = w.calls ∧ w'.marked = w.marked := by
  unfold World.getInodeLoc at hw
  split_ifs at hw with hup hlock hio <;> obtain rfl := Option.some.inj hw
  · exact ⟨h, rfl, rfl⟩
  · have hl : Later w (w.setHead b { w.heads b with uptodate := true }) :=
      Later.of_eq rfl rfl rfl rfl
    refine ⟨⟨h.bug, h.marked, h.clean_of_later hl rfl fun b' hb' => ?_, ?_, h.claims, h.copies,
      h.exclusive, h.frame_fits hl rfl rfl rfl⟩, rfl, rfl⟩
    · change (Function.update w.heads b _ b').dirty = false at hb'
      by_cases hb : b' = b
      · subst hb
        rwa [Function.update_self] at hb'
      · rwa [Function.update_of_ne hb] at hb'
    · exact h.locks.setBits rfl fun _ => Or.inl rfl
  · -- a block that is neither locked nor up to date has seen its write fail
    have hnone : (w.heads b).lock = none := by
      rcases hopt : (w.heads b).lock with - | x
      · rfl
      · rw [hopt] at hlock
        exact absurd rfl hlock
    rcases h.locks.known b (fun k hk => by rw [hnone] at hk; cases hk) with hk | hk
    · exact absurd hk hup
    · exact absurd hk hio

omit [DecidableEq ι] in
/-- `tx_write_dirty_buffer` on an inode-table buffer: what is marked in it is carried. -/
theorem txWriteDirtyBuffer_inv {b : β} {stream : Option ℕ} (h : Inv blk w)
    (hw : w.txWriteDirtyBuffer b stream = some w') :
    Inv blk w' ∧ w'.calls = w.calls ∧ w'.pending = w.pending ∧ w'.marked = w.marked ∧
      ∀ j, blk j = b → Carried blk w' j (w'.marked j) := by
  unfold World.txWriteDirtyBuffer at hw
  split_ifs at hw with hlock hdirty <;> obtain rfl := Option.some.inj hw
  · have hnone : (w.heads b).lock = none := Option.not_isSome_iff_eq_none.mp hlock
    set w₁ : World ι β := { w.setHead b ((w.heads b).bh2bio w.bios.length) with
      bios := w.bios ++ [⟨b, none, stream, fun _ => none, false, false⟩] } with hw₁
    have hl : Later w w₁ := ⟨fun _ => le_rfl, BiosLater.concat _ _ _, CopiesLater.refl _⟩
    have hcarried : ∀ j, blk j = b → Carried blk w₁ j (w.marked j) := by
      intro j hj
      refine Or.inr ⟨w.bios.length, _, List.getElem?_concat_length, hj.symm, rfl, ?_⟩
      rw [Snapshot.floor_of_none rfl]
      exact h.marked j
    refine ⟨⟨h.bug, h.marked, fun j hj => ?_, h.locks.sendShared hnone stream, h.claims,
      h.copies.addShared rfl, h.exclusive, h.frame_fits hl rfl rfl rfl⟩, rfl, rfl, rfl, hcarried⟩
    by_cases hb : blk j = b
    · exact hcarried j hb
    · refine hl.carried (h.clean j ?_)
      change (Function.update w.heads b _ (blk j)).dirty = false at hj
      rwa [Function.update_of_ne hb] at hj
  · refine ⟨h, rfl, rfl, rfl, fun j hj => h.clean j ?_⟩
    rw [hj]
    exact Bool.eq_false_of_not_eq_true hdirty

omit [DecidableEq β] in
theorem fill_inv (h : Inv blk w) (i : ι) :
    Inv blk { w with data := Function.update w.data i (w.data i + 1) } := by
  have hdata : ∀ j, w.data j ≤ Function.update w.data i (w.data i + 1) j := by
    intro j
    by_cases hj : j = i
    · subst hj
      rw [Function.update_self]
      exact Nat.le_succ _
    · rw [Function.update_of_ne hj]
  have hl : Later w { w with data := Function.update w.data i (w.data i + 1) } :=
    ⟨fun _ => le_rfl, BiosLater.refl hdata _, CopiesLater.refl _⟩
  exact ⟨h.bug, fun j => (h.marked j).trans (hdata j), h.clean_of_later hl rfl fun _ hb => hb,
    h.locks, h.claims, h.copies, h.exclusive, h.frame_fits hl rfl rfl rfl⟩

theorem mark_inv (h : Inv blk w) (i : ι) :
    Inv blk { w.setHead (blk i) { w.heads (blk i) with dirty := true } with
      marked := Function.update w.marked i (w.data i) } := by
  set w₁ : World ι β := { w.setHead (blk i) { w.heads (blk i) with dirty := true } with
    marked := Function.update w.marked i (w.data i) } with hw₁
  have hmarked : ∀ j, w₁.marked j ≤ w.data j ∧ w.marked j ≤ w₁.marked j := by
    intro j
    by_cases hj : j = i
    · subst hj
      rw [hw₁]
      simp only [Function.update_self]
      exact ⟨le_rfl, h.marked j⟩
    · rw [hw₁]
      simp only [Function.update_of_ne hj]
      exact ⟨h.marked j, le_rfl⟩
  have hl : Later w w₁ :=
    ⟨fun j => (hmarked j).2, BiosLater.refl (fun _ => le_rfl) _, CopiesLater.refl _⟩
  refine ⟨h.bug, fun j => (hmarked j).1, fun j hj => ?_, h.locks.setBits rfl id, h.claims,
    h.copies, h.exclusive, h.frame_fits hl rfl rfl rfl⟩
  change (Function.update w.heads (blk i) _ (blk j)).dirty = false at hj
  by_cases hb : blk j = blk i
  · rw [hb, Function.update_self] at hj
    cases hj
  · rw [Function.update_of_ne hb] at hj
    have hne : j ≠ i := by
      rintro rfl
      exact hb rfl
    show Carried blk w₁ j (Function.update w.marked i (w.data i) j)
    rw [Function.update_of_ne hne]
    exact hl.carried (h.clean j hj)

omit [DecidableEq β] in
theorem fetch_inv {k : ℕ} {j : ι} {x : Bio ι β} (h : Inv blk w) (hx : w.bios[k]? = some x)
    (hd : x.done = false) (hn : x.taken j = none) :
    Inv blk { w with bios := w.bios.set k { x with taken := Snapshot.take w.data x.taken j } } := by
  have hl : Later w
      { w with bios := w.bios.set k { x with taken := Snapshot.take w.data x.taken j } } := by
    refine ⟨fun _ => le_rfl, BiosLater.set hx hd rfl rfl fun m => ?_, CopiesLater.refl _⟩
    show floor w.data x.taken m ≤ floor w.data (Snapshot.take w.data x.taken j) m
    rw [Snapshot.floor_take hn]
  -- all of a copy is read when it is sent
  have hs : x.source = none := by
    rcases hs : x.source with - | c
    · rfl
    · obtain ⟨y, -, -, hy⟩ := h.copies.fromCopy k x c hx hs
      rw [hy] at hn
      cases hn
  exact ⟨h.bug, h.marked, h.clean_of_later hl rfl fun _ hb => hb, h.locks.fetch hx hd _,
    h.claims, h.copies.setShared hx hs hs, h.exclusive, h.frame_fits hl rfl rfl rfl⟩

omit [DecidableEq ι] in
theorem completeStep_inv [Fintype ι] {k : ℕ} {x : Bio ι β} {failed : Bool} (h : Inv blk w)
    (hx : w.bios[k]? = some x) (hw : completeStep blk w k x failed = some w') : Inv blk w' := by
  unfold completeStep at hw
  split_ifs at hw with hdone
  obtain ⟨hd, htaken⟩ := hdone
  have hbios : BiosLater w.data w.data w.bios
      (w.bios.set k { x with done := true, failed := failed }) :=
    BiosLater.set hx hd rfl rfl fun _ => le_rfl
  dsimp only at hw
  split at hw
  · rename_i hs
    obtain rfl := Option.some.inj hw
    have hl : Later w (World.setHead { w with
        bios := w.bios.set k { x with done := true, failed := failed } } x.block
        ((w.heads x.block).endBufferWriteSync failed)) :=
      ⟨fun _ => le_rfl, hbios, CopiesLater.refl _⟩
    refine ⟨h.bug, h.marked, h.clean_of_later hl rfl fun b hb => ?_,
      h.locks.completeShared hx hs hd htaken failed, h.claims, h.copies.setShared hx hs hs,
      h.exclusive, h.frame_fits hl rfl rfl rfl⟩
    change (Function.update w.heads x.block _ b).dirty = false at hb
    by_cases heq : b = x.block
    · subst heq
      rwa [Function.update_self] at hb
    · rwa [Function.update_of_ne heq] at hb
  · rename_i c hs
    obtain ⟨y, hy, hw⟩ := Option.map_eq_some_iff.mp hw
    -- a copy is not freed while its bio is in flight
    obtain ⟨y', hy', hf, -⟩ := h.locks.copy k x c hx hs hd
    obtain rfl := Option.some.inj (hy.symm.trans hy')
    rw [if_neg (Bool.not_eq_true _ ▸ hf)] at hw
    obtain rfl := hw
    have hl : Later w (World.setCopy { w with
        bios := w.bios.set k { x with done := true, failed := failed } } c
        { y with head := y.head.endBufferWriteSync failed }) :=
      ⟨fun _ => le_rfl, hbios, CopiesLater.set hy rfl rfl rfl⟩
    exact ⟨h.bug, h.marked, h.clean_of_later hl rfl fun _ hb => hb,
      h.locks.completeCopy hx hs hd htaken hy failed, h.claims,
      h.copies.completeCopy hx hs hy failed, h.exclusive, h.frame_fits hl rfl rfl rfl⟩

/-! ### Steps of the calls -/

omit [DecidableEq ι] [DecidableEq β] in
theorem enter_inv {i : ι} {stream : ℕ} (h : Inv blk w)
    (hex : ∀ u ∈ w.calls, u.inode = i → u.stage.isDone = true) :
    Inv blk { w with calls := w.calls ++ [⟨i, stream, w.marked i, 0, 0, .enter⟩] } := by
  have hl : Later w { w with calls := w.calls ++ [⟨i, stream, w.marked i, 0, 0, .enter⟩] } :=
    Later.of_eq rfl rfl rfl rfl
  refine ⟨h.bug, h.marked, h.clean, h.locks.addCall (Stage.not_copying rfl), h.claims,
    h.copies.addCall rfl, h.exclusive.addCall hex, fun t u hu => ?_⟩
  rcases Table.get_concat_cases hu with hold | ⟨-, rfl⟩
  · exact (h.fits t u hold).frame hl (fun _ => rfl) fun _ => rfl
  · exact le_rfl

theorem claim_inv (h : Inv blk w) (hu : w.calls[t]? = some u) (hst : u.stage = .enter) :
    Inv blk (w.claim blk t u) := by
  have hfit : u.since ≤ w.marked u.inode := by
    have := h.fits t u hu
    rwa [Fits, hst] at this
  have hplain : u.stage.plain = true := by rw [hst]; rfl
  unfold World.claim
  split_ifs with hassoc
  · exact h.goto hu hplain rfl rfl rfl hfit
  · have hn : w.assoc (blk u.inode) = none := Option.not_isSome_iff_eq_none.mp hassoc
    refine ⟨h.bug, h.marked, h.clean, h.locks.setCall (Stage.not_copying rfl),
      h.claims.claim hn, h.copies.setCall hu (Stage.copy_of_plain hplain) rfl,
      h.exclusive.setCall hu (Stage.isDone_of_plain hplain) rfl, ?_⟩
    refine h.fits_of_call hu (Stage.isDone_of_plain hplain) rfl (Later.of_eq rfl rfl rfl rfl)
      (fun j hj => Function.update_of_ne hj _ _) (fun _ _ => rfl) ⟨hfit, ?_⟩
    show blk u.inode ∈ Function.update w.pending u.inode _ u.inode
    rw [Function.update_self]
    exact List.mem_cons_self

omit [DecidableEq ι] in
theorem lockCopy_inv (h : Inv blk w) (hu : w.calls[t]? = some u) (hst : u.stage = .lockCopy)
    (hnone : (w.heads (blk u.inode)).lock = none) :
    Inv blk ((w.setHead (blk u.inode) { w.heads (blk u.inode) with
      lock := some (.copy t) }).setCall t { u with stage := .copying fun _ => none }) := by
  have hfit : u.since ≤ w.marked u.inode := by
    have := h.fits t u hu
    rwa [Fits, hst] at this
  have hl : Later w (w.setHead (blk u.inode) { w.heads (blk u.inode) with
      lock := some (.copy t) }) := Later.of_eq rfl rfl rfl rfl
  -- the buffer first, then the call
  have h₁ : Inv blk (w.setHead (blk u.inode) { w.heads (blk u.inode) with
      lock := some (.copy t) }) := by
    refine ⟨h.bug, h.marked, h.clean_of_later hl rfl fun b hb => ?_, ?_, h.claims, h.copies,
      h.exclusive, h.frame_fits hl rfl rfl rfl⟩
    · change (Function.update w.heads (blk u.inode) _ b).dirty = false at hb
      by_cases heq : b = blk u.inode
      · subst heq
        rwa [Function.update_self] at hb
      · rwa [Function.update_of_ne heq] at hb
    · refine h.locks.setLock (fun k hk => ?_) rfl rfl fun t' u' got hu' hgot hb => ?_
      · rw [hnone] at hk
        cases hk
      · have hlock := h.locks.copying t' u' got hu' hgot
        rw [hb, hnone] at hlock
        cases hlock
  refine h₁.setCall hu (by rw [hst]; rfl) rfl rfl ?_
    ⟨hfit, fun n hn => ?_⟩
  · intro got _
    show (Function.update w.heads (blk u.inode) _ (blk u.inode)).lock = _
    rw [Function.update_self]
  · cases hn

omit [DecidableEq β] in
theorem copySlot_inv {got : ι → Option ℕ} {j : ι} (h : Inv blk w) (hu : w.calls[t]? = some u)
    (hst : u.stage = .copying got) :
    Inv blk (w.setCall t { u with stage := .copying (Snapshot.take w.data got j) }) := by
  have hfit : u.since ≤ w.marked u.inode ∧ ∀ n, got u.inode = some n → u.since ≤ n := by
    have := h.fits t u hu
    rwa [Fits, hst] at this
  refine h.setCall hu (by rw [hst]; rfl) rfl rfl
    (fun _ _ => h.locks.copying t u got hu hst) ⟨hfit.1, fun n hn => ?_⟩
  by_cases hj : u.inode = j
  · rw [hj, Snapshot.take_self] at hn
    obtain rfl := Option.some.inj hn
    rw [← hj]
    exact hfit.1.trans (h.marked _)
  · rw [Snapshot.take_of_ne hj] at hn
    exact hfit.2 n hn

theorem addCopy_inv {got : ι → Option ℕ} (h : Inv blk w) (hu : w.calls[t]? = some u)
    (hst : u.stage = .copying got) (hgot : ∀ j, blk j = blk u.inode → (got j).isSome) :
    Inv blk (w.addCopy blk t u got) := by
  have hfit : ∀ n, got u.inode = some n → u.since ≤ n := by
    have := h.fits t u hu
    rw [Fits, hst] at this
    exact this.2
  have hact : u.stage.isDone = false := by rw [hst]; rfl
  have hlock := h.locks.copying t u got hu hst
  have hl : Later w (w.addCopy blk t u got) :=
    ⟨fun _ => le_rfl, BiosLater.refl (fun _ => le_rfl) _, CopiesLater.concat _ _⟩
  refine ⟨h.bug, h.marked, h.clean_of_later hl rfl fun b hb => ?_, ?_, h.claims, ?_,
    h.exclusive.setCall hu hact rfl, ?_⟩
  · change (Function.update w.heads (blk u.inode) _ b).dirty = false at hb
    by_cases heq : b = blk u.inode
    · subst heq
      rwa [Function.update_self] at hb
    · rwa [Function.update_of_ne heq] at hb
  · -- the call moves first, so that nobody is copying the block when the lock is released
    have hmoved := h.locks.setCall (t := t) (u := { u with stage := .listed w.copies.length })
      (Stage.not_copying rfl)
    have hfree : Locks blk w.bios (Function.update w.heads (blk u.inode)
        { w.heads (blk u.inode) with lock := none }) w.copies
        (w.calls.set t { u with stage := .listed w.copies.length }) := by
      refine hmoved.setLock ?_ rfl rfl fun t' u' got' hu' hgot' hb => ?_
      · intro k hk
        rw [hlock] at hk
        cases hk
      · rcases Table.get_set_cases hu' with ⟨rfl, rfl⟩ | ⟨hne, hu'⟩
        · cases hgot'
        · have hlock' := h.locks.copying t' u' got' hu' hgot'
          rw [hb, hlock] at hlock'
          exact absurd (Holder.copy.inj (Option.some.inj hlock')).symm hne
    exact hfree.addCopy _
  · exact h.copies.addCopy hu (by rw [hst]; rfl) rfl rfl rfl rfl
  · refine h.fits_of_call hu hact rfl hl (fun _ _ => rfl)
      (fun j hj => Function.update_of_ne hj _ _) ⟨?_, ?_⟩
    · obtain ⟨n, hn⟩ := Option.isSome_iff_exists.mp (hgot u.inode rfl)
      refine ⟨_, List.getElem?_concat_length, rfl, ?_⟩
      show u.since ≤ (got u.inode).getD 0
      rw [hn]
      exact hfit n hn
    · show w.copies.length ∈ Function.update w.copyouts u.inode _ u.inode
      rw [Function.update_self]
      exact List.mem_cons_self

omit [DecidableEq ι] [DecidableEq β] in
theorem sendCopy_inv {k : ℕ} {y : Copy ι β} (h : Inv blk w) (hu : w.calls[t]? = some u)
    (hst : u.stage = .listed k) (hy : w.copies[k]? = some y)
    (hw : w.txWriteDirtyCopy k y u.stream = some w') :
    Inv blk (w'.setCall t { u with stage := .check }) := by
  have hfit : InCopy blk w u.inode u.since k ∧ k ∈ w.copyouts u.inode := by
    have := h.fits t u hu
    rwa [Fits, hst] at this
  have hact : u.stage.isDone = false := by rw [hst]; rfl
  obtain ⟨y', hy', -, hf⟩ := h.copies.onList u.inode k hfit.2
  obtain rfl := Option.some.inj (hy.symm.trans hy')
  have hsent : ∀ {w₁ : World ι β}, Later w w₁ → w₁.copyouts = w.copyouts →
      Fits blk w₁ { u with stage := .check } := fun hl hk =>
    Or.inr (Or.inr ⟨k, by rw [hk]; exact hfit.2, hl.inCopy hfit.1⟩)
  unfold World.txWriteDirtyCopy at hw
  split_ifs at hw with hfreed hlock hdirty <;> obtain rfl := Option.some.inj hw
  · rw [hf] at hfreed
    cases hfreed
  · have hnone : y.head.lock = none := Option.not_isSome_iff_eq_none.mp hlock
    set w₁ : World ι β := World.setCall { w.setCopy k { y with
      head := y.head.bh2bio w.bios.length } with bios := w.bios ++ [⟨y.block, some k,
        some u.stream, fun j => some (y.data j), false, false⟩] } t
      { u with stage := .check } with hw₁
    have hl : Later w w₁ :=
      ⟨fun _ => le_rfl, BiosLater.concat _ _ _, CopiesLater.set hy rfl rfl rfl⟩
    exact ⟨h.bug, h.marked, h.clean_of_later hl rfl fun _ hb => hb,
      (h.locks.sendCopy hy hf hnone u.stream).setCall (Stage.not_copying rfl), h.claims,
      h.copies.sendCopy h.exclusive hu hst rfl hy u.stream,
      h.exclusive.setCall hu hact rfl,
      h.fits_of_call hu hact rfl hl (fun _ _ => rfl) (fun _ _ => rfl) (hsent hl rfl)⟩
  · -- a copy that is on the list and not sent is dirty
    obtain ⟨z, hz, -, hzd⟩ := h.copies.listed t u k hu hst
    obtain rfl := Option.some.inj (hy.symm.trans hz)
    exact absurd hzd hdirty

theorem drain_inv (h : Inv blk w) (hu : w.calls[t]? = some u) (hst : u.stage = .drain) :
    Inv blk (w.drain t u) := by
  have hfit : u.werr ≠ -12 →
      Sent blk w u.inode u.since u.err (w.pending u.inode) (w.copyouts u.inode) := by
    have := h.fits t u hu
    rwa [Fits, hst] at this
  have hplain : u.stage.plain = true := by rw [hst]; rfl
  unfold World.drain
  rcases hb : (w.pending u.inode).getLast? with - | b
  · rw [List.getLast?_eq_none_iff] at hb
    refine h.goto hu hplain rfl rfl rfl fun he => ?_
    have hsent := hfit he
    rwa [hb] at hsent
  · have hmem : b ∈ w.pending u.inode := List.mem_of_getLast? hb
    simp only [h.claims.mapping u.inode (List.ne_nil_of_mem hmem), if_true]
    refine ⟨h.bug, h.marked, h.clean, h.locks.setCall (Stage.not_copying rfl),
      h.claims.drain hb, h.copies.setCall hu (Stage.copy_of_plain hplain) rfl,
      h.exclusive.setCall hu (Stage.isDone_of_plain hplain) rfl, ?_⟩
    have hl : Later w { w.setCall t { u with stage := .waitBuf b } with
        pending := Function.update w.pending u.inode (w.pending u.inode).dropLast
        assoc := Function.update w.assoc b none } := Later.of_eq rfl rfl rfl rfl
    refine h.fits_of_call hu (Stage.isDone_of_plain hplain) rfl hl
      (fun j hj => Function.update_of_ne hj _ _) (fun _ _ => rfl) fun he => ?_
    refine (hl.sent (hfit he)).mono (fun _ => ?_) fun _ hc => hc
    rw [h.claims.block u.inode b hmem]
    exact List.mem_cons_self

omit [DecidableEq ι] [DecidableEq β] in
theorem waitBuf_inv {b : β} (h : Inv blk w) (hu : w.calls[t]? = some u)
    (hst : u.stage = .waitBuf b) (hnone : (w.heads b).lock = none) :
    Inv blk (w.setCall t { u with err := (w.heads b).eio u.err, stage := .drain }) := by
  have hfit : u.werr ≠ -12 →
      Sent blk w u.inode u.since u.err (b :: w.pending u.inode) (w.copyouts u.inode) := by
    have := h.fits t u hu
    rwa [Fits, hst] at this
  have herr : (w.heads b).eio u.err = 0 → u.err = 0 := by
    intro he
    unfold Head.eio BufferPasses.eioUnless at he
    split_ifs at he
    exact he
  refine h.goto hu (by rw [hst]; rfl) rfl rfl rfl fun he => ?_
  rcases hfit he with hc | ⟨hb, hc⟩ | hc
  · exact Or.inl (hc.of_err herr)
  · rcases List.mem_cons.mp hb with hb | hb
    · -- the buffer is not locked any more, so the bio has been completed
      rw [← hb] at hnone
      exact Or.inl (h.locks.covered hc hnone _)
    · exact Or.inr (Or.inl ⟨hb, hc⟩)
  · exact Or.inr (Or.inr hc)

omit [DecidableEq β] in
theorem drainCopies_inv (h : Inv blk w) (hu : w.calls[t]? = some u)
    (hst : u.stage = .drainCopies) : Inv blk (w.drainCopies t u) := by
  have hfit : u.werr ≠ -12 → Sent blk w u.inode u.since u.err [] (w.copyouts u.inode) := by
    have := h.fits t u hu
    rwa [Fits, hst] at this
  have hplain : u.stage.plain = true := by rw [hst]; rfl
  have hact := Stage.isDone_of_plain hplain
  unfold World.drainCopies
  rcases hk : (w.copyouts u.inode).getLast? with - | k
  · rw [List.getLast?_eq_none_iff] at hk
    refine h.goto hu hplain rfl rfl rfl fun _ he => ?_
    have hsent := hfit he
    rw [hk] at hsent
    exact hsent.covered
  · have hl : Later w { w.setCall t { u with stage := .waitCopy k } with
        copyouts := Function.update w.copyouts u.inode (w.copyouts u.inode).dropLast } :=
      Later.of_eq rfl rfl rfl rfl
    refine ⟨h.bug, h.marked, h.clean, h.locks.setCall (Stage.not_copying rfl), h.claims,
      h.copies.take hu hst rfl rfl hk, h.exclusive.setCall hu hact rfl, ?_⟩
    refine h.fits_of_call hu hact rfl hl (fun _ _ => rfl)
      (fun j hj => Function.update_of_ne hj _ _) fun he => ?_
    refine (hl.sent (hfit he)).mono id fun c hc => ?_
    show c ∈ k :: Function.update w.copyouts u.inode _ u.inode
    rw [Function.update_self]
    rw [← List.dropLast_append_getLast? k hk] at hc
    rcases List.mem_append.mp hc with hc | hc
    · exact List.mem_cons_of_mem _ hc
    · rw [List.mem_singleton.mp hc]
      exact List.mem_cons_self

omit [DecidableEq ι] [DecidableEq β] in
theorem waitCopy_inv {k : ℕ} {y : Copy ι β} (h : Inv blk w) (hu : w.calls[t]? = some u)
    (hst : u.stage = .waitCopy k) (hy : w.copies[k]? = some y)
    (hw : w.waitCopy t u k y = some w') : Inv blk w' := by
  have hfit : u.werr ≠ -12 → Sent blk w u.inode u.since u.err [] (k :: w.copyouts u.inode) := by
    have := h.fits t u hu
    rwa [Fits, hst] at this
  have hact : u.stage.isDone = false := by rw [hst]; rfl
  obtain ⟨y', hy', ho, hf, -⟩ := h.copies.inHand t u k hu hst
  obtain rfl := Option.some.inj (hy.symm.trans hy')
  unfold World.waitCopy at hw
  split_ifs at hw with hfreed hlock <;> obtain rfl := Option.some.inj hw
  · rw [hf] at hfreed
    cases hfreed
  · have hnone : y.head.lock = none := Option.not_isSome_iff_eq_none.mp hlock
    -- it has been sent: only this call is under way for the inode
    have hclean : y.head.dirty = false := by
      by_contra hd
      obtain ⟨t', u', hu', hi, hst'⟩ := h.copies.dirty k y hy (Bool.eq_true_of_not_eq_false hd)
      have hact' : u'.stage.isDone = false := by rw [hst']; rfl
      obtain rfl := h.exclusive t' t u' u hu' hu (hi.trans ho) hact' hact
      obtain rfl := Option.some.inj (hu.symm.trans hu')
      rw [hst] at hst'
      cases hst'
    obtain ⟨hreq, m, x, hx, hs, hdone⟩ := h.copies.sent k y hy hclean
    obtain ⟨hxd, hup⟩ := hdone hnone
    have herr : y.head.eio u.err = 0 → u.err = 0 ∧ x.failed = false := by
      intro he
      unfold Head.eio BufferPasses.eioUnless at he
      rw [hreq, hup] at he
      rcases hxf : x.failed with - | -
      · rw [hxf] at he
        exact ⟨he, rfl⟩
      · rw [hxf, if_neg (by decide)] at he
        cases he
    have hl : Later w ((w.setCopy k { y with freed := true }).setCall t
        { u with err := y.head.eio u.err, stage := .drainCopies }) :=
      ⟨fun _ => le_rfl, BiosLater.refl (fun _ => le_rfl) _, CopiesLater.set hy rfl rfl rfl⟩
    refine ⟨h.bug, h.marked, h.clean_of_later hl rfl fun _ hb => hb,
      (h.locks.freeCopy hy hnone).setCall (Stage.not_copying rfl), h.claims,
      h.copies.free h.exclusive hu hst rfl hy,
      h.exclusive.setCall hu hact rfl, ?_⟩
    refine h.fits_of_call hu hact rfl hl (fun _ _ => rfl) (fun _ _ => rfl) fun he => ?_
    refine hl.sent ?_
    rcases hfit he with hc | ⟨hb, -⟩ | ⟨c, hc, hin⟩
    · exact Or.inl (hc.of_err fun he' => (herr he').1)
    · cases hb
    · rcases List.mem_cons.mp hc with rfl | hc
      · -- the completed bio of the copy has what the copy has
        obtain ⟨z, hz, hzb, hzd⟩ := h.copies.fromCopy m x c hx hs
        obtain rfl := Option.some.inj (hy.symm.trans hz)
        obtain ⟨z, hz', hzb', hv⟩ := hin
        obtain rfl := Option.some.inj (hy.symm.trans hz')
        refine Or.inl (Or.inr ⟨m, x, y.data u.inode, hx, hzb.trans hzb', hxd, ?_, hv,
          fun he' _ => (herr he').2⟩)
        rw [hzd]
      · exact Or.inr (Or.inr ⟨c, hc, hin⟩)

theorem goStep_inv [Fintype ι] (h : Inv blk w) (hu : w.calls[t]? = some u)
    (hw : goStep blk w t u = some w') : Inv blk w' := by
  unfold goStep at hw
  rcases hst : u.stage with - | - | - | - | got | k | - | - | - | b | - | k | waited <;>
    simp only [hst] at hw
  · obtain rfl := Option.some.inj hw
    exact claim_inv h hu hst
  · obtain ⟨w₁, hw₁, rfl⟩ := Option.map_eq_some_iff.mp hw
    obtain ⟨h₁, hcalls, hpending, hmarked, hcarried⟩ := txWriteDirtyBuffer_inv h hw₁
    have hfit : u.since ≤ w.marked u.inode ∧ blk u.inode ∈ w.pending u.inode := by
      have := h.fits t u hu
      rwa [Fits, hst] at this
    have hu₁ : w₁.calls[t]? = some u := by
      rw [hcalls]
      exact hu
    refine h₁.goto hu₁ (by rw [hst]; rfl) rfl rfl rfl (Or.inr (Or.inl ⟨?_, ?_⟩))
    · rw [hpending]
      exact hfit.2
    · refine (hcarried u.inode rfl).mono ?_
      rw [hmarked]
      exact hfit.1
  · cases hw
  · split_ifs at hw with hlock
    obtain rfl := Option.some.inj hw
    exact lockCopy_inv h hu hst (Option.not_isSome_iff_eq_none.mp hlock)
  · split_ifs at hw with hgot
    obtain rfl := Option.some.inj hw
    exact addCopy_inv h hu hst hgot
  · obtain ⟨y, hy, hw⟩ := Option.bind_eq_some_iff.mp hw
    obtain ⟨w₁, hw₁, rfl⟩ := Option.map_eq_some_iff.mp hw
    exact sendCopy_inv h hu hst hy hw₁
  · obtain rfl := Option.some.inj hw
    have hfit := h.fits t u hu
    rw [Fits, hst] at hfit
    exact h.goto hu (by rw [hst]; rfl) rfl rfl rfl fun _ => hfit
  · obtain rfl := Option.some.inj hw
    have hfit := h.fits t u hu
    rw [Fits, hst] at hfit
    exact h.goto hu (by rw [hst]; rfl) rfl rfl rfl hfit
  · obtain rfl := Option.some.inj hw
    exact drain_inv h hu hst
  · split_ifs at hw with hlock
    obtain rfl := Option.some.inj hw
    exact waitBuf_inv h hu hst (Option.not_isSome_iff_eq_none.mp hlock)
  · obtain rfl := Option.some.inj hw
    exact drainCopies_inv h hu hst
  · obtain ⟨y, hy, hw⟩ := Option.bind_eq_some_iff.mp hw
    exact waitCopy_inv h hu hst hy hw
  · cases hw

/-! ### All steps, all runs -/

theorem step_inv [Fintype ι] {a : Act ι β} (h : Inv blk w) (hex : a.exclusive w = true)
    (hw : step blk w a = some w') : Inv blk w' := by
  unfold step at hw
  rw [if_neg (Bool.not_eq_true _ ▸ h.bug)] at hw
  cases a with
  | look b => exact (getInodeLoc_inv h hw).1
  | fill i =>
      obtain rfl := Option.some.inj hw
      exact fill_inv h i
  | mark i =>
      obtain rfl := Option.some.inj hw
      exact mark_inv h i
  | flush b => exact (txWriteDirtyBuffer_inv h hw).1
  | fetch k j =>
      obtain ⟨x, hx, hw⟩ := Option.bind_eq_some_iff.mp hw
      split_ifs at hw with hn
      obtain rfl := Option.some.inj hw
      exact fetch_inv h hx hn.1 hn.2
  | complete k failed =>
      obtain ⟨x, hx, hw⟩ := Option.bind_eq_some_iff.mp hw
      exact completeStep_inv h hx hw
  | enter i stream =>
      obtain ⟨w₁, hw₁, rfl⟩ := Option.map_eq_some_iff.mp hw
      obtain ⟨h₁, hcalls, -⟩ := getInodeLoc_inv h hw₁
      refine enter_inv h₁ fun u hu hi => ?_
      rw [hcalls] at hu
      have hall := List.all_eq_true.mp hex u hu
      rw [Bool.or_eq_true, decide_eq_true_eq] at hall
      exact hall.resolve_left fun hne => hne hi
  | go t =>
      obtain ⟨u, hu, hw⟩ := Option.bind_eq_some_iff.mp hw
      exact goStep_inv h hu hw
  | alloc t ok =>
      obtain ⟨u, hu, hw⟩ := Option.bind_eq_some_iff.mp hw
      have hfit := h.fits t u hu
      rcases hst : u.stage with - | - | - | - | got | k | - | - | - | b | - | k | waited <;>
        simp only [hst, reduceCtorEq] at hw
      rw [Fits, hst] at hfit
      cases ok
      · obtain rfl := Option.some.inj hw
        exact h.goto hu (by rw [hst]; rfl) rfl rfl rfl fun he => absurd rfl he
      · obtain rfl := Option.some.inj hw
        exact h.goto hu (by rw [hst]; rfl) rfl rfl rfl hfit
  | copySlot t j =>
      obtain ⟨u, hu, hw⟩ := Option.bind_eq_some_iff.mp hw
      rcases hst : u.stage with - | - | - | - | got | k | - | - | - | b | - | k | waited <;>
        simp only [hst, reduceCtorEq] at hw
      split_ifs at hw
      obtain rfl := Option.some.inj hw
      exact copySlot_inv h hu hst
  | leave t =>
      obtain ⟨u, hu, hw⟩ := Option.bind_eq_some_iff.mp hw
      rcases hst : u.stage with - | - | - | - | got | k | - | - | - | b | - | k | waited <;>
        simp only [hst, reduceCtorEq] at hw
      obtain rfl := Option.some.inj hw
      exact h.goto hu (by rw [hst]; rfl) rfl rfl rfl (by intro hd; cases hd)

omit [DecidableEq ι] [DecidableEq β] in
theorem inv_init : Inv blk (World.init : World ι β) := by
  refine ⟨rfl, fun _ => le_rfl, fun _ _ => Or.inl rfl, ?_, ?_, ?_, ?_, ?_⟩
  · refine ⟨?_, ?_, ?_, ?_, fun _ _ => Or.inl rfl⟩
    · intro k x hx
      cases hx
    · intro k x c hx
      cases hx
    · intro t u got hu
      cases hu
    · intro x hx
      cases hx
  · refine ⟨fun b i => ?_, fun _ => List.nodup_nil, ?_, ?_⟩
    · refine iff_of_false ?_ ?_ <;> intro h <;> cases h
    · intro i b hb
      cases hb
    · intro i hne
      exact absurd rfl hne
  · refine ⟨?_, fun _ => List.nodup_nil, ?_, ?_, ?_, ?_, ?_, ?_⟩
    · intro i c hc
      cases hc
    · intro c y hy
      cases hy
    · intro t u c hu
      cases hu
    · intro c y hy
      cases hy
    · intro t u c hu
      cases hu
    · intro k x c hx
      cases hx
    · intro c y hy
      cases hy
  · intro t t' u u' hu
    cases hu
  · intro t u hu
    cases hu

theorem run_inv [Fintype ι] {as : List (Act ι β)}
    (hex : Run.Along (step blk) (fun w a => a.exclusive w = true) World.init as)
    (hrun : Run.run (step blk) World.init as = some w) : Inv blk w :=
  Run.run_preserves (fun _ _ _ h he hs => step_inv h he hs) inv_init hex hrun

/-- **The change that a call came for has been written when it returns.**  In whatever order the
calls for the inodes of a block claim the buffer and copy it out, the block device's own writeback
and the bios come, and while the inodes go on changing: when `tx_write_wait_inode_buffer` returns
to a call whose copy could be allocated, a completed bio has the inode at least as it was when the
call came.  If that bio was sent from a copy and failed, the call returns an error. -/
theorem fsync_covers_inode [Fintype ι] (blk : ι → β) (as : List (Act ι β)) (w : World ι β)
    (hex : Run.Along (step blk) (fun w a => a.exclusive w = true) World.init as)
    (hrun : Run.run (step blk) World.init as = some w) (t : ℕ) (u : Call ι β)
    (hu : w.calls[t]? = some u) (hdone : u.stage = .done true) (halloc : u.werr ≠ -12) :
    Covered blk w u.inode u.since u.err := by
  have hfit := (run_inv hex hrun).fits t u hu
  rw [Fits, hdone] at hfit
  exact hfit rfl halloc

end Steps

/-- The call has returned after waiting. -/
def Stage.waited : Stage ι β → Bool
  | .done waited => waited
  | _ => false

theorem Stage.eq_done_of_waited {s : Stage ι β} (h : s.waited = true) : s = .done true := by
  cases s with
  | done waited => exact congrArg Stage.done h
  | _ => cases h

/-- Two inodes of one block are changed.  The first call claims the buffer and sends it, the second
copies it out, and both wait. -/
def twoInodes : List (Act Bool Unit) :=
  [.fill false, .mark false, .fill true, .mark true, .enter false 0, .enter true 1, .go 0, .go 1,
    .go 0, .alloc 1 true, .fetch 0 false, .fill true, .mark true, .fetch 0 true,
    .complete 0 false, .go 1, .copySlot 1 true, .copySlot 1 false, .go 1, .go 1, .go 0, .go 0,
    .go 0, .go 0, .go 0, .go 0, .go 1, .complete 1 false, .go 1, .go 1, .go 1, .go 1,
    .go 1]

theorem fsync_covers_inode_copied :
    ∃ w u, Run.run (step fun _ => ()) World.init twoInodes = some w ∧ w.calls[1]? = some u ∧
      u.since = 1 ∧ u.err = 0 ∧ Covered (fun _ => ()) w u.inode u.since u.err := by
  obtain ⟨w, hw, u, hu, hst, hsince, herr, hwerr⟩ :
      ∃ w, Run.run (step fun _ => ()) World.init twoInodes = some w ∧
        ∃ u, w.calls[1]? = some u ∧ u.stage.waited = true ∧ u.since = 1 ∧ u.err = 0 ∧
          u.werr = 0 := by
    decide +kernel
  exact ⟨w, u, hw, hu, hsince, herr, fsync_covers_inode _ twoInodes w (by decide +kernel) hw 1 u hu
    (Stage.eq_done_of_waited hst) (by rw [hwerr]; decide)⟩

section Safety

variable [DecidableEq ι] [DecidableEq β] [Fintype ι]

end Safety

-- Two calls for one directory, whose lock nobody holds: the first frees the copy that the second
-- is about to send.
example : ∃ w, Run.run (step fun _ : Bool => ()) World.init
    [.fill false, .mark false, .enter false 0, .enter false 1, .go 0, .go 1, .alloc 1 true, .go 1,
      .copySlot 1 true, .copySlot 1 false, .go 1, .go 0, .fetch 0 true, .fetch 0 false,
      .complete 0 false, .go 0, .go 0, .go 0, .go 0, .go 0, .go 0, .go 0, .go 1] = some w ∧
    w.bug = true := by
  decide +kernel

end CcNvme.PageSharing

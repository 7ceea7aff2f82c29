/-
CcNvme/PageWriteback/Ends.lean

`writeback_always_ends`: once everything has completed, no page is left under writeback, if no
bio allocation fails for a page of which a buffer has been submitted.

After such a failure `ext4_bio_write_page` clears the flags of the remaining buffers without
`BH_Uptodate_Lock`.  A completion that comes between leaves the end of the writeback to buffers
that will never complete, and the call leaves it to the completion
(`late_failure_strands_page`).

`Move` lists what a step of the call can do to its page; what follows is by cases on it.
-/
import CcNvme.PageWriteback.Flight
import Mathlib.Data.Fintype.Basic

namespace CcNvme.PageWriteback

variable {π κ : Type*} {g : Geometry}

section Steps

variable [DecidableEq π] [DecidableEq κ] {w w' : World π κ} {p : π} {j : Job κ}

/-! ### No writeback is left over -/

/-- No allocation of a bio fails for a page of which a buffer has been submitted. -/
def Act.timely (w : World π κ) : Act π κ → Bool
  | .job p (.fail _) =>
      match (w.pages p).job with
      | none => true
      | some j =>
          !(decide (j.phase = .submit) && (w.pages p).async j.cur &&
            (w.passes j.owner).bio.isNone && decide (j.submitted ≠ 0))
  | _ => true

/-- Somebody will end the writeback. -/
structure Owed (pg : Page κ) (en : ℕ) : Prop where
  owed : pg.writeback = true →
    (∃ i, pg.async i = true) ∨ 0 < en ∨ ∃ j, pg.job = some j ∧ j.submitted = 0
  clean : ∀ j, pg.job = some j → j.phase = .clean → j.submitted = 0

/-- Every call has returned, and every bio has been completed and looked at. -/
def Settled (w : World π κ) : Prop :=
  (∀ p, (w.pages p).job = none) ∧ ∀ x ∈ w.bios, x.segs = [] ∧ x.ending = none

omit [DecidableEq κ] in
theorem Inv.settled (h : Inv g w) (howed : ∀ p, Owed (w.pages p) (w.endings p))
    (hw : Settled w) (p : π) : (w.pages p).writeback = false := by
  by_contra hwb
  have hno := hw.1 p
  have hfl : ∀ i, w.flight g p i = 0 := fun i =>
    Table.total_eq_zero fun x hx => by simp [(hw.2 x hx).1]
  have hen : w.endings p = 0 := Table.total_eq_zero fun x hx => by simp [(hw.2 x hx).2]
  rcases (howed p).owed (eq_true_of_ne_false hwb) with ⟨i, hi⟩ | hpos | ⟨j, hj, -⟩
  · obtain ⟨j, hj, -⟩ := (h.page p).async_flight i hi (hfl i)
    rw [hno] at hj
    cases hj
  · omega
  · rw [hno] at hj
    cases hj

/-- What a step of a call does to its page. -/
inductive Move (g : Geometry) (pg : Page κ) (j : Job κ) : Page κ → Prop
  | stay : Move g pg j pg
  | mark (n : ℕ) (hphase : j.phase = .mark) :
      Move g pg j ((pg.setBuf j.cur (Buf.mark g j.len j.cur)).setJob
        (some (({ j with toSubmit := n } : Job κ).nextMark g)))
  | encrypted (hphase : j.phase = .encrypt) :
      Move g pg j (pg.setJob (some { j with phase := .submit, cur := 0 }))
  | fail {cur : ℕ} {ret : ℤ} (hret : ret ≠ 0)
      (hphase : j.phase = .encrypt ∧ cur = 0 ∨ j.phase = .submit ∧ cur = j.cur) :
      Move g pg j (({ pg with dirty := true } : Page κ).setJob
        (some { j with phase := .clean, cur := cur, ret := ret }))
  | skip (hphase : j.phase = .submit) (hcur : pg.async j.cur = false) :
      Move g pg j (pg.setJob (some (j.next g)))
  | put (hphase : j.phase = .submit) (hcur : pg.async j.cur = true) :
      Move g pg j ((pg.setBuf j.cur fun b => { b with dirty := false }).setJob
        (some { j.next g with submitted := j.submitted + 1, put := j.put ++ [j.cur] }))
  | clean (hphase : j.phase = .clean) :
      Move g pg j ((pg.setBuf j.cur fun b => { b with asyncWrite := false }).setJob
        (some (j.next g)))
  | unlock (hphase : j.phase = .unlock) (hzero : j.submitted = 0) :
      Move g pg j (({ pg with locked := false } : Page κ).setJob
        (some { j with phase := .last }))
  | leave (hphase : j.phase = .unlock) (hsub : j.submitted ≠ 0) :
      Move g pg j (({ pg with locked := false } : Page κ).setJob none)
  | last (hphase : j.phase = .last) :
      Move g pg j (({ pg with writeback := false } : Page κ).setJob none)

/-- A step of a call moves its page and touches no other; no end of writeback is decided; and
if it fails in time, nothing had been submitted. -/
structure Moved (g : Geometry) (w : World π κ) (p : π) (j : Job κ) (timely : Prop)
    (w' : World π κ) : Prop where
  other : ∀ q, q ≠ p → w'.pages q = w.pages q
  endings : w'.endings = w.endings
  move : Move g (w.pages p) j (w'.pages p)
  clean : timely → ∀ j', (w'.pages p).job = some j' → j'.phase = .clean → j.phase = .submit →
    j'.submitted = 0

namespace Moved

variable {timely : Prop}

omit [DecidableEq κ] in
theorem setPage {pg : Page κ} (hmove : Move g (w.pages p) j pg)
    (hclean : timely → ∀ j', pg.job = some j' → j'.phase = .clean → j.phase = .submit →
      j'.submitted = 0) : Moved g w p j timely (w.setPage p pg) :=
  ⟨fun _ hqp => pages_setPage_of_ne w hqp pg, rfl, by rwa [pages_setPage_self],
    by rwa [pages_setPage_self]⟩

omit [DecidableEq κ] in
/-- A step that leaves the pages alone. -/
theorem of_pages (hj : (w.pages p).job = some j) (hphase : j.phase ≠ .clean)
    (hpages : w'.pages = w.pages) (hen : w'.endings = w.endings) :
    Moved g w p j timely w' := by
  refine ⟨fun q _ => by rw [hpages], hen, ?_, ?_⟩
  · rw [hpages]
    exact Move.stay
  · intro _ j' hj' hclean _
    rw [hpages, hj] at hj'
    obtain rfl := Option.some.inj hj'
    exact (hphase hclean).elim

theorem send (hj : (w.pages p).job = some j) (hphase : j.phase ≠ .clean) :
    Moved g w p j timely (w.send j.owner) :=
  of_pages hj hphase (pages_send w j.owner) (endings_send w j.owner)

end Moved

theorem encryptStep_moved (hj : (w.pages p).job = some j) (hphase : j.phase = .encrypt)
    {a : Answer} (hw : encryptStep w p j a = some w') :
    Moved g w p j ((Act.job p a : Act π κ).timely w = true) w' := by
  have hsub : j.phase ≠ .submit := by simp [hphase]
  have hok : Moved g w p j ((Act.job p a : Act π κ).timely w = true)
      (w.setPage p ((w.pages p).setJob (some { j with phase := .submit, cur := 0 }))) :=
    Moved.setPage (Move.encrypted hphase) fun _ _ _ _ h => (hsub h).elim
  cases a with
  | ok =>
      obtain rfl := Option.some.inj hw
      exact hok
  | refused =>
      obtain rfl := Option.some.inj hw
      exact hok
  | fail err =>
      unfold PageWriteback.encryptStep at hw
      dsimp only at hw
      split_ifs at hw with hpos
      · obtain rfl := Option.some.inj hw
        exact Moved.send hj (by simp [hphase])
      · obtain rfl := Option.some.inj hw
        exact Moved.setPage (Move.fail (by omega) (Or.inl ⟨hphase, rfl⟩))
          fun _ _ _ _ h => (hsub h).elim

theorem putBuf_moved (hphase : j.phase = .submit) (hcur : (w.pages p).async j.cur = true)
    {b : ℕ} {x : Bio π} (hx : w.bios[b]? = some x) (timely : Prop) :
    Moved g w p j timely (putBuf g w p j b x) := by
  have hpage : (putBuf g w p j b x).pages p =
      ((w.pages p).setBuf j.cur fun bh => { bh with dirty := false }).setJob
        (some { j.next g with submitted := j.submitted + 1, put := j.put ++ [j.cur] }) := by
    simp [putBuf, World.setPage]
  refine ⟨fun q hqp => ?_, ?_, ?_, ?_⟩
  · simp [putBuf, World.setPage, World.setPass, hqp]
  · funext q
    exact Table.total_set_eq hx rfl
  · rw [hpage]
    exact Move.put hphase hcur
  · rw [hpage]
    intro _ j' hj' hclean _
    obtain rfl := Option.some.inj hj'
    rcases j.next_phase g with he | he <;> simp [he, hphase] at hclean

theorem submitStep_moved (hj : (w.pages p).job = some j) (hphase : j.phase = .submit)
    {a : Answer} (hw : submitStep g w p j a = some w') :
    Moved g w p j ((Act.job p a : Act π κ).timely w = true) w' := by
  unfold submitStep at hw
  dsimp only at hw
  by_cases hcur : (w.pages p).async j.cur = false
  · rw [if_pos hcur] at hw
    obtain rfl := Option.some.inj hw
    refine Moved.setPage (Move.skip hphase hcur) fun _ j' hj' hclean _ => ?_
    obtain rfl := Option.some.inj hj'
    rcases j.next_phase g with he | he <;> simp [he, hphase] at hclean
  · rw [if_neg hcur] at hw
    have hcur' := eq_true_of_ne_false hcur
    have hclean : j.phase ≠ .clean := by simp [hphase]
    rcases hbio : (w.passes j.owner).bio with - | b
    · cases a <;> simp only [hbio] at hw <;> obtain rfl := Option.some.inj hw
      case fail err =>
        refine Moved.setPage (Move.fail (by omega) (Or.inr ⟨hphase, rfl⟩))
          fun htimely j' hj' _ _ => ?_
        obtain rfl := Option.some.inj hj'
        simpa [Act.timely, hj, hphase, hcur', hbio] using htimely
      all_goals
        refine Moved.of_pages hj hclean rfl (funext fun q => ?_)
        simp [World.endings]
    · cases a <;> simp only [hbio] at hw
      case refused =>
        obtain rfl := Option.some.inj hw
        exact Moved.send hj hclean
      all_goals
        split_ifs at hw
        · obtain rfl := Option.some.inj hw
          exact Moved.send hj hclean
        · obtain ⟨x, hx, rfl⟩ := Option.map_eq_some_iff.mp hw
          exact putBuf_moved hphase hcur' hx _

/-- **One step of a call.** -/
theorem jobStep_moved (hj : (w.pages p).job = some j) {a : Answer}
    (hw : jobStep g w p j a = some w') :
    Moved g w p j ((Act.job p a : Act π κ).timely w = true) w' := by
  unfold jobStep at hw
  rcases hphase : j.phase with - | - | - | - | - | - <;> simp only [hphase] at hw
  case encrypt => exact encryptStep_moved hj hphase hw
  case submit => exact submitStep_moved hj hphase hw
  all_goals
    obtain rfl := Option.some.inj hw
    have hsub : j.phase ≠ .submit := by simp [hphase]
  case mark =>
    have hmove : Move g (w.pages p) j _ := Move.mark
      (j.toSubmit + if eligible g j.len (w.pages p).bufs j.cur then 1 else 0) hphase
    by_cases hsend :
        (decide (j.cur * g.bs < j.len) && ((w.pages p).bufs j.cur).skipped) = true
    · rw [markStep, if_pos hsend]
      refine ⟨fun q hqp => ?_, endings_send w j.owner, ?_, fun _ _ _ _ h => (hsub h).elim⟩
      · rw [pages_setPage_of_ne _ hqp, pages_send]
      · rw [pages_setPage_self]
        exact hmove
    · rw [markStep, if_neg hsend]
      exact Moved.setPage hmove fun _ _ _ _ h => (hsub h).elim
  case clean => exact Moved.setPage (Move.clean hphase) fun _ _ _ _ h => (hsub h).elim
  case unlock =>
    unfold unlockStep
    dsimp only
    split_ifs with hzero
    · exact Moved.setPage (Move.unlock hphase hzero) fun _ _ _ _ h => (hsub h).elim
    · refine ⟨fun q hqp => ?_, rfl, ?_, fun _ _ _ _ h => (hsub h).elim⟩
      · simp [leave, World.setPass, World.setPage, hqp]
      · simpa [leave, World.setPass, World.setPage] using
          (Move.leave hphase hzero : Move g (w.pages p) j _)
  case last =>
    refine ⟨fun q hqp => ?_, rfl, ?_, fun _ _ _ _ h => (hsub h).elim⟩
    · simp [leave, World.endPageWriteback, World.setPass, World.setPage, hqp]
    · simpa [leave, World.endPageWriteback, World.setPass, World.setPage] using
        (Move.last hphase : Move g (w.pages p) j _)

omit [DecidableEq π] [DecidableEq κ] in
theorem Owed.congr {pg pg' : Page κ} {en : ℕ} (h : Owed pg en) (hasync : pg'.async = pg.async)
    (hwb : pg'.writeback = pg.writeback) (hjob : pg'.job = pg.job) : Owed pg' en := by
  obtain ⟨howed, hclean⟩ := h
  constructor <;> simpa only [hasync, hwb, hjob]

omit [DecidableEq π] [DecidableEq κ] in
/-- While the call has submitted nothing, it will end the writeback itself. -/
theorem Owed.of_fresh {pg : Page κ} {en : ℕ} (hj : pg.job = some j) (hzero : j.submitted = 0) :
    Owed pg en := by
  refine ⟨fun _ => Or.inr (Or.inr ⟨j, hj, hzero⟩), fun j' hj' _ => ?_⟩
  obtain rfl := Option.some.inj (hj.symm.trans hj')
  exact hzero

omit [DecidableEq π] [DecidableEq κ] in
theorem Owed.of_idle {pg : Page κ} {en : ℕ} (hwb : pg.writeback = false)
    (hjob : pg.job = none) : Owed pg en := by
  constructor <;> simp [hwb, hjob]

omit [DecidableEq π] [DecidableEq κ] in
theorem Owed.move {pg pg' : Page κ} {fl : ℕ → ℕ} {en : ℕ} (h : Consistent g pg fl en)
    (howed : Owed pg en) (hj : pg.job = some j) (hmove : Move g pg j pg')
    (hclean : ∀ j', pg'.job = some j' → j'.phase = .clean → j.phase = .submit →
      j'.submitted = 0) : Owed pg' en := by
  have hshape := h.shape j hj
  have hnext : j.phase = .submit → (j.next g).phase ≠ .clean := by
    intro hphase hp
    rcases j.next_phase g with he | he <;> simp [he, hphase] at hp
  cases hmove with
  | stay => exact howed
  | mark n hphase =>
      refine Owed.of_fresh rfl ?_
      rw [Job.nextMark_submitted]
      exact hshape.submitted (Or.inl hphase)
  | encrypted hphase => exact Owed.of_fresh rfl (hshape.submitted (Or.inr (Or.inl hphase)))
  | fail _ hphase =>
      refine Owed.of_fresh rfl ?_
      rcases hphase with ⟨hphase, -⟩ | ⟨hphase, -⟩
      · exact hshape.submitted (Or.inr (Or.inl hphase))
      · exact hclean _ rfl rfl hphase
  | skip hphase _ =>
      refine ⟨fun hwb => ?_, fun j' hj' hp => ?_⟩
      · rcases howed.owed hwb with hi | hen | ⟨j₀, hj₀, hzero⟩
        · exact Or.inl hi
        · exact Or.inr (Or.inl hen)
        · obtain rfl := Option.some.inj (hj.symm.trans hj₀)
          exact Or.inr (Or.inr ⟨_, rfl, (j.next_submitted g).trans hzero⟩)
      · obtain rfl := Option.some.inj hj'
        exact (hnext hphase hp).elim
  | put hphase hcur =>
      -- the buffer that was put into a bio carries the flag
      refine ⟨fun _ => Or.inl ⟨j.cur, ?_⟩, fun j' hj' hp => ?_⟩
      · rw [Page.async_setJob, pg.async_setBuf_self]
        exact hcur
      · obtain rfl := Option.some.inj hj'
        exact (hnext hphase hp).elim
  | clean hphase =>
      refine Owed.of_fresh rfl ?_
      rw [Job.next_submitted]
      exact howed.clean j hj hphase
  | unlock _ hzero => exact Owed.of_fresh rfl hzero
  | leave _ hsub =>
      refine ⟨fun hwb => ?_, fun j' hj' => by cases hj'⟩
      rcases howed.owed hwb with hi | hen | ⟨j₀, hj₀, hzero⟩
      · exact Or.inl hi
      · exact Or.inr (Or.inl hen)
      · obtain rfl := Option.some.inj (hj.symm.trans hj₀)
        exact (hsub hzero).elim
  | last _ => exact Owed.of_idle rfl rfl

omit [DecidableEq π] [DecidableEq κ] in
/-- After a critical section, some other buffer of the page carries the flag or the end of the
writeback is decided. -/
theorem Owed.finish {pg : Page κ} {en : ℕ} (howed : Owed pg en) {s : Seg π} (err : Bool) :
    Owed { pg.clearSeg g s with error := err }
      (en + if pg.underIo g s = 0 then 1 else 0) := by
  refine ⟨fun _ => ?_, howed.clean⟩
  by_cases hunder : pg.underIo g s = 0
  · exact Or.inr (Or.inl (by simp [hunder]))
  · obtain ⟨i, -, hi⟩ := List.countP_pos_iff.mp (Nat.pos_of_ne_zero hunder)
    simp only [Bool.and_eq_true, Bool.not_eq_true'] at hi
    refine Or.inl ⟨i, ?_⟩
    simpa [Page.async, Page.clearSeg, hi.1] using hi.2

omit [DecidableEq κ] in
/-- `ext4_finish_bio` has looked at a segment. -/
theorem finishSeg_owed (howed : ∀ p, Owed (w.pages p) (w.endings p)) {b : ℕ} {x : Bio π}
    (hx : w.bios[b]? = some x) (hending : x.ending = none) (err : Bool) (s : Seg π)
    (rest : List (Seg π)) (q : π) :
    Owed ((finishSeg g w b x err s rest).pages q) ((finishSeg g w b x err s rest).endings q) := by
  by_cases hqp : q = s.page
  · subst hqp
    have hpage : (finishSeg g w b x err s rest).pages s.page =
        { (w.pages s.page).clearSeg g s with error := (w.pages s.page).error || err } :=
      pages_setPage_self w _ _
    have hen := Table.total_set (fun y : Bio π => if y.ending = some s.page then 1 else 0) hx
      { x with
        segs := rest
        ending := if (w.pages s.page).underIo g s = 0 then some s.page else none }
    have hen' : (finishSeg g w b x err s rest).endings s.page =
        w.endings s.page + if (w.pages s.page).underIo g s = 0 then 1 else 0 := by
      rw [hending] at hen
      simpa [World.endings, finishSeg] using hen
    rw [hpage, hen']
    exact (howed s.page).finish _
  · have hpage : (finishSeg g w b x err s rest).pages q = w.pages q :=
      pages_setPage_of_ne w hqp _
    have hen : (finishSeg g w b x err s rest).endings q = w.endings q := by
      refine Table.total_set_eq hx ?_
      rw [hending]
      dsimp only
      split_ifs <;> simp_all
    rw [hpage, hen]
    exact howed q

omit [DecidableEq κ] in
/-- The writeback of a page is ended. -/
theorem endPage_owed (howed : ∀ p, Owed (w.pages p) (w.endings p)) {b : ℕ} {x : Bio π}
    (hx : w.bios[b]? = some x) {p : π} (hp : x.ending = some p) (q : π) :
    Owed ((w.endPageWriteback p).pages q)
      (World.endings { w.endPageWriteback p with bios := w.bios.set b { x with ending := none } }
        q) := by
  by_cases hqp : q = p
  · subst hqp
    refine ⟨fun hwb => ?_, ?_⟩
    · simp [World.endPageWriteback, World.setPage] at hwb
    · simpa [World.endPageWriteback, World.setPage] using (howed q).clean
  · have hpage : (w.endPageWriteback p).pages q = w.pages q := pages_setPage_of_ne w hqp _
    have hen : World.endings
        { w.endPageWriteback p with bios := w.bios.set b { x with ending := none } } q =
          w.endings q := Table.total_set_eq hx (by simp [hp, Ne.symm hqp])
    rw [hpage, hen]
    exact howed q

theorem step_owed (h : Inv g w) (howed : ∀ p, Owed (w.pages p) (w.endings p)) {a : Act π κ}
    (htimely : a.timely w = true) (hw : step g w a = some w') :
    ∀ q, Owed (w'.pages q) (w'.endings q) := by
  -- a step on the page `p` that leaves the bios alone
  have honPage : ∀ {p : π} {w₁ : World π κ}, w₁.endings = w.endings →
      (∀ q, q ≠ p → w₁.pages q = w.pages q) → Owed (w₁.pages p) (w.endings p) →
      ∀ q, Owed (w₁.pages q) (w₁.endings q) := by
    intro p w₁ hen hother hp q
    rw [hen]
    by_cases hqp : q = p
    · rw [hqp]
      exact hp
    · rw [hother q hqp]
      exact howed q
  cases a with
  | start k p len encrypted syncAll =>
      simp only [step] at hw
      split_ifs at hw with hfree
      obtain rfl := Option.some.inj hw
      refine honPage (p := p) rfl (fun q hqp => ?_) ?_
      · simp [start, World.setPass, World.setPage, hqp]
      · simp only [start, World.setPass, World.setPage, Function.update_self]
        exact Owed.of_fresh rfl rfl
  | job p a =>
      obtain ⟨j, hj, hw⟩ := Option.bind_eq_some_iff.mp hw
      have hmoved := jobStep_moved hj hw
      exact honPage hmoved.endings hmoved.other
        (Owed.move (h.page p) (howed p) hj hmoved.move (hmoved.clean htimely))
  | submit k =>
      simp only [step] at hw
      split_ifs at hw
      obtain rfl := Option.some.inj hw
      intro q
      rw [pages_send, endings_send]
      exact howed q
  | complete b err =>
      obtain ⟨x, hx, hw⟩ := Option.bind_eq_some_iff.mp hw
      split_ifs at hw
      obtain rfl := Option.some.inj hw
      intro q
      have hen : World.endings { w with bios := w.bios.set b { x with status := some err } } q =
          w.endings q := Table.total_set_eq hx rfl
      rw [hen]
      exact howed q
  | finish b =>
      obtain ⟨x, hx, hw⟩ := Option.bind_eq_some_iff.mp hw
      rcases hstatus : x.status with - | err <;> rcases hending : x.ending with - | p <;>
        rcases hsegs : x.segs with - | ⟨s, rest⟩ <;>
        simp only [hstatus, hending, hsegs] at hw <;> try cases hw
      exact finishSeg_owed howed hx hending err s rest
  | endPage b =>
      obtain ⟨x, hx, hw⟩ := Option.bind_eq_some_iff.mp hw
      obtain ⟨p, hp, rfl⟩ := Option.map_eq_some_iff.mp hw
      exact endPage_owed howed hx hp
  | touch p bufs =>
      simp only [step] at hw
      split_ifs at hw
      obtain rfl := Option.some.inj hw
      refine honPage (p := p) rfl (fun q hqp => pages_setPage_of_ne w hqp _) ?_
      rw [pages_setPage_self]
      exact (howed p).congr rfl rfl rfl

/-- **Every writeback ends.**  When every call has returned and every bio has been completed
and looked at, no page is under writeback, in whatever order that happened, provided no bio
allocation failed for a page after a buffer of it was submitted. -/
theorem writeback_always_ends (g : Geometry) (bufs : π → ℕ → Buf) (as : List (Act π κ))
    (w : World π κ)
    (htimely : Run.Along (step g) (fun w a => a.timely w = true) (init bufs) as)
    (hrun : Run.run (step g) (init bufs) as = some w) (hw : Settled w) (p : π) :
    (w.pages p).writeback = false := by
  have h : Inv g w ∧ ∀ p, Owed (w.pages p) (w.endings p) :=
    Run.run_preserves (I := fun w => Inv g w ∧ ∀ p, Owed (w.pages p) (w.endings p))
      (fun _ _ _ h ht hs => ⟨step_inv h.1 hs, step_owed h.1 h.2 ht hs⟩)
      ⟨Inv.init bufs, fun p => Owed.of_idle rfl rfl⟩ htimely hrun
  exact h.1.settled h.2 hw p

end Steps

instance decidableSettled [Fintype π] [DecidableEq π] (w : World π κ) : Decidable (Settled w) :=
  inferInstanceAs (Decidable (_ ∧ _))

theorem writeback_always_ends_scattered :
    ∃ w, Run.run (step twoBuffers) (init scattered) scatteredRun = some w ∧
      (w.pages true).error = true ∧ (w.pages true).writeback = false := by
  obtain ⟨w, hw, herr, hset⟩ :
      ∃ w, Run.run (step twoBuffers) (init scattered) scatteredRun = some w ∧
        (w.pages true).error = true ∧ Settled w := by
    decide +kernel
  exact ⟨w, hw, herr, writeback_always_ends twoBuffers scattered scatteredRun w
    (by decide +kernel) hw hset true⟩

/-- The allocation for the second buffer fails, and the first one completes before the flag of
the second is cleared: the completion leaves the end of the writeback to the second buffer, the
call leaves it to the completion. -/
theorem late_failure_strands_page :
    ∃ w, Run.run (step twoBuffers) (init scattered)
        ([.start () true 1024 false false, .job true .ok, .job true .ok, .job true .ok,
          .job true .ok, .job true .ok, .job true (.fail (-12)), .complete 0 false, .finish 0,
          .job true .ok, .job true .ok] : List (Act Bool Unit)) = some w ∧
      Settled w ∧ (w.pages true).writeback = true := by
  decide +kernel

end CcNvme.PageWriteback

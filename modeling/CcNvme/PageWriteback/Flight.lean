/-
CcNvme/PageWriteback/Flight.lean

`writeback_covers_flight`: in whatever order submissions and completions happen, a page with a
buffer in a bio is under writeback, no buffer is in two bios, and no writeback is ended twice.
Each step changes one page and one bio, so the invariant is that every page is `Consistent`.
-/
import CcNvme.PageWriteback.Consistent

namespace CcNvme.PageWriteback

variable {π κ : Type*} {g : Geometry}

/-! ### The invariant, step by step -/

section Steps

variable [DecidableEq π] [DecidableEq κ] {w w' : World π κ} {p : π} {j : Job κ}

structure Inv (g : Geometry) (w : World π κ) : Prop where
  aligned : ∀ x ∈ w.bios, ∀ s ∈ x.segs, s.Aligned g
  page : ∀ p, Consistent g (w.pages p) (w.flight g p) (w.endings p)
  bug : w.bug = false

omit [DecidableEq κ] in
@[simp] theorem pages_setPage_self (w : World π κ) (p : π) (pg : Page κ) :
    (w.setPage p pg).pages p = pg := by
  simp [World.setPage]

omit [DecidableEq κ] in
theorem pages_setPage_of_ne (w : World π κ) {p q : π} (hqp : q ≠ p) (pg : Page κ) :
    (w.setPage p pg).pages q = w.pages q := by
  simp [World.setPage, hqp]

section Send

variable (w : World π κ) (k : κ)

omit [DecidableEq π] in
@[simp] theorem pages_send : (w.send k).pages = w.pages := by
  unfold World.send
  split <;> rfl

omit [DecidableEq π] in
@[simp] theorem bug_send : (w.send k).bug = w.bug := by
  unfold World.send
  split <;> rfl

omit [DecidableEq π] in
theorem total_send {f : Bio π → ℕ} (hf : ∀ x, f { x with sent := true } = f x) :
    Table.total f (w.send k).bios = Table.total f w.bios := by
  unfold World.send
  split
  · rfl
  · exact Table.total_modify_eq hf _ _

@[simp] theorem flight_send (g : Geometry) : (w.send k).flight g = w.flight g := by
  funext p i
  exact total_send w k fun _ => rfl

@[simp] theorem endings_send : (w.send k).endings = w.endings := by
  funext p
  exact total_send w k fun _ => rfl

omit [DecidableEq π] in
theorem segs_send {x : Bio π} (hx : x ∈ (w.send k).bios) : ∃ y ∈ w.bios, x.segs = y.segs := by
  unfold World.send at hx
  split at hx
  · exact ⟨x, hx, rfl⟩
  · obtain ⟨y, hy, hxy⟩ : ∃ y ∈ w.bios, x = y ∨ x = { y with sent := true } := by
      obtain ⟨n, hn, rfl⟩ := List.getElem_of_mem hx
      refine ⟨_, List.getElem_mem (by simpa using hn), ?_⟩
      rw [List.getElem_modify]
      split_ifs
      · exact Or.inr rfl
      · exact Or.inl rfl
    refine ⟨y, hy, ?_⟩
    rcases hxy with rfl | rfl <;> rfl

end Send

namespace Inv

theorem send (h : Inv g w) (k : κ) : Inv g (w.send k) where
  aligned x hx := by
    obtain ⟨y, hy, hxy⟩ := segs_send w k hx
    rw [hxy]
    exact h.aligned y hy
  page p := by
    rw [pages_send, flight_send, endings_send]
    exact h.page p
  bug := by
    rw [bug_send]
    exact h.bug

theorem setPass (h : Inv g w) (k : κ) (ps : Pass) : Inv g (w.setPass k ps) :=
  ⟨h.aligned, h.page, h.bug⟩

omit [DecidableEq κ] in
/-- A step on one page that leaves the bios alone. -/
theorem onPage (h : Inv g w) (hbios : w'.bios = w.bios) (hbug : w'.bug = false)
    (hother : ∀ q, q ≠ p → w'.pages q = w.pages q)
    (hp : Consistent g (w'.pages p) (w.flight g p) (w.endings p)) : Inv g w' where
  aligned := by
    rw [hbios]
    exact h.aligned
  page q := by
    unfold World.flight World.endings
    rw [hbios]
    by_cases hqp : q = p
    · rw [hqp]
      exact hp
    · rw [hother q hqp]
      exact h.page q
  bug := hbug

omit [DecidableEq κ] in
theorem setPage (h : Inv g w) {pg : Page κ}
    (hp : Consistent g pg (w.flight g p) (w.endings p)) : Inv g (w.setPage p pg) := by
  refine h.onPage rfl h.bug (fun q hqp => pages_setPage_of_ne w hqp pg) ?_
  rw [pages_setPage_self]
  exact hp

omit [DecidableEq κ] in
/-- A step on one page and one bio leaves the others alone. -/
theorem setBio (h : Inv g w) {b : ℕ} {x y : Bio π} (hx : w.bios[b]? = some x)
    (hy : ∀ s ∈ y.segs, s.Aligned g) {pg : Page κ} {bug : Bool} (hbug : bug = false)
    (hflight : ∀ q i, q ≠ p → y.segs.countP (Seg.on g q i) = x.segs.countP (Seg.on g q i))
    (hending : ∀ q, q ≠ p → (y.ending = some q ↔ x.ending = some q))
    (hp : ∀ fl en,
      (∀ i, fl i + x.segs.countP (Seg.on g p i) =
        w.flight g p i + y.segs.countP (Seg.on g p i)) →
      (en + if x.ending = some p then 1 else 0) =
        w.endings p + (if y.ending = some p then 1 else 0) → Consistent g pg fl en) :
    Inv g { w.setPage p pg with bios := w.bios.set b y, bug := bug } where
  aligned := Table.forall_set h.aligned hy
  page q := by
    show Consistent g ((w.setPage p pg).pages q) (World.flight g _ q) (World.endings _ q)
    by_cases hqp : q = p
    · subst hqp
      rw [pages_setPage_self]
      exact hp _ _ (fun i => Table.total_set _ hx y) (Table.total_set _ hx y)
    · rw [pages_setPage_of_ne w hqp]
      have hfl : ∀ i, Table.total _ (w.bios.set b y) = w.flight g q i := fun i =>
        Table.total_set_eq hx (hflight q i hqp)
      have hen : Table.total _ (w.bios.set b y) = w.endings q :=
        Table.total_set_eq hx (by simp only [hending q hqp])
      unfold World.flight World.endings
      rw [hen]
      simp only [hfl]
      exact h.page q
  bug := hbug

omit [DecidableEq κ] in
theorem init (bufs : π → ℕ → Buf) : Inv g (PageWriteback.init bufs : World π κ) where
  aligned := by simp [PageWriteback.init]
  page p := by
    refine ⟨fun i => Nat.zero_le 1, fun i hi => ?_, fun i hi => ?_, fun i hi => ?_,
      fun i hi => ?_, Nat.zero_le 1, fun hen => ?_, fun j hj => ?_, fun j hj => ?_,
      fun j hj => ?_, fun j hj => ?_⟩
    · exact (Nat.lt_irrefl 0 hi).elim
    · cases hi
    · cases hi
    · cases hi
    · exact (Nat.lt_irrefl 0 hen).elim
    all_goals cases hj
  bug := rfl

end Inv

namespace Inv

variable (h : Inv g w) (hj : (w.pages p).job = some j)

include h hj

theorem markStep (hphase : j.phase = .mark) : Inv g (markStep g w p j) := by
  have hmark := (h.page p).mark hj hphase
    (j.toSubmit + if eligible g j.len (w.pages p).bufs j.cur then 1 else 0)
  -- the bio under construction may have been submitted
  by_cases hsend :
      (decide (j.cur * g.bs < j.len) && ((w.pages p).bufs j.cur).skipped) = true
  · rw [PageWriteback.markStep, if_pos hsend]
    refine (h.send j.owner).setPage ?_
    rw [flight_send, endings_send]
    exact hmark
  · rw [PageWriteback.markStep, if_neg hsend]
    exact h.setPage hmark

omit [DecidableEq κ] in
/-- The call goes to `out`. -/
theorem fail {cur : ℕ} (hphase : j.phase ≠ .last) (hcur : cur < g.nb)
    (hpend : ∀ i, j.Pending i ↔ cur ≤ i) (ret : ℤ) : Inv g (fail w p j cur ret) := by
  refine h.setPage ((h.page p).move hj rfl rfl rfl rfl hphase rfl ⟨hcur, ?_⟩ ?_ ?_)
  · intro hp
    simp at hp
  · intro i _ _ hi
    exact (hpend i).mp hi
  · intro i hi
    exact (h.page p).pending j hj i ((hpend i).mpr hi)

theorem encryptStep (hphase : j.phase = .encrypt) {a : Answer}
    (hw : encryptStep w p j a = some w') : Inv g w' := by
  have hzero := ((h.page p).shape j hj).submitted (Or.inr (Or.inl hphase))
  have hpend : ∀ i, j.Pending i ↔ 0 ≤ i := fun i => by simp [Job.Pending, hphase]
  have hok : Inv g
      (w.setPage p ((w.pages p).setJob (some { j with phase := .submit, cur := 0 }))) := by
    refine h.setPage ((h.page p).move hj rfl rfl rfl rfl (by simp [hphase]) rfl
      ⟨g.nb_pos, fun hp => hzero⟩ ?_ ?_)
    · intro i _ _ _
      exact Nat.zero_le i
    · intro i _
      exact (h.page p).pending j hj i ((hpend i).mpr (Nat.zero_le i))
  cases a with
  | ok =>
      obtain rfl := Option.some.inj hw
      exact hok
  | refused =>
      obtain rfl := Option.some.inj hw
      exact hok
  | fail err =>
      unfold PageWriteback.encryptStep at hw
      dsimp only at hw
      split_ifs at hw
      · obtain rfl := Option.some.inj hw
        exact h.send j.owner
      · obtain rfl := Option.some.inj hw
        exact h.fail hj (by simp [hphase]) g.nb_pos hpend err

theorem putBuf (hphase : j.phase = .submit) (hcur : (w.pages p).async j.cur = true) {b : ℕ}
    {x : Bio π} (hx : w.bios[b]? = some x) : Inv g (putBuf g w p j b x) := by
  have hsegs := h.aligned x (List.mem_of_getElem? hx)
  have hlt := ((h.page p).shape j hj).cur_lt
  refine (h.setPass j.owner _).setBio (p := p) hx (aligned_addSeg hsegs p hlt) h.bug ?_ ?_ ?_
  · intro q i hqp
    show (addSeg x.segs p (j.cur * g.bs) g.bs).countP _ = _
    rw [countP_addSeg hsegs, if_neg (fun he => hqp he.1), Nat.add_zero]
  · intro q _
    exact Iff.rfl
  · intro fl en hfl hen
    obtain rfl : en = w.endings p := by
      exact Nat.add_right_cancel hen
    refine (h.page p).put hj hphase hcur (fun i => ?_) _
    have hi : fl i + x.segs.countP (Seg.on g p i) =
        w.flight g p i + (addSeg x.segs p (j.cur * g.bs) g.bs).countP (Seg.on g p i) := hfl i
    rw [countP_addSeg hsegs] at hi
    simp only [true_and] at hi
    omega

theorem submitStep (hphase : j.phase = .submit) {a : Answer}
    (hw : submitStep g w p j a = some w') : Inv g w' := by
  have hshape := (h.page p).shape j hj
  have hpend : ∀ i, j.Pending i ↔ j.cur ≤ i := fun i => by simp [Job.Pending, hphase]
  have hfail : Inv g (PageWriteback.fail w p j j.cur (-12)) :=
    h.fail hj (by simp [hphase]) hshape.cur_lt hpend (-12)
  unfold PageWriteback.submitStep at hw
  dsimp only at hw
  by_cases hcur : (w.pages p).async j.cur = false
  · rw [if_pos hcur] at hw
    obtain rfl := Option.some.inj hw
    refine h.setPage ((h.page p).move hj rfl rfl rfl rfl (by simp [hphase])
      (j.next_submitted g) ⟨Job.next_cur_lt hshape.cur_lt, fun hp => ?_⟩ ?_ ?_)
    · rcases j.next_phase g with he | he <;> simp [he, hphase] at hp
    · intro i hi _ hp
      refine hp.next (Or.inl hphase) ((h.page p).async_lt i hi) fun hic => ?_
      rw [hic, hcur] at hi
      cases hi
    · intro i hi
      exact (h.page p).pending j hj i (Job.Pending.of_next (Or.inl hphase) hi).1
  · rw [if_neg hcur] at hw
    have hnew : Inv g
        { w.setPass j.owner
            { w.passes j.owner with
              bio := some w.bios.length
              nextBlock := ((w.pages p).bufs j.cur).blocknr } with
          bios := w.bios ++ [⟨[], false, none, none⟩] } := by
      refine ⟨?_, fun q => ?_, h.bug⟩
      · intro x hx
        rcases List.mem_append.mp hx with hx | hx
        · exact h.aligned x hx
        · obtain rfl := List.mem_singleton.mp hx
          simp
      · have hq := h.page q
        unfold World.flight World.endings at hq ⊢
        simpa [World.setPass] using hq
    have hput : ∀ b, (w.bios[b]?).map (PageWriteback.putBuf g w p j b) = some w' → Inv g w' := by
      intro b hb
      obtain ⟨x, hx, rfl⟩ := Option.map_eq_some_iff.mp hb
      exact h.putBuf hj hphase (eq_true_of_ne_false hcur) hx
    rcases hbio : (w.passes j.owner).bio with - | b
    · cases a <;> simp only [hbio] at hw <;> obtain rfl := Option.some.inj hw
      · exact hnew
      · exact hnew
      · exact hfail
    · cases a <;> simp only [hbio] at hw
      case refused =>
        obtain rfl := Option.some.inj hw
        exact h.send j.owner
      all_goals
        split_ifs at hw
        · obtain rfl := Option.some.inj hw
          exact h.send j.owner
        · exact hput b hw

theorem unlockStep (hphase : j.phase = .unlock) : Inv g (unlockStep w p j) := by
  unfold PageWriteback.unlockStep
  dsimp only
  split_ifs with hzero
  · exact h.setPage ((h.page p).unlock hj hphase hzero)
  · have hdone : ∀ i, ¬ j.Pending i := fun i hp => by simp [Job.Pending, hphase] at hp
    have hleave := (h.page p).leave hj hdone false
    unfold leave
    refine h.onPage (p := p) rfl h.bug ?_ ?_
    · intro q hqp
      simp [World.setPass, World.setPage, hqp]
    · simpa [World.setPass, World.setPage] using hleave

theorem lastStep (hphase : j.phase = .last) : Inv g (leave (w.endPageWriteback p) p j) := by
  obtain ⟨hwb, -, hlast⟩ := (h.page p).last hj hphase
  unfold leave World.endPageWriteback
  refine h.onPage (p := p) rfl ?_ ?_ ?_
  · simp [World.setPass, World.setPage, h.bug, hwb]
  · intro q hqp
    simp [World.setPass, World.setPage, hqp]
  · simpa [World.setPass, World.setPage] using hlast

theorem jobStep {a : Answer} (hw : jobStep g w p j a = some w') : Inv g w' := by
  unfold PageWriteback.jobStep at hw
  rcases hphase : j.phase with - | - | - | - | - | - <;> simp only [hphase] at hw
  case encrypt => exact h.encryptStep hj hphase hw
  case submit => exact h.submitStep hj hphase hw
  all_goals obtain rfl := Option.some.inj hw
  · exact h.markStep hj hphase
  · exact h.setPage ((h.page p).clean hj hphase)
  · exact h.unlockStep hj hphase
  · exact h.lastStep hj hphase

end Inv

omit [DecidableEq κ] in
theorem Inv.finishSeg (h : Inv g w) {b : ℕ} {x : Bio π} (hx : w.bios[b]? = some x) {s : Seg π}
    {rest : List (Seg π)} (hsegs : x.segs = s :: rest) (hending : x.ending = none) (err : Bool) :
    Inv g (finishSeg g w b x err s rest) := by
  have hmem := h.aligned x (List.mem_of_getElem? hx)
  rw [hsegs] at hmem
  refine h.setBio (p := s.page) hx (fun t ht => hmem t (List.mem_cons_of_mem s ht)) h.bug
    ?_ ?_ ?_
  · intro q i hqp
    rw [hsegs, List.countP_cons_of_neg]
    simp [Seg.on, Ne.symm hqp]
  · intro q hqp
    rw [hending]
    dsimp only
    split_ifs
    · simp [Ne.symm hqp]
    · rfl
  · intro fl en hfl hen
    have hon : ∀ i, Seg.on g s.page i s = s.covers g i := fun i => by simp [Seg.on]
    have hfl' : ∀ i, w.flight g s.page i = fl i + if s.covers g i then 1 else 0 := by
      intro i
      have hi : fl i + x.segs.countP (Seg.on g s.page i) =
          w.flight g s.page i + rest.countP (Seg.on g s.page i) := hfl i
      rw [hsegs, List.countP_cons, hon] at hi
      omega
    have hen' : en = w.endings s.page + if (w.pages s.page).underIo g s = 0 then 1 else 0 := by
      rw [hending] at hen
      simpa using hen
    rw [hen']
    exact (h.page s.page).finish (hmem s List.mem_cons_self) hfl' _

omit [DecidableEq κ] in
theorem Inv.complete (h : Inv g w) {b : ℕ} {x : Bio π} (hx : w.bios[b]? = some x) (err : Bool) :
    Inv g { w with bios := w.bios.set b { x with status := some err } } where
  aligned := Table.forall_set h.aligned (h.aligned x (List.mem_of_getElem? hx))
  page p := by
    have hfl : World.flight g { w with bios := w.bios.set b { x with status := some err } } p =
        w.flight g p := by
      funext i
      exact Table.total_set_eq hx rfl
    have hen : World.endings { w with bios := w.bios.set b { x with status := some err } } p =
        w.endings p :=
      Table.total_set_eq hx rfl
    rw [hfl, hen]
    exact h.page p
  bug := h.bug

omit [DecidableEq κ] in
theorem Inv.endPage (h : Inv g w) {b : ℕ} {x : Bio π} (hx : w.bios[b]? = some x)
    (hending : x.ending = some p) :
    Inv g { w.endPageWriteback p with bios := w.bios.set b { x with ending := none } } := by
  -- the bio is one of those that have decided to end it
  obtain ⟨n, hn⟩ : ∃ n, w.endings p = n + 1 := by
    refine Nat.exists_eq_add_of_le' ?_
    have hle := Table.le_total (fun y : Bio π => if y.ending = some p then 1 else 0)
      (List.mem_of_getElem? hx)
    simpa [hending, World.endings] using hle
  have hp := h.page p
  rw [hn] at hp
  obtain ⟨hwb, hend⟩ := hp.endPage
  have hbug : (w.bug || !(w.pages p).writeback) = false := by
    rw [h.bug, hwb]
    rfl
  refine h.setBio (p := p) (y := { x with ending := none }) hx
    (h.aligned x (List.mem_of_getElem? hx)) hbug (fun _ _ _ => rfl) ?_ ?_
  · intro q hqp
    simp [hending, Ne.symm hqp]
  · intro fl en hfl hen
    obtain rfl : fl = w.flight g p := by
      funext i
      exact Nat.add_right_cancel (hfl i)
    obtain rfl : en = n := by
      rw [hn, hending] at hen
      simpa using hen
    exact hend

theorem step_inv (h : Inv g w) {a : Act π κ} (hw : step g w a = some w') : Inv g w' := by
  cases a with
  | start k p len encrypted syncAll =>
      simp only [step] at hw
      split_ifs at hw with hfree
      obtain rfl := Option.some.inj hw
      simp only [Bool.or_eq_true, not_or, Bool.not_eq_true] at hfree
      exact (h.setPage ((h.page p).start hfree.1.2 k len encrypted syncAll)).setPass k _
  | job p a =>
      obtain ⟨j, hj, hw⟩ := Option.bind_eq_some_iff.mp hw
      exact h.jobStep hj hw
  | submit k =>
      simp only [step] at hw
      split_ifs at hw
      obtain rfl := Option.some.inj hw
      exact h.send k
  | complete b err =>
      obtain ⟨x, hx, hw⟩ := Option.bind_eq_some_iff.mp hw
      split_ifs at hw
      obtain rfl := Option.some.inj hw
      exact h.complete hx err
  | finish b =>
      obtain ⟨x, hx, hw⟩ := Option.bind_eq_some_iff.mp hw
      rcases hstatus : x.status with - | err <;> rcases hending : x.ending with - | p <;>
        rcases hsegs : x.segs with - | ⟨s, rest⟩ <;>
        simp only [hstatus, hending, hsegs] at hw <;> try cases hw
      exact h.finishSeg hx hsegs hending err
  | endPage b =>
      obtain ⟨x, hx, hw⟩ := Option.bind_eq_some_iff.mp hw
      obtain ⟨p, hp, rfl⟩ := Option.map_eq_some_iff.mp hw
      exact h.endPage hx hp
  | touch p bufs =>
      simp only [step] at hw
      split_ifs at hw
      obtain rfl := Option.some.inj hw
      exact h.setPage ((h.page p).congr rfl rfl rfl rfl)

/-- **A page with a buffer in a bio is under writeback.**  Whatever the order of submissions,
completions and ends of writeback: a page that is not under writeback has no buffer in a bio
and none that is about to be put into one, no buffer is in two bios, and
`end_page_writeback` is called only for pages under writeback. -/
theorem writeback_covers_flight (g : Geometry) (bufs : π → ℕ → Buf) (as : List (Act π κ))
    (w : World π κ) (hrun : Run.run (step g) (init bufs) as = some w) :
    w.bug = false ∧ ∀ p,
      (∀ i, w.flight g p i ≤ 1) ∧
      ((w.pages p).writeback = false → ∀ i, w.flight g p i = 0 ∧ (w.pages p).async i = false) := by
  have h : Inv g w := Run.run_keeps (fun _ _ _ h hs => step_inv h hs) (Inv.init bufs) hrun
  refine ⟨h.bug, fun p => ⟨(h.page p).flight_le, fun hwb i => ?_⟩⟩
  obtain ⟨hasync, -, hfl⟩ := (h.page p).idle hwb
  exact ⟨hfl i, hasync i⟩

end Steps

/-- Pages of two buffers whose blocks do not follow one another, all dirty. -/
def scattered : Bool → ℕ → Buf := fun _ i => ⟨2 * i, true, true, false, false, false, true, false⟩

def twoBuffers : Geometry := ⟨512, 2, Nat.succ_pos 511, Nat.succ_pos 1⟩

/-- Both buffers of a page are submitted, in a bio each, and the second one completes first. -/
def scatteredRun : List (Act Bool Unit) :=
  [.start () true 1024 false false, .job true .ok, .job true .ok, .job true .ok, .job true .ok,
    .job true .ok, .job true .ok, .job true .ok, .job true .ok, .submit (),
    .complete 1 false, .finish 1, .complete 0 true, .finish 0, .endPage 0]

theorem writeback_covers_flight_scattered :
    (∃ w, Run.run (step twoBuffers) (init scattered) (scatteredRun.take 10) = some w ∧
      w.flight twoBuffers true 0 = 1 ∧ (w.pages true).writeback = true) ∧
    ∃ w, Run.run (step twoBuffers) (init scattered) scatteredRun = some w ∧ w.bug = false ∧
      ∀ i, w.flight twoBuffers true i = 0 := by
  constructor
  · obtain ⟨w, hw, hfl⟩ :
        ∃ w, Run.run (step twoBuffers) (init scattered) (scatteredRun.take 10) = some w ∧
          w.flight twoBuffers true 0 = 1 := by
      decide +kernel
    refine ⟨w, hw, hfl, Bool.of_not_eq_false fun hwb => ?_⟩
    have hidle := ((writeback_covers_flight twoBuffers scattered _ w hw).2 true).2 hwb 0
    exact absurd (hfl.symm.trans hidle.1) Nat.one_ne_zero
  · obtain ⟨w, hw, hwb⟩ :
        ∃ w, Run.run (step twoBuffers) (init scattered) scatteredRun = some w ∧
          (w.pages true).writeback = false := by
      decide +kernel
    obtain ⟨hbug, hpages⟩ := writeback_covers_flight twoBuffers scattered scatteredRun w hw
    exact ⟨w, hw, hbug, fun i => ((hpages true).2 hwb i).1⟩

end CcNvme.PageWriteback

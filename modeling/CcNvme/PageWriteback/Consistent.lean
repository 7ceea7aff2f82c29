/-
CcNvme/PageWriteback/Consistent.lean

What the flags of a page have to do with its buffers in flight.

For one page, `fl i` says in how many bios buffer `i` is, and `en` how many completions have
decided to end the writeback.  `Consistent` relates them to the flags of the page and to the call
that is working on it, and every step of the call and of a completion keeps it.  No other page
and no other part of a bio is involved.
-/
import CcNvme.PageWriteback.Model

namespace CcNvme.PageWriteback

variable {π κ : Type*} {g : Geometry}

/-! ### What a page, its buffers in flight and its ends of writeback have to do with each other -/

/-- How often buffer `i` of page `p` is in a bio. -/
def World.flight [DecidableEq π] (g : Geometry) (w : World π κ) (p : π) (i : ℕ) : ℕ :=
  Table.total (fun x => x.segs.countP (Seg.on g p i)) w.bios

/-- How many completions have decided to end the writeback of page `p`. -/
def World.endings [DecidableEq π] (w : World π κ) (p : π) : ℕ :=
  Table.total (fun x => if x.ending = some p then 1 else 0) w.bios

/-- The call will still submit the buffer, if the flag is set. -/
def Job.Pending (j : Job κ) (i : ℕ) : Prop :=
  match j.phase with
  | .mark => i < j.cur
  | .encrypt => True
  | .submit | .clean => j.cur ≤ i
  | .unlock | .last => False

/-- The variables of a call fit its place. -/
structure Job.Shape (g : Geometry) (j : Job κ) : Prop where
  cur_lt : j.cur < g.nb
  submitted : j.phase = .mark ∨ j.phase = .encrypt ∨ j.phase = .last → j.submitted = 0

/-- A page, `fl i` buffers `i` of it in flight, and `en` ends of its writeback decided. -/
structure Consistent (g : Geometry) (pg : Page κ) (fl : ℕ → ℕ) (en : ℕ) : Prop where
  flight_le : ∀ i, fl i ≤ 1
  flight_async : ∀ i, 0 < fl i → pg.async i = true
  async_lt : ∀ i, pg.async i = true → i < g.nb
  async_writeback : ∀ i, pg.async i = true → pg.writeback = true
  async_flight : ∀ i, pg.async i = true → fl i = 0 → ∃ j, pg.job = some j ∧ j.Pending i
  ending_le : en ≤ 1
  ending : 0 < en → pg.writeback = true ∧ ∀ i, pg.async i = false
  pending : ∀ j, pg.job = some j → ∀ i, j.Pending i → fl i = 0
  fresh : ∀ j, pg.job = some j → j.submitted = 0 →
    pg.writeback = true ∧ en = 0 ∧ ∀ i, fl i = 0
  locked : ∀ j, pg.job = some j → j.phase ≠ .last → pg.locked = true
  shape : ∀ j, pg.job = some j → j.Shape g

section Updates

variable (pg : Page κ) (j : Option (Job κ))

@[simp] theorem Page.async_setJob : (pg.setJob j).async = pg.async := rfl

@[simp] theorem Page.bufs_setJob : (pg.setJob j).bufs = pg.bufs := rfl

@[simp] theorem Page.writeback_setJob : (pg.setJob j).writeback = pg.writeback := rfl

@[simp] theorem Page.job_setJob : (pg.setJob j).job = j := rfl

@[simp] theorem Page.setJob_setJob (j' : Option (Job κ)) :
    (pg.setJob j).setJob j' = pg.setJob j' := rfl

theorem Page.async_setBuf_of_ne {i k : ℕ} (hik : i ≠ k) (f : Buf → Buf) :
    (pg.setBuf k f).async i = pg.async i := by
  simp [Page.async, Page.setBuf, hik]

theorem Page.async_setBuf_self (k : ℕ) (f : Buf → Buf) :
    (pg.setBuf k f).async k = (f (pg.bufs k)).asyncWrite := by
  simp [Page.async, Page.setBuf]

end Updates

section Loops

variable {j : Job κ} {i : ℕ}

theorem Job.next_phase (g : Geometry) (j : Job κ) :
    (j.next g).phase = j.phase ∨ (j.next g).phase = .unlock := by
  unfold Job.next
  split_ifs
  · exact Or.inl rfl
  · exact Or.inr rfl

theorem Job.afterMark_eq (j : Job κ) : j.afterMark = .encrypt ∨ j.afterMark = .submit := by
  unfold Job.afterMark
  split_ifs
  · exact Or.inl rfl
  · exact Or.inr rfl

@[simp] theorem Job.next_submitted (g : Geometry) (j : Job κ) :
    (j.next g).submitted = j.submitted := by
  unfold Job.next
  split_ifs <;> rfl

@[simp] theorem Job.nextMark_submitted (g : Geometry) (j : Job κ) :
    (j.nextMark g).submitted = j.submitted := by
  unfold Job.nextMark
  split_ifs <;> rfl

theorem Job.next_cur_lt (h : j.cur < g.nb) : (j.next g).cur < g.nb := by
  unfold Job.next
  split_ifs with hlt
  · exact hlt
  · exact h

theorem Job.nextMark_cur_lt (g : Geometry) (j : Job κ) : (j.nextMark g).cur < g.nb := by
  unfold Job.nextMark
  split_ifs with hlt
  · exact hlt
  · exact g.nb_pos

/-- A loop leaves the buffer it has just handled behind. -/
theorem Job.Pending.of_next (hphase : j.phase = .submit ∨ j.phase = .clean)
    (h : (j.next g).Pending i) : j.Pending i ∧ i ≠ j.cur := by
  unfold Job.next at h
  split_ifs at h with hlt
  · rcases hphase with hp | hp <;> simp only [Job.Pending, hp] at h ⊢ <;> omega
  · exact h.elim

theorem Job.Pending.next (hphase : j.phase = .submit ∨ j.phase = .clean) (h : j.Pending i)
    (hi : i < g.nb) (hne : i ≠ j.cur) : (j.next g).Pending i := by
  unfold Job.next
  split_ifs with hlt
  · rcases hphase with hp | hp <;> simp only [Job.Pending, hp] at h ⊢ <;> omega
  · rcases hphase with hp | hp <;> simp only [Job.Pending, hp] at h <;> omega

theorem Job.Pending.nextMark (hphase : j.phase = .mark) (hi : i ≤ j.cur) :
    (j.nextMark g).Pending i := by
  unfold Job.nextMark
  split_ifs with hlt
  · simp only [Job.Pending, hphase]
    omega
  · rcases j.afterMark_eq with h | h <;> simp [Job.Pending, h]

theorem Job.nextMark_phase (hphase : j.phase = .mark) :
    (j.nextMark g).phase = .mark ∨ (j.nextMark g).phase = .encrypt ∨
      (j.nextMark g).phase = .submit := by
  unfold Job.nextMark
  split_ifs with hlt
  · exact Or.inl hphase
  · exact Or.inr j.afterMark_eq

end Loops

namespace Consistent

variable {pg : Page κ} {fl : ℕ → ℕ} {en : ℕ} {j : Job κ}

/-- A page that is not under writeback has nothing in flight. -/
theorem idle (h : Consistent g pg fl en) (hwb : pg.writeback = false) :
    (∀ i, pg.async i = false) ∧ en = 0 ∧ ∀ i, fl i = 0 := by
  have hasync : ∀ i, pg.async i = false := by
    intro i
    by_contra hi
    rw [h.async_writeback i (by simpa using hi)] at hwb
    cases hwb
  refine ⟨hasync, ?_, fun i => ?_⟩
  · by_contra hen
    rw [(h.ending (by omega)).1] at hwb
    cases hwb
  · by_contra hi
    have := h.flight_async i (by omega)
    rw [hasync i] at this
    cases this

/-- With a buffer in flight, no end is decided, and some buffer has been submitted. -/
theorem of_flight (h : Consistent g pg fl en) {i : ℕ} (hi : 0 < fl i) :
    pg.writeback = true ∧ en = 0 ∧ ∀ j, pg.job = some j → j.submitted ≠ 0 := by
  have hasync := h.flight_async i hi
  refine ⟨h.async_writeback i hasync, ?_, fun j hj hzero => ?_⟩
  · by_contra hen
    have := (h.ending (by omega)).2 i
    rw [hasync] at this
    cases this
  · have := (h.fresh j hj hzero).2.2 i
    omega

theorem start (h : Consistent g pg fl en) (hwb : pg.writeback = false) (k : κ) (len : ℕ)
    (encrypted syncAll : Bool) :
    Consistent g
      { pg with
        locked := true
        writeback := true
        error := false
        job := some ⟨k, len, encrypted, syncAll, .mark, 0, 0, 0, 0, pg.bufs, []⟩ } fl en := by
  obtain ⟨hasync, hen, hfl⟩ := h.idle hwb
  have hno : ∀ i, pg.async i ≠ true := fun i hi => by
    rw [hasync i] at hi
    cases hi
  refine ⟨h.flight_le, h.flight_async, h.async_lt, fun _ _ => rfl, fun i hi => (hno i hi).elim,
    h.ending_le, fun hpos => ⟨rfl, hasync⟩, ?_, ?_, fun _ _ _ => rfl, ?_⟩
  · intro _ _ i _
    exact hfl i
  · intro _ _ _
    exact ⟨rfl, hen, hfl⟩
  · intro j hj
    obtain rfl := Option.some.inj hj
    exact ⟨g.nb_pos, fun _ => rfl⟩

/-- The call moves on to `j'`; what it will still submit must not shrink on buffers that carry
the flag and are in no bio. -/
theorem move (h : Consistent g pg fl en) (hj : pg.job = some j) {pg' : Page κ} {j' : Job κ}
    (hasync : pg'.async = pg.async) (hwb : pg'.writeback = pg.writeback)
    (hlocked : pg'.locked = pg.locked) (hj' : pg'.job = some j')
    (hphase : j.phase ≠ .last) (hsub : j'.submitted = j.submitted) (hshape : j'.Shape g)
    (hkeep : ∀ i, pg.async i = true → fl i = 0 → j.Pending i → j'.Pending i)
    (hpend : ∀ i, j'.Pending i → fl i = 0) : Consistent g pg' fl en where
  flight_le := h.flight_le
  flight_async i hi := by
    rw [hasync]
    exact h.flight_async i hi
  async_lt i hi := h.async_lt i (by rwa [← hasync])
  async_writeback i hi := by
    rw [hwb]
    exact h.async_writeback i (by rwa [← hasync])
  async_flight i hi hfl := by
    rw [hasync] at hi
    obtain ⟨j₀, hj₀, hp⟩ := h.async_flight i hi hfl
    obtain rfl := Option.some.inj (hj.symm.trans hj₀)
    exact ⟨j', hj', hkeep i hi hfl hp⟩
  ending_le := h.ending_le
  ending hen := by
    rw [hwb, hasync]
    exact h.ending hen
  pending j₁ hj₁ := by
    obtain rfl := Option.some.inj (hj'.symm.trans hj₁)
    exact hpend
  fresh j₁ hj₁ hzero := by
    obtain rfl := Option.some.inj (hj'.symm.trans hj₁)
    rw [hwb]
    exact h.fresh j hj (hsub.symm.trans hzero)
  locked j₁ _ _ := by
    rw [hlocked]
    exact h.locked j hj hphase
  shape j₁ hj₁ := by
    obtain rfl := Option.some.inj (hj'.symm.trans hj₁)
    exact hshape

/-- The flag of a buffer and the call are all that is looked at. -/
theorem congr (h : Consistent g pg fl en) {pg' : Page κ} (hasync : pg'.async = pg.async)
    (hwb : pg'.writeback = pg.writeback) (hlocked : pg'.locked = pg.locked)
    (hjob : pg'.job = pg.job) : Consistent g pg' fl en := by
  obtain ⟨h₁, h₂, h₃, h₄, h₅, h₆, h₇, h₈, h₉, h₁₀, h₁₁⟩ := h
  constructor <;> simpa only [hasync, hwb, hlocked, hjob]

theorem mark (h : Consistent g pg fl en) (hj : pg.job = some j) (hphase : j.phase = .mark)
    (n : ℕ) :
    Consistent g
      ((pg.setBuf j.cur (Buf.mark g j.len j.cur)).setJob
        (some (({ j with toSubmit := n } : Job κ).nextMark g))) fl en := by
  have hshape := h.shape j hj
  have hzero := hshape.submitted (Or.inl hphase)
  obtain ⟨hwb, hen, hfl⟩ := h.fresh j hj hzero
  -- the flag is set on the current buffer at most
  have hasync : ∀ i, (pg.setBuf j.cur (Buf.mark g j.len j.cur)).async i = true →
      i = j.cur ∨ pg.async i = true := by
    intro i hi
    by_cases hcur : i = j.cur
    · exact Or.inl hcur
    · exact Or.inr (by rwa [pg.async_setBuf_of_ne hcur] at hi)
  have hno : ∀ {i}, ¬ 0 < fl i := fun {i} => by
    have := hfl i
    omega
  refine ⟨h.flight_le, fun i hi => (hno hi).elim, fun i hi => ?_, fun i _ => hwb,
    fun i hi _ => ?_, h.ending_le, fun hpos => ?_, fun _ _ i _ => hfl i,
    fun _ _ _ => ⟨hwb, hen, hfl⟩, fun _ _ _ => ?_, fun j' hj' => ?_⟩
  · rcases hasync i hi with rfl | hi
    · exact hshape.cur_lt
    · exact h.async_lt i hi
  · refine ⟨_, rfl, Job.Pending.nextMark hphase ?_⟩
    rcases hasync i hi with rfl | hi
    · exact le_rfl
    · obtain ⟨j₀, hj₀, hp⟩ := h.async_flight i hi (hfl i)
      obtain rfl := Option.some.inj (hj.symm.trans hj₀)
      simp only [Job.Pending, hphase] at hp
      exact hp.le
  · omega
  · exact h.locked j hj (by simp [hphase])
  · obtain rfl := Option.some.inj hj'
    exact ⟨Job.nextMark_cur_lt g _, fun _ => by simpa using hzero⟩

theorem put (h : Consistent g pg fl en) (hj : pg.job = some j) (hphase : j.phase = .submit)
    (hcur : pg.async j.cur = true) {fl' : ℕ → ℕ}
    (hfl : ∀ i, fl' i = fl i + if i = j.cur then 1 else 0) (p : List ℕ) :
    Consistent g
      ((pg.setBuf j.cur fun b => { b with dirty := false }).setJob
        (some { j.next g with submitted := j.submitted + 1, put := p })) fl' en := by
  have hasync : (pg.setBuf j.cur fun b => { b with dirty := false }).async = pg.async := by
    funext i
    by_cases hi : i = j.cur
    · rw [hi, pg.async_setBuf_self]
      rfl
    · exact pg.async_setBuf_of_ne hi _
  have hphase' : j.phase = .submit ∨ j.phase = .clean := Or.inl hphase
  -- the buffer was still to be submitted
  have hzero : fl j.cur = 0 := h.pending j hj j.cur (by simp [Job.Pending, hphase])
  have hother : ∀ i, i ≠ j.cur → fl' i = fl i := fun i hi => by simp [hfl, hi]
  have hcur' : fl' j.cur = 1 := by simp [hfl, hzero]
  refine ⟨fun i => ?_, fun i hi => ?_, fun i hi => ?_, fun i hi => ?_, fun i hi hfl0 => ?_,
    h.ending_le, fun hen => ?_, fun j' hj' i hi => ?_, fun j' hj' hsub => ?_,
    fun _ _ _ => ?_, fun j' hj' => ?_⟩
  · by_cases hi : i = j.cur
    · rw [hi, hcur']
    · rw [hother i hi]
      exact h.flight_le i
  · rw [Page.async_setJob, hasync]
    by_cases hic : i = j.cur
    · rwa [hic]
    · exact h.flight_async i (by rwa [hother i hic] at hi)
  · exact h.async_lt i (hasync ▸ hi)
  · exact h.async_writeback i (hasync ▸ hi)
  · have hic : i ≠ j.cur := fun hic => by
      rw [hic, hcur'] at hfl0
      cases hfl0
    have hi' : pg.async i = true := hasync ▸ hi
    obtain ⟨j₀, hj₀, hp⟩ := h.async_flight i hi' (by rwa [hother i hic] at hfl0)
    obtain rfl := Option.some.inj (hj.symm.trans hj₀)
    exact ⟨_, rfl, (Job.Pending.next hphase' hp (h.async_lt i hi') hic : (j.next g).Pending i)⟩
  · have := (h.ending hen).2 j.cur
    rw [hcur] at this
    cases this
  · obtain rfl := Option.some.inj hj'
    obtain ⟨hp, hic⟩ := Job.Pending.of_next (g := g) hphase' hi
    rw [hother i hic]
    exact h.pending j hj i hp
  · obtain rfl := Option.some.inj hj'
    cases hsub
  · exact h.locked j hj (by simp [hphase])
  · obtain rfl := Option.some.inj hj'
    refine ⟨Job.next_cur_lt (h.shape j hj).cur_lt, fun hp => ?_⟩
    rcases j.next_phase g with he | he <;> simp [he, hphase] at hp

theorem clean (h : Consistent g pg fl en) (hj : pg.job = some j) (hphase : j.phase = .clean) :
    Consistent g
      ((pg.setBuf j.cur fun b => { b with asyncWrite := false }).setJob (some (j.next g)))
      fl en := by
  have hasync : ∀ i, (pg.setBuf j.cur fun b => { b with asyncWrite := false }).async i = true →
      i ≠ j.cur ∧ pg.async i = true := by
    intro i hi
    by_cases hic : i = j.cur
    · rw [hic, pg.async_setBuf_self] at hi
      cases hi
    · exact ⟨hic, by rwa [pg.async_setBuf_of_ne hic] at hi⟩
  have hphase' : j.phase = .submit ∨ j.phase = .clean := Or.inr hphase
  have hzero : fl j.cur = 0 := h.pending j hj j.cur (by simp [Job.Pending, hphase])
  refine ⟨h.flight_le, fun i hi => ?_, fun i hi => h.async_lt i (hasync i hi).2,
    fun i hi => h.async_writeback i (hasync i hi).2, fun i hi hfl => ?_, h.ending_le,
    fun hen => ⟨(h.ending hen).1, fun i => ?_⟩, fun j' hj' i hi => ?_, fun j' hj' hsub => ?_,
    fun _ _ _ => h.locked j hj (by simp [hphase]), fun j' hj' => ?_⟩
  · have hic : i ≠ j.cur := fun hic => by
      rw [hic] at hi
      omega
    rw [Page.async_setJob, pg.async_setBuf_of_ne hic]
    exact h.flight_async i hi
  · obtain ⟨hic, hi⟩ := hasync i hi
    obtain ⟨j₀, hj₀, hp⟩ := h.async_flight i hi hfl
    obtain rfl := Option.some.inj (hj.symm.trans hj₀)
    exact ⟨_, rfl, hp.next hphase' (h.async_lt i hi) hic⟩
  · by_contra hi
    have := (hasync i (eq_true_of_ne_false hi)).2
    rw [(h.ending hen).2 i] at this
    cases this
  · obtain rfl := Option.some.inj hj'
    exact h.pending j hj i (Job.Pending.of_next hphase' hi).1
  · obtain rfl := Option.some.inj hj'
    exact h.fresh j hj (by simpa using hsub)
  · obtain rfl := Option.some.inj hj'
    refine ⟨Job.next_cur_lt (h.shape j hj).cur_lt, fun hp => ?_⟩
    rcases j.next_phase g with he | he <;> simp [he, hphase] at hp

/-- The call unlocks the page, having submitted nothing. -/
theorem unlock (h : Consistent g pg fl en) (hj : pg.job = some j) (hphase : j.phase = .unlock)
    (hzero : j.submitted = 0) :
    Consistent g (({ pg with locked := false } : Page κ).setJob (some { j with phase := .last }))
      fl en := by
  have hfresh := h.fresh j hj hzero
  refine ⟨h.flight_le, h.flight_async, h.async_lt, h.async_writeback, fun i hi hfl => ?_,
    h.ending_le, h.ending, fun j' hj' i hi => ?_, fun _ _ _ => hfresh, fun j' hj' hlast => ?_,
    fun j' hj' => ?_⟩
  · obtain ⟨j₀, hj₀, hp⟩ := h.async_flight i hi hfl
    obtain rfl := Option.some.inj (hj.symm.trans hj₀)
    simp [Job.Pending, hphase] at hp
  · exact hfresh.2.2 i
  · obtain rfl := Option.some.inj hj'
    exact (hlast rfl).elim
  · obtain rfl := Option.some.inj hj'
    exact ⟨(h.shape j hj).cur_lt, fun _ => hzero⟩

/-- The call returns when nothing is left to submit. -/
theorem leave (h : Consistent g pg fl en) (hj : pg.job = some j) (hdone : ∀ i, ¬ j.Pending i)
    (l : Bool) : Consistent g (({ pg with locked := l } : Page κ).setJob none) fl en := by
  refine ⟨h.flight_le, h.flight_async, h.async_lt, h.async_writeback, fun i hi hfl => ?_,
    h.ending_le, h.ending, fun j' hj' => ?_, fun j' hj' => ?_, fun j' hj' => ?_,
    fun j' hj' => ?_⟩
  · obtain ⟨j₀, hj₀, hp⟩ := h.async_flight i hi hfl
    obtain rfl := Option.some.inj (hj.symm.trans hj₀)
    exact (hdone i hp).elim
  all_goals cases hj'

/-- The writeback ends: nothing is in flight and no end is decided. -/
theorem ended (h : Consistent g pg fl en) (hasync : ∀ i, pg.async i = false)
    (hjob : ∀ j, pg.job = some j → j.submitted ≠ 0) :
    Consistent g { pg with writeback := false } fl 0 := by
  have hno : ∀ i, pg.async i ≠ true := fun i hi => by
    rw [hasync i] at hi
    cases hi
  exact ⟨h.flight_le, h.flight_async, fun i hi => (hno i hi).elim, fun i hi => (hno i hi).elim,
    fun i hi => (hno i hi).elim, Nat.zero_le 1, fun hpos => (Nat.lt_irrefl 0 hpos).elim,
    h.pending, fun j hj hzero => (hjob j hj hzero).elim, h.locked, h.shape⟩

/-- `end_page_writeback` at the end of the call. -/
theorem last (h : Consistent g pg fl en) (hj : pg.job = some j) (hphase : j.phase = .last) :
    pg.writeback = true ∧ en = 0 ∧
      Consistent g (({ pg with writeback := false } : Page κ).setJob none) fl en := by
  obtain ⟨hwb, hen, hfl⟩ := h.fresh j hj ((h.shape j hj).submitted (Or.inr (Or.inr hphase)))
  have hdone : ∀ i, ¬ j.Pending i := fun i hp => by simp [Job.Pending, hphase] at hp
  have hasync : ∀ i, pg.async i = false := by
    intro i
    by_contra hi
    obtain ⟨j₀, hj₀, hp⟩ := h.async_flight i (by simpa using hi) (hfl i)
    obtain rfl := Option.some.inj (hj.symm.trans hj₀)
    exact hdone i hp
  subst hen
  exact ⟨hwb, rfl, (h.leave hj hdone pg.locked).ended hasync (by simp)⟩

/-- `end_page_writeback` after the critical section. -/
theorem endPage (h : Consistent g pg fl (en + 1)) :
    pg.writeback = true ∧ Consistent g { pg with writeback := false } fl en := by
  have hle := h.ending_le
  obtain rfl : en = 0 := by omega
  obtain ⟨hwb, hasync⟩ := h.ending Nat.one_pos
  refine ⟨hwb, h.ended hasync fun j hj hzero => ?_⟩
  cases (h.fresh j hj hzero).2.1

/-- The critical section. -/
theorem finish (h : Consistent g pg fl en) {s : Seg π} (hs : s.Aligned g) {fl' : ℕ → ℕ}
    (hfl : ∀ i, fl i = fl' i + if s.covers g i then 1 else 0) (err : Bool) :
    Consistent g { pg.clearSeg g s with error := err } fl'
      (en + if pg.underIo g s = 0 then 1 else 0) := by
  obtain ⟨i₀, hi₀⟩ := hs.covers_some
  obtain ⟨hwb, rfl, hjob⟩ := h.of_flight (i := i₀) (by simp [hfl, hi₀])
  have hasync : ∀ i, (pg.clearSeg g s).async i = true ↔
      s.covers g i = false ∧ pg.async i = true := by
    intro i
    rcases hc : s.covers g i with - | -
    · simp [Page.async, Page.clearSeg, hc]
    · simp [Page.async, Page.clearSeg, hc, hs.covers_lt hc]
  have hle : ∀ i, fl' i ≤ fl i := fun i => by
    rw [hfl i]
    exact Nat.le_add_right _ _
  have hsame : ∀ i, s.covers g i = false → fl' i = fl i := fun i hi => by simp [hfl, hi]
  refine ⟨fun i => (hle i).trans (h.flight_le i), fun i hi => ?_,
    fun i hi => h.async_lt i ((hasync i).mp hi).2, fun _ _ => hwb, fun i hi hfl0 => ?_, ?_,
    fun hen => ⟨hwb, fun i => ?_⟩, fun j hj i hp => ?_,
    fun j hj hzero => (hjob j hj hzero).elim, h.locked, h.shape⟩
  · -- a buffer of the segment was in flight once
    have hc : s.covers g i = false := by
      by_contra hc
      have h1 := h.flight_le i
      have h2 := hfl i
      simp only [eq_true_of_ne_false hc, if_true] at h2
      omega
    exact (hasync i).mpr ⟨hc, h.flight_async i (hi.trans_le (hle i))⟩
  · obtain ⟨hc, hi⟩ := (hasync i).mp hi
    exact h.async_flight i hi ((hsame i hc).symm.trans hfl0)
  · split_ifs <;> omega
  · -- no other buffer of the page carries the flag
    have hunder : pg.underIo g s = 0 := by
      by_contra hne
      simp [hne] at hen
    by_contra hi
    obtain ⟨hc, hi⟩ := (hasync i).mp (eq_true_of_ne_false hi)
    have := List.countP_eq_zero.mp hunder i (List.mem_range.mpr (h.async_lt i hi))
    simp [hc, hi] at this
  · have := h.pending j hj i hp
    exact Nat.le_zero.mp ((hle i).trans this.le)

end Consistent

end CcNvme.PageWriteback

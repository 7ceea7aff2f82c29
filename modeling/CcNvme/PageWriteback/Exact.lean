/-
CcNvme/PageWriteback/Exact.lean

`exact_buffers_submitted`: a call of `ext4_bio_write_page` puts the dirty, mapped and allocated
buffers below `len` into bios, in order and once, and a buffer that it did not put into a bio is
still dirty.  `Exact` says how far the call has come; completions do not disturb it, because they
touch only buffers that the call has left behind.
-/
import CcNvme.PageWriteback.Ends

namespace CcNvme.PageWriteback

variable {π κ : Type*} {g : Geometry}

/-! ### What a call submits -/

/-- The buffer is dirty after the first loop. -/
def Job.kept (g : Geometry) (j : Job κ) (i : ℕ) : Bool :=
  decide (i * g.bs < j.len) && (j.entry i).mapped && (j.entry i).dirty

/-- The call has dealt with the first `n` buffers in the second loop. -/
structure Exact (g : Geometry) (pg : Page κ) (j : Job κ) (n : ℕ) : Prop where
  clear : ∀ i, (j.entry i).asyncWrite = false
  n_le : n ≤ g.nb
  put : j.put = (List.range n).filter (eligible g j.len j.entry)
  early : j.phase = .mark ∨ j.phase = .encrypt → n = 0
  submit : j.phase = .submit → n = j.cur
  ret : j.phase = .mark ∨ j.phase = .encrypt ∨ j.phase = .submit → j.ret = 0
  all : j.phase = .unlock → j.ret = 0 → n = g.nb
  failed : j.ret ≠ 0 → pg.dirty = true
  clean : j.phase = .clean → j.ret ≠ 0
  untouched : j.phase = .mark → ∀ i, j.cur ≤ i → pg.bufs i = j.entry i
  dirty : ∀ i < g.nb, (j.phase = .mark → i < j.cur) →
    (pg.bufs i).dirty = (j.kept g i && !decide (i ∈ j.put))
  flag : ∀ i < g.nb, j.Pending i → j.phase ≠ .clean → pg.async i = eligible g j.len j.entry i

section Exact

theorem Buf.mark_asyncWrite (g : Geometry) (len i : ℕ) (bufs : ℕ → Buf)
    (h : (bufs i).asyncWrite = false) :
    ((bufs i).mark g len i).asyncWrite = eligible g len bufs i := by
  unfold Buf.mark eligible
  by_cases hlen : len ≤ i * g.bs
  · simp [hlen, h]
  · rcases hs : (bufs i).skipped with - | -
    · simp [Nat.lt_of_not_le hlen, hlen]
    · rcases (bufs i).mapped <;> simp [hlen, h]

theorem Buf.mark_dirty (g : Geometry) (len i : ℕ) (b : Buf) :
    (b.mark g len i).dirty = (decide (i * g.bs < len) && b.mapped && b.dirty) := by
  unfold Buf.mark
  by_cases hlen : len ≤ i * g.bs
  · simp [hlen]
  · have hlt := Nat.lt_of_not_le hlen
    rcases hm : b.mapped with - | - <;> rcases hd : b.dirty with - | - <;>
      simp [hlen, hlt, Buf.skipped, hm, hd]
    split_ifs
    · exact hd
    · rfl

variable {pg : Page κ} {j : Job κ} {n : ℕ}

theorem Job.nextMark_cases (g : Geometry) (j : Job κ) :
    (j.cur + 1 < g.nb ∧ j.nextMark g = { j with cur := j.cur + 1 }) ∨
      (g.nb ≤ j.cur + 1 ∧ ∃ ph, (ph = .encrypt ∨ ph = .submit) ∧
        j.nextMark g = { j with phase := ph, cur := 0 }) := by
  unfold Job.nextMark
  split_ifs with hlt
  · exact Or.inl ⟨hlt, rfl⟩
  · exact Or.inr ⟨Nat.le_of_not_lt hlt, j.afterMark, j.afterMark_eq, rfl⟩

theorem Job.next_cases (g : Geometry) (j : Job κ) :
    (j.cur + 1 < g.nb ∧ j.next g = { j with cur := j.cur + 1 }) ∨
      (g.nb ≤ j.cur + 1 ∧ j.next g = { j with phase := .unlock }) := by
  unfold Job.next
  split_ifs with hlt
  · exact Or.inl ⟨hlt, rfl⟩
  · exact Or.inr ⟨Nat.le_of_not_lt hlt, rfl⟩

namespace Exact

theorem congr (h : Exact g pg j n) {pg' : Page κ} (hbufs : pg'.bufs = pg.bufs)
    (hdirty : pg'.dirty = pg.dirty) : Exact g pg' j n := by
  obtain ⟨h₁, h₂, h₃, h₄, h₅, h₆, h₇, h₈, h₉, h₁₀, h₁₁, h₁₂⟩ := h
  constructor <;> simpa only [Page.async, hbufs, hdirty]

theorem start (hasync : ∀ i, pg.async i = false) (hj : j.phase = .mark) (hcur : j.cur = 0)
    (hret : j.ret = 0) (hentry : j.entry = pg.bufs) (hput : j.put = []) : Exact g pg j 0 where
  clear i := by
    rw [hentry]
    exact hasync i
  n_le := Nat.zero_le _
  put := hput
  early _ := rfl
  submit hp := by rw [hcur]
  ret _ := hret
  all hp := by simp [hj] at hp
  failed hne := (hne hret).elim
  clean hp := by simp [hj] at hp
  untouched _ i _ := by rw [hentry]
  dirty i _ hlt := by
    have := hlt hj
    omega
  flag i _ hp := by
    simp only [Job.Pending, hj, hcur] at hp
    omega

theorem mark (h : Exact g pg j n) (hphase : j.phase = .mark) (m : ℕ) :
    Exact g ((pg.setBuf j.cur (Buf.mark g j.len j.cur)).setJob
      (some (({ j with toSubmit := m } : Job κ).nextMark g)))
      (({ j with toSubmit := m } : Job κ).nextMark g) 0 := by
  obtain rfl := h.early (Or.inl hphase)
  have hput : j.put = [] := h.put
  have hret := h.ret (Or.inl hphase)
  have hcur := h.untouched hphase j.cur le_rfl
  have hdirty : ∀ i, i < g.nb → i ≤ j.cur →
      ((pg.setBuf j.cur (Buf.mark g j.len j.cur)).bufs i).dirty = j.kept g i := by
    intro i hi hle
    rcases hle.lt_or_eq with hlt | rfl
    · have := h.dirty i hi fun _ => hlt
      rw [hput] at this
      simpa [Page.setBuf, hlt.ne] using this
    · simp [Page.setBuf, hcur, Buf.mark_dirty, Job.kept]
  have hflag : ∀ i, i < g.nb → i ≤ j.cur →
      (pg.setBuf j.cur (Buf.mark g j.len j.cur)).async i = eligible g j.len j.entry i := by
    intro i hi hle
    rcases hle.lt_or_eq with hlt | rfl
    · rw [pg.async_setBuf_of_ne hlt.ne]
      exact h.flag i hi (by simpa [Job.Pending, hphase]) (by simp [hphase])
    · rw [pg.async_setBuf_self, hcur]
      exact Buf.mark_asyncWrite g j.len j.cur j.entry (h.clear j.cur)
  rcases Job.nextMark_cases g ({ j with toSubmit := m } : Job κ) with
    ⟨hlt, hnext⟩ | ⟨hge, ph, hph, hnext⟩
  · rw [hnext]
    refine ⟨h.clear, Nat.zero_le _, hput, fun _ => rfl, fun hp => ?_, fun _ => hret,
      fun hp => ?_, fun hne => (hne hret).elim, fun hp => ?_, fun _ i hi => ?_,
      fun i hi hlt' => ?_, fun i hi hp _ => ?_⟩
    · simp [hphase] at hp
    · simp [hphase] at hp
    · simp [hphase] at hp
    · have hle : j.cur + 1 ≤ i := hi
      have hne : i ≠ j.cur := by omega
      simpa [Page.setJob, Page.setBuf, hne] using h.untouched hphase i (by omega)
    · have hle : i < j.cur + 1 := hlt' hphase
      simpa [hput, Job.kept] using hdirty i hi (by omega)
    · simp only [Job.Pending, hphase] at hp
      exact hflag i hi (by omega)
  · have hge' : g.nb ≤ j.cur + 1 := hge
    rw [hnext]
    refine ⟨h.clear, Nat.zero_le _, hput, fun _ => rfl, fun _ => rfl, fun _ => hret,
      fun hp => ?_, fun hne => (hne hret).elim, fun hp => ?_, fun hp => ?_,
      fun i hi _ => ?_, fun i hi _ _ => hflag i hi (by omega)⟩
    · have hp' : ph = .unlock := hp
      rcases hph with rfl | rfl <;> cases hp'
    · have hp' : ph = .clean := hp
      rcases hph with rfl | rfl <;> cases hp'
    · have hp' : ph = .mark := hp
      rcases hph with rfl | rfl <;> cases hp'
    · simpa [hput, Job.kept] using hdirty i hi (by omega)

/-- The second loop moves on from a buffer, having put it into a bio if it is to be written. -/
theorem next (h : Exact g pg j n) (hphase : j.phase = .submit) (hlt : j.cur < g.nb)
    {pg' : Page κ} {j' : Job κ} {m : ℕ} {put : List ℕ}
    (hput : put = (List.range (j.cur + 1)).filter (eligible g j.len j.entry))
    (hnext : j' = { j.next g with submitted := m, put := put })
    (hdirty : ∀ i < g.nb, (pg'.bufs i).dirty = (j.kept g i && !decide (i ∈ put)))
    (hflag : ∀ i, pg'.async i = pg.async i) : Exact g pg' j' (j.cur + 1) := by
  have hret := h.ret (Or.inr (Or.inr hphase))
  rcases j.next_cases g with ⟨hlt', he⟩ | ⟨hge, he⟩
  · rw [he] at hnext
    rw [hnext]
    refine ⟨h.clear, hlt'.le, hput, fun hp => ?_, fun _ => rfl, fun _ => hret, fun hp => ?_,
      fun hne => (hne hret).elim, fun hp => ?_, fun hp => ?_, fun i hi _ => hdirty i hi,
      fun i hi hp _ => ?_⟩
    · simp [hphase] at hp
    · simp [hphase] at hp
    · simp [hphase] at hp
    · simp [hphase] at hp
    · rw [hflag]
      refine h.flag i hi ?_ (by simp [hphase])
      simp only [Job.Pending, hphase] at hp ⊢
      omega
  · rw [he] at hnext
    rw [hnext]
    refine ⟨h.clear, hlt, hput, fun hp => ?_, fun hp => ?_, fun hp => ?_, fun _ _ => ?_,
      fun hne => (hne hret).elim, fun hp => ?_, fun hp => ?_, fun i hi _ => hdirty i hi,
      fun i hi hp _ => hp.elim⟩
    · simp at hp
    · simp at hp
    · simp at hp
    · omega
    · simp at hp
    · simp at hp

theorem filter_range_succ {q : ℕ → Bool} (m : ℕ) :
    (List.range (m + 1)).filter q = (List.range m).filter q ++ if q m then [m] else [] := by
  rw [List.range_succ, List.filter_append, List.filter_singleton, Bool.cond_eq_ite]

/-- The page is encrypted. -/
theorem encrypted (h : Exact g pg j n) (hphase : j.phase = .encrypt) :
    Exact g (pg.setJob (some { j with phase := .submit, cur := 0 }))
      { j with phase := .submit, cur := 0 } n := by
  have hzero := h.early (Or.inr hphase)
  refine ⟨h.clear, h.n_le, h.put, fun _ => hzero, fun _ => hzero,
    fun _ => h.ret (Or.inr (Or.inl hphase)), fun hp => ?_, h.failed, fun hp => ?_, fun hp => ?_,
    fun i hi _ => h.dirty i hi (by simp [hphase]), fun i hi _ _ => ?_⟩
  · cases hp
  · cases hp
  · cases hp
  · exact h.flag i hi (by simp [Job.Pending, hphase]) (by simp [hphase])

/-- The call gives up. -/
theorem fail (h : Exact g pg j n) (hphase : j.phase ≠ .mark) {cur : ℕ} {ret : ℤ} (hret : ret ≠ 0) :
    Exact g (({ pg with dirty := true } : Page κ).setJob
      (some { j with phase := .clean, cur := cur, ret := ret }))
      { j with phase := .clean, cur := cur, ret := ret } n := by
  refine ⟨h.clear, h.n_le, h.put, fun hp => ?_, fun hp => ?_, fun hp => ?_, fun hp => ?_,
    fun _ => rfl, fun _ => hret, fun hp => ?_, fun i hi _ => ?_, fun i hi _ hne => (hne rfl).elim⟩
  · simp at hp
  · cases hp
  · simp at hp
  · cases hp
  · cases hp
  · exact h.dirty i hi fun hp => absurd hp hphase

/-- The loop after `out` moves on. -/
theorem cleaned (h : Exact g pg j n) (hphase : j.phase = .clean) :
    Exact g ((pg.setBuf j.cur fun b => { b with asyncWrite := false }).setJob (some (j.next g)))
      (j.next g) n := by
  have hret := h.clean hphase
  have hdirty : ∀ i, i < g.nb →
      ((pg.setBuf j.cur fun b => { b with asyncWrite := false }).bufs i).dirty =
        (j.kept g i && !decide (i ∈ j.put)) := by
    intro i hi
    rw [← h.dirty i hi (by simp [hphase])]
    by_cases hic : i = j.cur
    · subst hic
      simp [Page.setBuf]
    · simp [Page.setBuf, hic]
  rcases j.next_cases g with ⟨-, he⟩ | ⟨-, he⟩ <;> rw [he]
  · refine ⟨h.clear, h.n_le, h.put, fun hp => ?_, fun hp => ?_, fun hp => ?_, fun hp => ?_,
      h.failed, fun _ => hret, fun hp => ?_, fun i hi _ => hdirty i hi,
      fun i hi _ hne => (hne hphase).elim⟩ <;> simp [hphase] at hp
  · refine ⟨h.clear, h.n_le, h.put, fun hp => ?_, fun hp => ?_, fun hp => ?_,
      fun _ hzero => (hret hzero).elim, h.failed, fun hp => ?_, fun hp => ?_,
      fun i hi _ => hdirty i hi, fun i hi hp _ => hp.elim⟩ <;> simp at hp

theorem move (h : Exact g pg j n) (hlt : j.cur < g.nb) {pg' : Page κ} (hmove : Move g pg j pg')
    {j' : Job κ} (hj : pg.job = some j) (hj' : pg'.job = some j') (hlast : j'.phase ≠ .last) :
    ∃ n, Exact g pg' j' n := by
  -- in the second loop the flag tells what is to be written
  have hcur : j.phase = .submit → pg.async j.cur = eligible g j.len j.entry j.cur := by
    intro hphase
    exact h.flag j.cur hlt (by simp [Job.Pending, hphase]) (by simp [hphase])
  have hput : j.phase = .submit →
      j.put = (List.range j.cur).filter (eligible g j.len j.entry) := by
    intro hphase
    rw [h.put, h.submit hphase]
  cases hmove with
  | stay =>
      obtain rfl := Option.some.inj (hj.symm.trans hj')
      exact ⟨n, h⟩
  | mark m hphase =>
      obtain rfl := Option.some.inj hj'
      exact ⟨0, h.mark hphase m⟩
  | encrypted hphase =>
      obtain rfl := Option.some.inj hj'
      exact ⟨n, h.encrypted hphase⟩
  | fail hret hphase =>
      obtain rfl := Option.some.inj hj'
      refine ⟨n, h.fail (fun hp => ?_) hret⟩
      rcases hphase with ⟨he, -⟩ | ⟨he, -⟩ <;> rw [he] at hp <;> cases hp
  | skip hphase hasync =>
      obtain rfl := Option.some.inj hj'
      have hno : eligible g j.len j.entry j.cur = false := (hcur hphase).symm.trans hasync
      have hsame := filter_range_succ (q := eligible g j.len j.entry) j.cur
      rw [hno, if_neg Bool.false_ne_true, List.append_nil, ← hput hphase] at hsame
      refine ⟨j.cur + 1, h.next hphase hlt (m := j.submitted) hsame.symm ?_ ?_ fun _ => rfl⟩
      · rcases j.next_cases g with ⟨-, he⟩ | ⟨-, he⟩ <;> rw [he]
      · intro i hi
        exact h.dirty i hi (by simp [hphase])
  | put hphase hasync =>
      obtain rfl := Option.some.inj hj'
      have hyes : eligible g j.len j.entry j.cur = true := (hcur hphase).symm.trans hasync
      have hmore := filter_range_succ (q := eligible g j.len j.entry) j.cur
      rw [hyes, if_pos rfl, ← hput hphase] at hmore
      refine ⟨j.cur + 1, h.next hphase hlt hmore.symm rfl ?_ ?_⟩
      · intro i hi
        by_cases hic : i = j.cur
        · subst hic
          simp [Page.setJob, Page.setBuf]
        · simpa [Page.setJob, Page.setBuf, hic] using h.dirty i hi (by simp [hphase])
      · intro i
        rw [Page.async_setJob]
        by_cases hic : i = j.cur
        · rw [hic, pg.async_setBuf_self]
          rfl
        · exact pg.async_setBuf_of_ne hic _
  | clean hphase =>
      obtain rfl := Option.some.inj hj'
      exact ⟨n, h.cleaned hphase⟩
  | unlock _ _ =>
      obtain rfl := Option.some.inj hj'
      exact (hlast rfl).elim
  | leave _ _ => cases hj'
  | last _ => cases hj'

/-- A completion touches no buffer that the call will still submit. -/
theorem finish (h : Exact g pg j n) {fl : ℕ → ℕ} {en : ℕ} (hc : Consistent g pg fl en)
    (hj : pg.job = some j) {s : Seg π} {i₀ : ℕ} (hi₀ : 0 < fl i₀)
    (hcovers : ∀ i, s.covers g i = true → 0 < fl i) (err : Bool) :
    Exact g { pg.clearSeg g s with error := err } j n where
  clear := h.clear
  n_le := h.n_le
  put := h.put
  early := h.early
  submit := h.submit
  ret := h.ret
  all := h.all
  failed := h.failed
  clean := h.clean
  untouched hphase := by
    have hsub := (hc.of_flight hi₀).2.2 j hj
    exact (hsub ((hc.shape j hj).submitted (Or.inl hphase))).elim
  dirty i hi hlt := by
    rw [← h.dirty i hi hlt]
    show (if i < g.nb ∧ s.covers g i = true then { pg.bufs i with asyncWrite := false }
      else pg.bufs i).dirty = _
    split_ifs <;> rfl
  flag i hi hp hne := by
    rw [← h.flag i hi hp hne]
    have hno : s.covers g i ≠ true := fun hcov => by
      have := hcovers i hcov
      rw [hc.pending j hj i hp] at this
      omega
    simp [Page.async, Page.clearSeg, hno]

end Exact

end Exact

section Steps

variable [DecidableEq π] [DecidableEq κ] {w w' : World π κ}

/-- Every call before its `unlock_page` submits what it has to. -/
def AllExact (g : Geometry) (w : World π κ) : Prop :=
  ∀ p j, (w.pages p).job = some j → j.phase ≠ .last → ∃ n, Exact g (w.pages p) j n

omit [DecidableEq κ] in
/-- A step on the page `p` that leaves the other pages alone. -/
theorem AllExact.onPage (h : AllExact g w) {p : π} (hother : ∀ q, q ≠ p → w'.pages q = w.pages q)
    (hp : ∀ j, (w'.pages p).job = some j → j.phase ≠ .last → ∃ n, Exact g (w'.pages p) j n) :
    AllExact g w' := by
  intro q j hj
  by_cases hqp : q = p
  · rw [hqp] at hj ⊢
    exact hp j hj
  · rw [hother q hqp] at hj ⊢
    exact h q j hj

theorem step_exact (hinv : Inv g w) (h : AllExact g w) {a : Act π κ}
    (hw : step g w a = some w') : AllExact g w' := by
  cases a with
  | start k p len encrypted syncAll =>
      simp only [step] at hw
      split_ifs at hw with hfree
      obtain rfl := Option.some.inj hw
      simp only [Bool.or_eq_true, not_or, Bool.not_eq_true] at hfree
      obtain ⟨hasync, -, -⟩ := (hinv.page p).idle hfree.1.2
      refine h.onPage (p := p) (fun q hqp => ?_) fun j hj _ => ⟨0, ?_⟩
      · simp [start, World.setPass, World.setPage, hqp]
      · simp only [start, World.setPass, World.setPage, Function.update_self] at hj ⊢
        obtain rfl := Option.some.inj hj
        exact Exact.start hasync rfl rfl rfl rfl rfl
  | job p a =>
      obtain ⟨j, hj, hw⟩ := Option.bind_eq_some_iff.mp hw
      have hmoved := jobStep_moved hj hw
      refine h.onPage hmoved.other fun j' hj' hlast => ?_
      by_cases hphase : j.phase = .last
      · -- the call returns
        obtain ⟨rfl⟩ : w' = leave (w.endPageWriteback p) p j := by
          simpa [jobStep, hphase, eq_comm] using hw
        simp [leave, World.setPass, World.setPage] at hj'
      · obtain ⟨n, hn⟩ := h p j hj hphase
        exact hn.move ((hinv.page p).shape j hj).cur_lt hmoved.move hj hj' hlast
  | submit k =>
      simp only [step] at hw
      split_ifs at hw
      obtain rfl := Option.some.inj hw
      intro p j
      rw [pages_send]
      exact h p j
  | complete b err =>
      obtain ⟨x, hx, hw⟩ := Option.bind_eq_some_iff.mp hw
      split_ifs at hw
      obtain rfl := Option.some.inj hw
      exact h
  | finish b =>
      obtain ⟨x, hx, hw⟩ := Option.bind_eq_some_iff.mp hw
      rcases hstatus : x.status with - | err <;> rcases hending : x.ending with - | p <;>
        rcases hsegs : x.segs with - | ⟨s, rest⟩ <;>
        simp only [hstatus, hending, hsegs] at hw <;> try cases hw
      have hmem := List.mem_of_getElem? hx
      have hs := hinv.aligned x hmem s (by rw [hsegs]; exact List.mem_cons_self)
      -- the buffers of the segment are in flight
      have hcovers : ∀ i, s.covers g i = true → 0 < w.flight g s.page i := by
        intro i hi
        refine lt_of_lt_of_le ?_
          (Table.le_total (fun y : Bio π => y.segs.countP (Seg.on g s.page i)) hmem)
        exact List.countP_pos_iff.mpr ⟨s, by rw [hsegs]; exact List.mem_cons_self,
          by simp [Seg.on, hi]⟩
      obtain ⟨i₀, hi₀⟩ := hs.covers_some
      refine h.onPage (p := s.page) (fun q hqp => pages_setPage_of_ne w hqp _) ?_
      have hpage : (finishSeg g w b x err s rest).pages s.page =
          { (w.pages s.page).clearSeg g s with error := (w.pages s.page).error || err } :=
        pages_setPage_self w _ _
      rw [hpage]
      intro j hj hlast
      obtain ⟨n, hn⟩ := h s.page j hj hlast
      exact ⟨n, hn.finish (hinv.page s.page) hj (hcovers i₀ hi₀) hcovers _⟩
  | endPage b =>
      obtain ⟨x, hx, hw⟩ := Option.bind_eq_some_iff.mp hw
      obtain ⟨p, hp, rfl⟩ := Option.map_eq_some_iff.mp hw
      refine h.onPage (p := p) (fun q hqp => pages_setPage_of_ne w hqp _) ?_
      show ∀ j, ((w.endPageWriteback p).pages p).job = some j → _ →
        ∃ n, Exact g ((w.endPageWriteback p).pages p) j n
      rw [show (w.endPageWriteback p).pages p = { w.pages p with writeback := false } from
        pages_setPage_self w p _]
      intro j hj hlast
      obtain ⟨n, hn⟩ := h p j hj hlast
      exact ⟨n, hn.congr rfl rfl⟩
  | touch p bufs =>
      simp only [step] at hw
      split_ifs at hw with hlocked
      obtain rfl := Option.some.inj hw
      refine h.onPage (p := p) (fun q hqp => pages_setPage_of_ne w hqp _) fun j hj hlast => ?_
      rw [pages_setPage_self] at hj
      exact (hlocked ((hinv.page p).locked j hj hlast)).elim

/-- **A call submits what is to be written, once.**  When `ext4_bio_write_page` unlocks the
page, it has put into bios, in their order, the dirty, mapped and allocated buffers below `len`
among the first `n`, where `n` is all of them unless it failed; a buffer is still dirty exactly
if it was, lies below `len`, is mapped and was not put into a bio; and if the call failed the
page is dirty again. -/
theorem exact_buffers_submitted (g : Geometry) (bufs : π → ℕ → Buf) (as : List (Act π κ))
    (w : World π κ) (hrun : Run.run (step g) (init bufs) as = some w) (p : π) (j : Job κ)
    (hj : (w.pages p).job = some j) (hphase : j.phase = .unlock) :
    (∃ n ≤ g.nb, j.put = (List.range n).filter (eligible g j.len j.entry) ∧
      (j.ret = 0 → n = g.nb)) ∧
    (∀ i < g.nb, ((w.pages p).bufs i).dirty =
      (decide (i * g.bs < j.len) && (j.entry i).mapped && (j.entry i).dirty &&
        !decide (i ∈ j.put))) ∧
    (j.ret ≠ 0 → (w.pages p).dirty = true) := by
  have h : Inv g w ∧ AllExact g w :=
    Run.run_keeps (I := fun w => Inv g w ∧ AllExact g w)
      (fun _ _ _ h hs => ⟨step_inv h.1 hs, step_exact h.1 h.2 hs⟩)
      ⟨Inv.init bufs, fun p j hj => by cases hj⟩ hrun
  obtain ⟨n, hn⟩ := h.2 p j hj (by simp [hphase])
  exact ⟨⟨n, hn.n_le, hn.put, hn.all hphase⟩, fun i hi => hn.dirty i hi (by simp [hphase]),
    hn.failed⟩

/-- The second of two scattered buffers cannot be submitted: it stays dirty, and so does the
page. -/
theorem exact_buffers_submitted_scattered :
    ∃ w, Run.run (step twoBuffers) (init scattered)
        ([.start () true 1024 false false, .job true .ok, .job true .ok, .job true .ok,
          .job true .ok, .job true .ok, .job true (.fail (-12)), .job true .ok] :
          List (Act Bool Unit)) = some w ∧
      ((w.pages true).bufs 1).dirty = true ∧ (w.pages true).dirty = true := by
  obtain ⟨w, hw, j, hj, hphase, hput, hkept, hret⟩ :
      ∃ w, Run.run (step twoBuffers) (init scattered)
        ([.start () true 1024 false false, .job true .ok, .job true .ok, .job true .ok,
          .job true .ok, .job true .ok, .job true (.fail (-12)), .job true .ok] :
          List (Act Bool Unit)) = some w ∧
      ∃ j, (w.pages true).job = some j ∧ j.phase = .unlock ∧ j.put = [0] ∧
        j.kept twoBuffers 1 = true ∧ j.ret ≠ 0 := by
    decide +kernel
  obtain ⟨-, hdirty, hpage⟩ := exact_buffers_submitted twoBuffers scattered _ w hw true j hj hphase
  refine ⟨w, hw, ?_, hpage hret⟩
  rw [hdirty 1 (by decide), hput]
  exact (Bool.and_true _).trans hkept

end Steps

end CcNvme.PageWriteback

/-
CcNvme/IoEnds/Life.lean

The life of every `io_end`, over any interleaving of writeback passes, completions and the
conversion work.

* `conversion_before_finish`: no `BUG_ON` is hit, no reference is dropped twice, no `io_end` is
  used after it was freed, and the list of linked bios is complete when it is walked; a bio that
  was submitted for an unwritten extent is finished only after the conversion has returned,
  with an error or without.  The condition is that an unwritten extent is not empty when its last
  reference is dropped with `ext4_put_io_end_defer`, which would otherwise release it without a
  conversion.
* `io_ends_all_released`: when everything has come to rest, every `io_end` is freed, every bio is
  finished and `i_unwritten` is zero.  In particular the work, which is queued only when the
  list was empty, misses none.
-/
import CcNvme.IoEnds.Core

namespace CcNvme.IoEnds

/-- What holds whatever `e` is doing. -/
structure InvBut (w : World) (e : ℕ) : Prop where
  bug : w.bug = false
  ends : ∀ (e' : ℕ) (y : IoEnd), e' ≠ e → w.ends[e']? = some y →
    EndOk w.bios (w.listed e') e' y
  unlisted : ∀ e', w.ends.length ≤ e' → w.listed e' = 0
  owner : ∀ (b : ℕ) (x : EndBio), w.bios[b]? = some x → x.ioEnd < w.ends.length
  nr : w.nrUnwritten = Table.total (fun y => if y.unwritten then 1 else 0) w.ends
  wake : w.convList ≠ [] → w.queued = true ∨ w.worker = .started

structure Inv (w : World) : Prop where
  but : ∀ e, InvBut w e
  ends : ∀ (e : ℕ) (y : IoEnd), w.ends[e]? = some y → EndOk w.bios (w.listed e) e y

variable {w : World} {e b : ℕ} {x x' : EndBio} {y y₁ : IoEnd}

theorem InvBut.inv (h : InvBut w e)
    (he : ∀ y, w.ends[e]? = some y → EndOk w.bios (w.listed e) e y) : Inv w := by
  have hends : ∀ (e' : ℕ) (y : IoEnd), w.ends[e']? = some y →
      EndOk w.bios (w.listed e') e' y := by
    intro e' y hy
    by_cases hee : e' = e
    · subst hee
      exact he y hy
    · exact h.ends e' y hee hy
  exact ⟨fun e' => ⟨h.bug, fun e'' y _ => hends e'' y, h.unlisted, h.owner, h.nr, h.wake⟩, hends⟩

/-- A bio of `e` moves on. -/
theorem InvBut.setBio (h : InvBut w e) (hx : w.bios[b]? = some x) (he : x.ioEnd = e)
    (x' : EndBio) (he' : x'.ioEnd = e) : InvBut (w.setBio b x') e where
  bug := h.bug
  ends e' y hee hy := by
    have hok := h.ends e' y hee hy
    exact ⟨hok.toEndCore.frame_set hx (by rw [he]; exact Ne.symm hee)
      (by rw [he']; exact Ne.symm hee), hok.queued, hok.unwritten⟩
  unlisted := h.unlisted
  owner c z hz := by
    rcases Table.get_set_cases hz with ⟨-, rfl⟩ | ⟨-, hz⟩
    · have := h.owner b x hx
      rw [he', ← he]
      exact this
    · exact h.owner c z hz
  nr := h.nr
  wake := h.wake

/-- The record of `e` changes. -/
theorem InvBut.setEnd (h : InvBut w e) (hy : w.ends[e]? = some y) (y₁ : IoEnd)
    (hunw : y₁.unwritten = y.unwritten) : InvBut (w.setEnd e y₁) e where
  bug := h.bug
  ends e' z hee hz := by
    rcases Table.get_set_cases hz with ⟨he, -⟩ | ⟨-, hz⟩
    · exact (hee he).elim
    · exact h.ends e' z hee hz
  unlisted e' he' := h.unlisted e' (by simpa [World.setEnd] using he')
  owner c z hz := by
    have := h.owner c z hz
    simpa [World.setEnd] using this
  nr := by
    rw [show (w.setEnd e y₁).nrUnwritten = w.nrUnwritten from rfl, h.nr]
    exact (Table.total_set_eq hy (by rw [hunw])).symm
  wake := h.wake

/-- After the record of `e` was set. -/
theorem InvBut.inv_setEnd (h : InvBut w e) (hy : w.ends[e]? = some y)
    (hunw : y₁.unwritten = y.unwritten) (hok : EndOk w.bios (w.listed e) e y₁) :
    Inv (w.setEnd e y₁) := by
  refine (h.setEnd hy y₁ hunw).inv fun z hz => ?_
  obtain rfl := Option.some.inj ((Table.get_set_self hy y₁).symm.trans hz)
  exact hok

/-- A bio of `e` moves on, and the record of `e` does not change. -/
theorem Inv.moveBio (h : Inv w) (hx : w.bios[b]? = some x) (hy : w.ends[x.ioEnd]? = some y)
    {x' : EndBio} (he' : x'.ioEnd = x.ioEnd) (hcore : EndCore (w.bios.set b x') x.ioEnd y) :
    Inv (w.setBio b x') := by
  have hok := h.ends _ y hy
  refine ((h.but x.ioEnd).setBio hx rfl x' he').inv fun z hz => ?_
  obtain rfl := Option.some.inj (hy.symm.trans hz)
  exact ⟨hcore, hok.queued, hok.unwritten⟩

/-! ### Releasing -/

/-- The bios of other `io_end`s do not notice. -/
theorem EndCore.frame_finishAll {bios : List EndBio} {e' : ℕ} {l : List ℕ}
    (h : EndCore bios e' y) (hee : e' ≠ e)
    (hl : ∀ b ∈ l, ∃ x, bios[b]? = some x ∧ x.ioEnd = e ∧ x.place = .waiting) :
    EndCore (finishAll l bios) e' y := by
  refine h.frame (Table.total_mapIdx_eq fun b x hx => ?_) fun b x he => ?_
  · split_ifs with hb
    · obtain ⟨z, hz, hze, -⟩ := hl b hb
      obtain rfl := Option.some.inj (hx.symm.trans hz)
      simp [EndBio.refTo, hze, Ne.symm hee]
    · rfl
  · rw [finishAll, List.getElem?_mapIdx, Option.map_eq_some_iff]
    constructor
    · rintro ⟨z, hz, rfl⟩
      split_ifs at he ⊢ with hb
      · obtain ⟨z', hz', hze, -⟩ := hl b hb
        obtain rfl := Option.some.inj (hz.symm.trans hz')
        exact (hee (he.symm.trans hze)).elim
      · exact hz
    · intro hx
      refine ⟨x, hx, if_neg fun hb => ?_⟩
      obtain ⟨z, hz, hze, -⟩ := hl b hb
      obtain rfl := Option.some.inj (hx.symm.trans hz)
      exact hee (he.symm.trans hze)

/-- **The last reference is gone and the extent needs no conversion, or has had it**: the
`io_end` is released.  `n` is `i_unwritten` after the conversion. -/
theorem InvBut.release (h : InvBut w e) (hy : w.ends[e]? = some y) (hlisted : w.listed e = 0)
    (hcore : EndCore w.bios e y₁) (hunw : y₁.unwritten = y.unwritten)
    (hfreed : y₁.freed = false) (hzero : y₁.count = 0) {r : Option ℤ}
    (hr : y₁.unwritten = true ∨ y₁.result ≠ none → r ≠ none) {n : ℕ}
    (hnr : n = w.nrUnwritten - if y₁.unwritten then 1 else 0) :
    Inv (IoEnds.release { w with nrUnwritten := n } e
      { y₁ with unwritten := false, result := r }) := by
  obtain ⟨l, hwalk, hwaiting, hdone⟩ := hcore.release hfreed hzero hr
  have hnot : ¬ ((decide (World.listed { w with nrUnwritten := n } e ≠ 0) || false) = true) := by
    simpa [World.listed] using hlisted
  unfold IoEnds.release
  rw [if_neg hnot, hwalk]
  have hlen : ∀ z : IoEnd, (w.ends.set e z).length = w.ends.length := fun z => List.length_set
  have hbut : InvBut
      { w with
        nrUnwritten := n
        ends := w.ends.set e { y₁ with unwritten := false, result := r, freed := true }
        bios := finishAll l w.bios } e := by
    refine ⟨h.bug, fun e' z hee hz => ?_, fun e' he' => ?_, fun b x hx => ?_, ?_, h.wake⟩
    · rcases Table.get_set_cases hz with ⟨he, -⟩ | ⟨-, hz⟩
      · exact (hee he).elim
      · have hok := h.ends e' z hee hz
        exact ⟨hok.toEndCore.frame_finishAll hee hwaiting, hok.queued, hok.unwritten⟩
    · exact h.unlisted e' (by simpa using he')
    · rw [finishAll, List.getElem?_mapIdx] at hx
      obtain ⟨x₀, hx₀, rfl⟩ := Option.map_eq_some_iff.mp hx
      have := h.owner b x₀ hx₀
      simp only [List.length_set]
      split_ifs <;> exact this
    · have hset := Table.total_set (fun z : IoEnd => if z.unwritten then 1 else 0) hy
        { y₁ with unwritten := false, result := r, freed := true }
      show n = Table.total _ (w.ends.set e _)
      rw [hnr, h.nr, hunw]
      simp only [Bool.false_eq_true, if_false, Nat.add_zero] at hset
      omega
  refine hbut.inv fun z hz => ?_
  obtain rfl := Option.some.inj ((Table.get_set_self hy _).symm.trans hz)
  refine ⟨hdone, ?_, fun _ hf => ?_⟩
  · simpa [World.listed] using hlisted
  · cases hf

/-- `io_end`s that carry no flag need no conversion. -/
theorem InvBut.release_plain (h : InvBut w e) (hy : w.ends[e]? = some y)
    (hlisted : w.listed e = 0) (hcore : EndCore w.bios e y₁)
    (hunw : y₁.unwritten = y.unwritten) (hfreed : y₁.freed = false) (hzero : y₁.count = 0)
    (hplain : y₁.unwritten = false) : Inv (IoEnds.release w e y₁) := by
  have hr : y₁.unwritten = true ∨ y₁.result ≠ none → y₁.result ≠ none := fun hor =>
    hor.resolve_left (by rw [hplain]; exact Bool.false_ne_true)
  have hrel := h.release hy hlisted hcore hunw hfreed hzero hr (n := w.nrUnwritten)
    (by rw [hplain]; rfl)
  rwa [show ({ y₁ with unwritten := false, result := y₁.result } : IoEnd) = y₁ by
    rw [← hplain]] at hrel

/-- `io_end`s that carry the flag are released after the conversion. -/
theorem InvBut.release_convert (h : InvBut w e) (hy : w.ends[e]? = some y)
    (hlisted : w.listed e = 0) (hcore : EndCore w.bios e y₁)
    (hunw : y₁.unwritten = y.unwritten) (hfreed : y₁.freed = false) (hzero : y₁.count = 0)
    (hmarked : y₁.unwritten = true) (err : ℤ) :
    Inv (IoEnds.release (convert w y₁ err).1 e (convert w y₁ err).2) :=
  h.release hy hlisted hcore hunw hfreed hzero (fun _ => Option.some_ne_none err)
    (by rw [hmarked]; rfl)

/-! ### Dropping a reference -/

/-- The last reference is gone, and the conversion is left to the worker. -/
theorem InvBut.addCompleteIo (h : InvBut w e) (hy : w.ends[e]? = some y)
    (hlisted : w.listed e = 0) (hcore : EndCore w.bios e y₁)
    (hunw : y₁.unwritten = y.unwritten) (hfreed : y₁.freed = false) (hzero : y₁.count = 0)
    (hmarked : y₁.unwritten = true) : Inv (IoEnds.addCompleteIo w e y₁) := by
  have hcount : ∀ e', (IoEnds.addCompleteIo w e y₁).listed e' =
      w.listed e' + if e' = e then 1 else 0 := by
    intro e'
    show (w.convList ++ [e]).count e' + w.worker.list.count e' = _
    rw [List.count_append, List.count_singleton, World.listed]
    simp only [beq_iff_eq, eq_comm (a := e)]
    omega
  have hset := h.setEnd hy y₁ hunw
  have hbut : InvBut (IoEnds.addCompleteIo w e y₁) e := by
    refine ⟨h.bug, fun e' z hee hz => ?_, fun e' he' => ?_, hset.owner, hset.nr, fun _ => ?_⟩
    · have hok := hset.ends e' z hee hz
      refine ⟨hok.toEndCore, ?_, hok.unwritten⟩
      rw [hcount, if_neg hee]
      exact hok.queued
    · have hlt := (List.getElem?_eq_some_iff.mp hy).1
      have hlen : w.ends.length ≤ e' := by
        simpa [IoEnds.addCompleteIo, World.setEnd] using he'
      rw [hcount, if_neg (by omega), h.unlisted e' hlen]
    · -- the list was empty, or the work is on its way
      rcases hl : w.convList with - | ⟨c, l⟩
      · left
        simp [IoEnds.addCompleteIo, hl]
      · rcases h.wake (by simp [hl]) with hq | hq
        · left
          simp [IoEnds.addCompleteIo, hq]
        · exact Or.inr hq
  refine hbut.inv fun z hz => ?_
  obtain rfl := Option.some.inj ((Table.get_set_self hy y₁).symm.trans hz)
  refine ⟨hcore, ?_, fun _ _ => hmarked⟩
  rw [hcount, hlisted, if_pos rfl, if_pos ⟨hzero, hfreed⟩]

section Put

variable {err : ℤ} (h : InvBut w e) (hy : w.ends[e]? = some y) (hlisted : w.listed e = 0)
  {y₀ : IoEnd} (hunw : y₀.unwritten = y.unwritten)
  (hcore : EndCore w.bios e { y₀ with count := y₀.count - 1 })

include h hy hlisted hunw hcore

/-- Not the last reference. -/
theorem InvBut.keep (hmore : y₀.count - 1 ≠ 0) :
    Inv (w.setEnd e { y₀ with count := y₀.count - 1 }) := by
  refine h.inv_setEnd hy hunw ⟨hcore, ?_, fun hzero => (hmore hzero).elim⟩
  rw [hlisted, if_neg fun hz => hmore hz.1]

theorem InvBut.putDefer (hfreed : y₀.freed = false) (hpos : 0 < y₀.count)
    (hsize : y₀.count = 1 → y₀.unwritten = true → y₀.size ≠ 0) : Inv (putDefer w e y₀) := by
  unfold IoEnds.putDefer
  dsimp only
  rw [if_neg (by simp [hfreed]; omega)]
  by_cases hmore : y₀.count - 1 ≠ 0
  · rw [if_pos hmore]
    exact h.keep hy hlisted hunw hcore hmore
  · have hzero : y₀.count - 1 = 0 := by omega
    rw [if_neg hmore]
    by_cases hmarked : y₀.unwritten = true
    · have hne := hsize (by omega) hmarked
      rw [if_neg (by simp [hmarked, hne])]
      exact h.addCompleteIo hy hlisted hcore hunw hfreed hzero hmarked
    · have hplain := Bool.eq_false_of_not_eq_true hmarked
      rw [if_pos (by simp [hplain])]
      exact h.release_plain hy hlisted hcore hunw hfreed hzero hplain

theorem InvBut.putSync (hfreed : y₀.freed = false) (hpos : 0 < y₀.count) :
    Inv (putSync w e y₀ err) := by
  unfold IoEnds.putSync
  dsimp only
  rw [if_neg (by simp [hfreed]; omega)]
  by_cases hmore : y₀.count - 1 ≠ 0
  · rw [if_pos hmore]
    exact h.keep hy hlisted hunw hcore hmore
  · have hzero : y₀.count - 1 = 0 := by omega
    rw [if_neg hmore]
    by_cases hmarked : y₀.unwritten = true
    · rw [if_pos hmarked]
      exact h.release_convert hy hlisted hcore hunw hfreed hzero hmarked err
    · rw [if_neg hmarked]
      exact h.release_plain hy hlisted hcore hunw hfreed hzero
        (Bool.eq_false_of_not_eq_true hmarked)

end Put

/-! ### The steps -/

/-- A bio that has its reference keeps its `io_end` alive, and off the lists. -/
theorem EndOk.alive {n : ℕ} {bios : List EndBio} (h : EndOk bios n e y)
    (hx : bios[b]? = some x) (he : x.ioEnd = e) (hholds : x.place.holds = true) :
    y.freed = false ∧ 0 < y.count ∧ n = 0 := by
  have hle := Table.le_total (EndBio.refTo e) (List.mem_of_getElem? hx)
  rw [EndBio.refTo_eq he, hholds, if_pos rfl] at hle
  have hcount := h.count
  unfold refs at hcount
  have hpos : 0 < y.count := by omega
  refine ⟨?_, hpos, ?_⟩
  · by_contra hf
    have := (h.freed (eq_true_of_ne_false hf)).1
    omega
  · rw [h.queued, if_neg fun hz => by omega]

/-- So does the writeback pass. -/
theorem EndOk.alive_held {n : ℕ} {bios : List EndBio} (h : EndOk bios n e y)
    (hheld : y.held = true) : y.freed = false ∧ 0 < y.count ∧ n = 0 := by
  have hcount := h.count
  rw [hheld, if_pos rfl] at hcount
  have hpos : 0 < y.count := by omega
  refine ⟨?_, hpos, ?_⟩
  · by_contra hf
    have := (h.freed (eq_true_of_ne_false hf)).1
    omega
  · rw [h.queued, if_neg fun hz => by omega]

section Bio

variable (h : Inv w) (hx : w.bios[b]? = some x) (hy : w.ends[x.ioEnd]? = some y)

include h hx hy

theorem Inv.send (hp : x.place = .opened) :
    Inv (w.setBio b { x with place := .sent, deferred := y.unwritten }) := by
  have hok := h.ends _ y hy
  have hfreed := (hok.alive hx rfl (by rw [hp]; rfl)).1
  refine h.moveBio hx hy rfl
    (hok.toEndCore.move hx rfl { x with place := .sent, deferred := y.unwritten }
      rfl ?_ ?_ ⟨?_, ?_, ?_, ?_, ?_⟩ ?_ ?_)
  · rw [hp]
    rfl
  · simp [hp, Place.chained]
  · simp [Place.chained]
  · simp
  · exact fun hd _ => ⟨hd, hfreed⟩
  · simp
  · simp
  · simp [hp, Place.holds]
  · simp [hp, Place.holds]

theorem Inv.endBioStep (hp : x.place = .sent) : Inv (endBioStep w b x y) := by
  have hok := h.ends _ y hy
  have hfreed := (hok.alive hx rfl (by rw [hp]; rfl)).1
  have hbio := hok.bio b x hx rfl
  unfold IoEnds.endBioStep
  rw [if_neg (by simp [hfreed])]
  refine h.moveBio hx hy rfl
    (hok.toEndCore.move hx rfl { x with place := if y.unwritten then .linking else .dropping }
      rfl ?_ ?_ ⟨?_, ?_, ?_, ?_, ?_⟩ ?_ ?_)
  · rw [hp]
    split_ifs <;> rfl
  · simp [hp, Place.chained]
  · intro hl
    split_ifs at hl with hunw
    · exact ⟨hunw, hfreed⟩
    · simp [Place.chained] at hl
  · split_ifs <;> simp
  · exact fun hd _ => hbio.deferred hd (by simp [hp])
  · intro hd
    have hunw := (hbio.deferred hd (by simp [hp])).1
    simp [hunw]
  · split_ifs <;> simp
  · simp [hp, Place.holds]
  · by_cases hunw : y.unwritten = true <;> simp [hunw, hp, Place.holds]

theorem Inv.xchgStep (hp : x.place = .linking) : Inv (xchgStep w b x y) := by
  have hok := h.ends _ y hy
  obtain ⟨hfreed, hpos, hlisted⟩ := hok.alive hx rfl (by rw [hp]; rfl)
  unfold IoEnds.xchgStep
  rw [if_neg (by simp [hfreed])]
  have hset := (h.but x.ioEnd).setEnd hy { y with head := some b } rfl
  refine (hset.setBio hx rfl { x with place := .storing y.head } rfl).inv fun z hz => ?_
  obtain rfl := Option.some.inj ((Table.get_set_self hy _).symm.trans hz)
  exact ⟨hok.toEndCore.xchg hx rfl hp, hok.queued, hok.unwritten⟩

theorem Inv.store {old : Option ℕ} (hp : x.place = .storing old) :
    Inv (w.setBio b { x with priv := .bio old, place := .linked }) := by
  have hok := h.ends _ y hy
  have hbio := hok.bio b x hx rfl
  have hlinking := hbio.linking (Or.inr (by rw [hp]; rfl))
  refine h.moveBio hx hy rfl
    (hok.toEndCore.move hx rfl { x with priv := .bio old, place := .linked }
      rfl ?_ ?_ ⟨?_, ?_, ?_, ?_, ?_⟩ ?_ ?_)
  · rw [hp]
    rfl
  · intro _
    simp [EndBio.link, hp]
  · exact fun _ => hlinking
  · exact fun _ => ⟨old, rfl⟩
  · exact fun _ _ => hlinking
  · simp
  · simp
  · simp [hp, Place.holds]
  · simp [hp, Place.holds]

/-- The bio drops its reference, having been linked or not. -/
theorem Inv.putBio {place : Place}
    (hp : x.place = .linked ∧ place = .waiting ∨ x.place = .dropping ∧ place = .finishing)
    (hsize : y.count = 1 → y.unwritten = true → y.size ≠ 0) :
    Inv (putDefer (w.setBio b { x with place := place }) x.ioEnd y) := by
  have hok := h.ends _ y hy
  have hbio := hok.bio b x hx rfl
  have hholds : x.place.holds = true := by
    rcases hp with ⟨hp, -⟩ | ⟨hp, -⟩ <;> rw [hp] <;> rfl
  have hdropped : place.holds = false := by
    rcases hp with ⟨-, rfl⟩ | ⟨-, rfl⟩ <;> rfl
  obtain ⟨hfreed, hpos, hlisted⟩ := hok.alive hx rfl hholds
  refine ((h.but x.ioEnd).setBio hx rfl { x with place := place } rfl).putDefer
    hy hlisted rfl ?_ hfreed hpos hsize
  refine hok.toEndCore.move hx rfl { x with place := place } rfl ?_ ?_ ⟨?_, ?_, ?_, ?_, ?_⟩ ?_ ?_
  · rcases hp with ⟨hp, rfl⟩ | ⟨hp, rfl⟩ <;> rw [hp] <;> rfl
  · rcases hp with ⟨hp, rfl⟩ | ⟨hp, rfl⟩
    · intro _
      obtain ⟨next, hnext⟩ := hbio.stored (Or.inl hp)
      simp [EndBio.link, hp, hnext]
    · simp [hp, Place.chained]
  · rcases hp with ⟨hp, rfl⟩ | ⟨hp, rfl⟩
    · exact fun _ => hbio.linking (Or.inr (by rw [hp]; rfl))
    · simp [Place.chained]
  · rcases hp with ⟨hp, rfl⟩ | ⟨hp, rfl⟩
    · exact fun _ => hbio.stored (Or.inl hp)
    · simp
  · intro hd _
    refine hbio.deferred hd fun hfin => ?_
    rw [hfin] at hholds
    cases hholds
  · intro hd
    rcases hp with ⟨hp, rfl⟩ | ⟨hp, rfl⟩
    · simp
    · exact ((hbio.route hd).1 hp).elim
  · rcases hp with ⟨hp, rfl⟩ | ⟨hp, rfl⟩ <;> simp
  · exact fun _ => hholds
  · show (y.count - 1 + if x.place.holds then 1 else 0) = y.count + if place.holds then 1 else 0
    rw [hholds, hdropped, if_pos rfl, if_neg Bool.false_ne_true]
    omega

theorem Inv.finishBio (hp : x.place = .finishing) :
    Inv (w.setBio b { x with place := .finished }) := by
  have hok := h.ends _ y hy
  have hbio := hok.bio b x hx rfl
  refine h.moveBio hx hy rfl
    (hok.toEndCore.move hx rfl { x with place := .finished }
      rfl ?_ ?_ ⟨?_, ?_, ?_, ?_, ?_⟩ ?_ ?_)
  · rw [hp]
    rfl
  · simp [hp, Place.chained]
  · simp [Place.chained]
  · simp
  · simp
  · simp
  · exact fun hd _ => ((hbio.route hd).2 hp).elim
  · simp [Place.holds]
  · simp [hp, Place.holds]

end Bio

section Pass

variable (h : Inv w) (hy : w.ends[e]? = some y) (hheld : y.held = true)

include h

theorem Inv.initEnd :
    Inv { w with ends := w.ends ++ [⟨1, 0, false, none, true, false, none⟩] } := by
  have hbut := h.but w.ends.length
  have hnone : ∀ (b : ℕ) (x : EndBio), w.bios[b]? = some x → x.ioEnd ≠ w.ends.length :=
    fun b x hx => (hbut.owner b x hx).ne
  have hrefs : refs w.bios w.ends.length = 0 := by
    refine Table.total_eq_zero fun x hx => ?_
    obtain ⟨b, hb⟩ := List.mem_iff_getElem?.mp hx
    simp [EndBio.refTo, hnone b x hb]
  have hends : ∀ (e : ℕ) (y : IoEnd),
      (w.ends ++ [⟨1, 0, false, none, true, false, none⟩])[e]? = some y →
      EndOk w.bios (w.listed e) e y := by
    intro e y hy
    rcases Table.get_concat_cases hy with hy | ⟨rfl, rfl⟩
    · exact h.ends e y hy
    · refine ⟨⟨?_, fun hf => ?_, fun b x hx he => (hnone b x hx he).elim, fun _ => ?_⟩, ?_,
        fun hz => ?_⟩
      · simp [hrefs]
      · cases hf
      · refine ⟨[], rfl, List.nodup_nil, fun b => iff_of_false (by simp) ?_⟩
        rintro ⟨x, hx, he, -⟩
        exact hnone b x hx he
      · exact hbut.unlisted _ le_rfl
      · cases hz
  refine ⟨fun e => ⟨hbut.bug, fun e' y _ => hends e' y, fun e' he' => ?_, fun b x hx => ?_, ?_,
    hbut.wake⟩, hends⟩
  · refine hbut.unlisted e' ?_
    have hlen : w.ends.length + 1 ≤ e' := by simpa using he'
    omega
  · have := hbut.owner b x hx
    simp only [List.length_append, List.length_singleton]
    omega
  · show w.nrUnwritten = _
    rw [hbut.nr]
    simp

include hy hheld

theorem Inv.setUnwritten (hunw : y.unwritten = false) :
    Inv { w.setEnd e { y with unwritten := true } with nrUnwritten := w.nrUnwritten + 1 } := by
  have hok := h.ends e y hy
  obtain ⟨hfreed, hpos, -⟩ := hok.alive_held hheld
  have hbut := h.but e
  have hset := Table.total_set (fun z : IoEnd => if z.unwritten then 1 else 0) hy
    { y with unwritten := true }
  refine InvBut.inv (e := e) ⟨hbut.bug, fun e' z hee hz => ?_, fun e' he' => ?_,
    fun b x hx => ?_, ?_, hbut.wake⟩ fun z hz => ?_
  · rcases Table.get_set_cases hz with ⟨he, -⟩ | ⟨-, hz⟩
    · exact (hee he).elim
    · exact hbut.ends e' z hee hz
  · exact hbut.unlisted e' (by simpa [World.setEnd] using he')
  · have := hbut.owner b x hx
    simpa [World.setEnd] using this
  · show w.nrUnwritten + 1 = Table.total _ (w.ends.set e _)
    rw [hbut.nr]
    simp only [hunw, Bool.false_eq_true, if_false, if_true] at hset
    omega
  · obtain rfl := Option.some.inj ((Table.get_set_self hy _).symm.trans hz)
    refine ⟨hok.toEndCore.mark hfreed y.size, hok.queued, fun _ _ => rfl⟩

omit hheld in
theorem Inv.growEnd (n : ℕ) : Inv (w.setEnd e { y with size := y.size + n }) := by
  have hok := h.ends e y hy
  exact (h.but e).inv_setEnd hy rfl
    ⟨hok.toEndCore.grow (y.size + n), hok.queued, hok.unwritten⟩

theorem Inv.openBio :
    Inv { w.setEnd e { y with count := y.count + 1 } with
      bios := w.bios ++ [⟨e, .ioEnd e, .opened, false⟩] } := by
  have hok := h.ends e y hy
  obtain ⟨hfreed, hpos, hlisted⟩ := hok.alive_held hheld
  have hset := (h.but e).setEnd hy { y with count := y.count + 1 } rfl
  have hlt := (List.getElem?_eq_some_iff.mp hy).1
  refine InvBut.inv (e := e) ⟨hset.bug, fun e' z hee hz => ?_, hset.unlisted, fun b x hx => ?_,
    hset.nr, hset.wake⟩ fun z hz => ?_
  · -- the bios of the other `io_end`s are the same
    have hok' := hset.ends e' z hee hz
    refine ⟨hok'.toEndCore.frame ?_ fun b x he => ⟨fun hx => ?_, fun hx => ?_⟩, hok'.queued,
      hok'.unwritten⟩
    · show Table.total _ (w.bios ++ [_]) = Table.total _ w.bios
      rw [Table.total_concat]
      simp [EndBio.refTo, Ne.symm hee]
    · rcases Table.get_concat_cases hx with hx | ⟨-, rfl⟩
      · exact hx
      · exact (hee he.symm).elim
    · exact Table.get_concat (t := w.bios) hx _
  · rcases Table.get_concat_cases hx with hx | ⟨-, rfl⟩
    · exact hset.owner b x hx
    · simpa [World.setEnd] using hlt
  · obtain rfl := Option.some.inj ((Table.get_set_self hy _).symm.trans hz)
    refine ⟨hok.toEndCore.open hfreed, ?_, fun hz => ?_⟩
    · rw [if_neg (by simp)]
      exact hlisted
    · cases hz

theorem Inv.put (defer : Bool) (err : ℤ)
    (hsize : defer = true → y.count = 1 → y.unwritten = true → y.size ≠ 0) :
    Inv (if defer then putDefer w e { y with held := false }
      else putSync w e { y with held := false } err) := by
  have hok := h.ends e y hy
  obtain ⟨hfreed, hpos, hlisted⟩ := hok.alive_held hheld
  obtain ⟨hcore, -⟩ := hok.toEndCore.drop hheld
  cases defer with
  | true =>
      rw [if_pos rfl]
      exact (h.but e).putDefer hy hlisted rfl hcore hfreed hpos (hsize rfl)
  | false =>
      rw [if_neg Bool.false_ne_true]
      exact (h.but e).putSync hy hlisted rfl hcore hfreed hpos

end Pass

section Work

/-- A change of the list, the queue and the worker that leaves every `io_end` on as many lists
as it was. -/
theorem Inv.relist (h : Inv w) {w' : World} (hbug : w'.bug = w.bug) (hends : w'.ends = w.ends)
    (hbios : w'.bios = w.bios) (hnr : w'.nrUnwritten = w.nrUnwritten)
    (hlisted : ∀ e, w'.listed e = w.listed e)
    (hwake : w'.convList ≠ [] → w'.queued = true ∨ w'.worker = .started) : Inv w' := by
  have hok : ∀ (e : ℕ) (y : IoEnd), w'.ends[e]? = some y → EndOk w'.bios (w'.listed e) e y := by
    intro e y hy
    rw [hbios, hlisted]
    rw [hends] at hy
    exact h.ends e y hy
  refine ⟨fun e => ⟨?_, fun e' y _ => hok e' y, fun e' he' => ?_, fun b x hx => ?_, ?_, hwake⟩,
    hok⟩
  · rw [hbug]
    exact (h.but e).bug
  · rw [hlisted]
    exact (h.but e).unlisted e' (by rwa [hends] at he')
  · rw [hbios] at hx
    rw [hends]
    exact (h.but e).owner b x hx
  · rw [hnr, hends]
    exact (h.but e).nr

/-- The worker takes the next `io_end` and converts its extent. -/
theorem Inv.workOne (h : Inv w) {rest : List ℕ} (hw : w.worker = .working (e :: rest))
    (hy : w.ends[e]? = some y) (err : ℤ) :
    Inv (endIo { w with worker := .working rest } e y err) := by
  have hok := h.ends e y hy
  have hlisted : ∀ e', w.listed e' =
      w.convList.count e' + (rest.count e' + if e' = e then 1 else 0) := by
    intro e'
    rw [World.listed, hw]
    simp only [Worker.list, List.count_cons, beq_iff_eq, eq_comm (a := e)]
  -- it was on a list, so it is waiting for its conversion
  have hone := hok.queued
  rw [hlisted, if_pos rfl] at hone
  obtain ⟨hzero, hfreed⟩ : y.count = 0 ∧ y.freed = false := by
    by_contra hno
    rw [if_neg hno] at hone
    omega
  rw [if_pos ⟨hzero, hfreed⟩] at hone
  have hmarked := hok.unwritten hzero hfreed
  have hbut : InvBut { w with worker := .working rest } e := by
    have hb := h.but e
    refine ⟨hb.bug, fun e' z hee hz => ?_, fun e' he' => ?_, hb.owner, hb.nr, fun hl => ?_⟩
    · have hz := hb.ends e' z hee hz
      rw [hlisted, if_neg hee, Nat.add_zero] at hz
      exact hz
    · have hu := hb.unlisted e' he'
      rw [hlisted] at hu
      show w.convList.count e' + rest.count e' = 0
      omega
    · rcases hb.wake hl with hq | hq
      · exact Or.inl hq
      · rw [hw] at hq
        cases hq
  unfold endIo
  rw [if_neg (by simp [hfreed, hmarked])]
  refine hbut.release_convert hy ?_ hok.toEndCore rfl hfreed hzero hmarked err
  show w.convList.count e + rest.count e = 0
  omega

end Work

/-- The extent of an `io_end` that is handed over to the worker is not empty. -/
def Act.sized (w : World) : Act → Bool
  | .putBio b =>
      match (w.bios[b]?).bind fun x => w.ends[x.ioEnd]? with
      | none => true
      | some y => !(decide (y.count = 1) && y.unwritten && decide (y.size = 0))
  | .put e true _ =>
      match w.ends[e]? with
      | none => true
      | some y => !(decide (y.count = 1) && y.unwritten && decide (y.size = 0))
  | _ => true

theorem bioStep_inv (h : Inv w) (hx : w.bios[b]? = some x) (hy : w.ends[x.ioEnd]? = some y)
    {a : Act} {w' : World} (hsized : ∀ c, a = .putBio c → y.count = 1 → y.unwritten = true →
      y.size ≠ 0) (hw : bioStep w b x y a = some w') : Inv w' := by
  cases a <;> simp only [bioStep] at hw <;> try cases hw
  case send =>
    split_ifs at hw with hp
    obtain rfl := Option.some.inj hw
    exact h.send hx hy hp
  case endBio =>
    split_ifs at hw with hp
    obtain rfl := Option.some.inj hw
    exact h.endBioStep hx hy hp
  case xchg =>
    split_ifs at hw with hp
    obtain rfl := Option.some.inj hw
    exact h.xchgStep hx hy hp
  case store =>
    split at hw
    next old hp =>
      obtain rfl := Option.some.inj hw
      exact h.store hx hy hp
    · cases hw
  case putBio c =>
    split at hw
    next hp =>
      obtain rfl := Option.some.inj hw
      exact h.putBio hx hy (Or.inl ⟨hp, rfl⟩) (hsized c rfl)
    next hp =>
      obtain rfl := Option.some.inj hw
      exact h.putBio hx hy (Or.inr ⟨hp, rfl⟩) (hsized c rfl)
    · cases hw
  case finish =>
    split_ifs at hw with hp
    obtain rfl := Option.some.inj hw
    exact h.finishBio hx hy hp

theorem workStep_inv (h : Inv w) {a : Act} {w' : World} (hw : workStep w a = some w') :
    Inv w' := by
  have hwake := (h.but 0).wake
  cases a <;> simp only [workStep] at hw <;> try cases hw
  case workStart =>
    split_ifs at hw with hq
    obtain rfl := Option.some.inj hw
    simp only [Bool.and_eq_true, decide_eq_true_eq] at hq
    refine h.relist rfl rfl rfl rfl (fun e => ?_) fun _ => Or.inr rfl
    simp [World.listed, hq.2, Worker.list]
  case workTake =>
    split_ifs at hw with hs
    obtain rfl := Option.some.inj hw
    refine h.relist rfl rfl rfl rfl (fun e => ?_) fun hl => (hl rfl).elim
    simp [World.listed, hs, Worker.list]
  case workOne =>
    split at hw
    next e rest hwork =>
      obtain ⟨y, hy, rfl⟩ := Option.map_eq_some_iff.mp hw
      exact h.workOne hwork hy _
    · cases hw
  case workEnd =>
    split_ifs at hw with hs
    obtain rfl := Option.some.inj hw
    refine h.relist rfl rfl rfl rfl (fun e => ?_) fun hl => ?_
    · simp [World.listed, hs, Worker.list]
    · rcases hwake hl with hq | hq
      · exact Or.inl hq
      · rw [hs] at hq
        cases hq

theorem World.holding_eq_some {f : IoEnd → World} {w' : World}
    (hw : w.holding e f = some w') :
    ∃ y, w.ends[e]? = some y ∧ y.held = true ∧ w' = f y := by
  obtain ⟨y, hy, hw⟩ := Option.bind_eq_some_iff.mp hw
  split_ifs at hw with hheld
  exact ⟨y, hy, hheld, (Option.some.inj hw).symm⟩

theorem passStep_inv (h : Inv w) {a : Act} {w' : World} (hsized : a.sized w = true)
    (hw : passStep w a = some w') : Inv w' := by
  cases a <;> simp only [passStep] at hw <;> try cases hw
  case init => exact h.initEnd
  case setUnwritten e =>
    obtain ⟨y, hy, hheld, rfl⟩ := World.holding_eq_some hw
    split_ifs with hunw
    · exact h
    · exact h.setUnwritten hy hheld (Bool.eq_false_of_not_eq_true hunw)
  case grow e n =>
    obtain ⟨y, hy, -, rfl⟩ := World.holding_eq_some hw
    exact h.growEnd hy n
  case openBio e =>
    obtain ⟨y, hy, hheld, rfl⟩ := World.holding_eq_some hw
    exact h.openBio hy hheld
  case put e defer err =>
    obtain ⟨y, hy, hheld, rfl⟩ := World.holding_eq_some hw
    refine h.put hy hheld defer err fun hd hone hunw hzero => ?_
    subst hd
    simp [Act.sized, hy, hone, hunw, hzero] at hsized

/-- **Every step keeps the invariant.** -/
theorem step_inv (h : Inv w) {a : Act} {w' : World} (hsized : a.sized w = true)
    (hw : step w a = some w') : Inv w' := by
  have hbio : ∀ b, w.onBio b a = some w' → (∀ c, a = .putBio c → c = b) → Inv w' := by
    intro b hb hc
    obtain ⟨x, hx, hb⟩ := Option.bind_eq_some_iff.mp hb
    obtain ⟨y, hy, hb⟩ := Option.bind_eq_some_iff.mp hb
    refine bioStep_inv h hx hy (fun c ha hone hunw hzero => ?_) hb
    obtain rfl := hc c ha
    subst ha
    simp [Act.sized, hx, hy, hone, hunw, hzero] at hsized
  unfold step at hw
  rw [if_neg (by simp [(h.but 0).bug])] at hw
  cases a with
  | send b => exact hbio b hw (by simp)
  | endBio b => exact hbio b hw (by simp)
  | xchg b => exact hbio b hw (by simp)
  | store b => exact hbio b hw (by simp)
  | putBio b => exact hbio b hw (by simp)
  | finish b => exact hbio b hw (by simp)
  | workStart => exact workStep_inv h hw
  | workTake => exact workStep_inv h hw
  | workOne err => exact workStep_inv h hw
  | workEnd => exact workStep_inv h hw
  | init => exact passStep_inv h hsized hw
  | setUnwritten e => exact passStep_inv h hsized hw
  | grow e n => exact passStep_inv h hsized hw
  | openBio e => exact passStep_inv h hsized hw
  | put e defer err => exact passStep_inv h hsized hw

theorem inv_empty : Inv World.empty := by
  refine ⟨fun e => ⟨rfl, fun e' y _ hy => ?_, fun _ _ => rfl, fun b x hx => ?_, rfl,
    fun hl => (hl rfl).elim⟩, fun e y hy => ?_⟩
  · simp [World.empty] at hy
  · simp [World.empty] at hx
  · simp [World.empty] at hy

theorem run_inv {as : List Act} {w : World}
    (hsized : Run.Along step (fun w a => a.sized w = true) World.empty as)
    (hrun : Run.run step World.empty as = some w) : Inv w :=
  Run.run_preserves (fun _ _ _ h hs hw => step_inv h hs hw) inv_empty hsized hrun

/-! ### What the conversions returned -/

/-- The results recorded are among `R`. -/
def ResultsIn (R : ℤ → Prop) (w : World) : Prop :=
  ∀ y ∈ w.ends, ∀ r, y.result = some r → R r

section Results

variable {R : ℤ → Prop} {w' : World} (h : ResultsIn R w)

include h

/-- An `io_end` changes. -/
theorem ResultsIn.set (hy : ∀ r, y.result = some r → R r) (hends : w'.ends = w.ends.set e y) :
    ResultsIn R w' := by
  intro z hz
  rw [hends] at hz
  rcases List.mem_or_eq_of_mem_set hz with hz | rfl
  · exact h z hz
  · exact hy

theorem ResultsIn.release (hy : ∀ r, y.result = some r → R r) : ResultsIn R (release w e y) := by
  unfold IoEnds.release
  split_ifs
  · exact h
  · split
    · exact h
    · exact h.set (y := { y with freed := true }) hy rfl

theorem ResultsIn.putDefer (hy : ∀ r, y.result = some r → R r) :
    ResultsIn R (putDefer w e y) := by
  unfold IoEnds.putDefer
  dsimp only
  split_ifs
  · exact h
  · exact h.set (y := { y with count := y.count - 1 }) hy rfl
  · exact h.release hy
  · exact h.set (y := { y with count := y.count - 1 }) hy rfl

theorem ResultsIn.putSync (hy : ∀ r, y.result = some r → R r) {err : ℤ} (herr : R err) :
    ResultsIn R (putSync w e y err) := by
  unfold IoEnds.putSync
  dsimp only
  split_ifs
  · exact h
  · exact h.set (y := { y with count := y.count - 1 }) hy rfl
  · exact ResultsIn.release h fun r hr => Option.some.inj hr ▸ herr
  · exact h.release hy

theorem ResultsIn.bioStep {b : ℕ} {x : EndBio} (hy : ∀ r, y.result = some r → R r) {a : Act}
    (hw : bioStep w b x y a = some w') : ResultsIn R w' := by
  cases a <;> simp only [IoEnds.bioStep] at hw <;> try cases hw
  case send =>
    split_ifs at hw
    obtain rfl := Option.some.inj hw
    exact h
  case endBio =>
    split_ifs at hw
    obtain rfl := Option.some.inj hw
    unfold endBioStep
    split_ifs <;> exact h
  case xchg =>
    split_ifs at hw
    obtain rfl := Option.some.inj hw
    unfold xchgStep
    split_ifs
    · exact h
    · exact h.set (y := { y with head := some b }) hy rfl
  case store =>
    split at hw
    · obtain rfl := Option.some.inj hw
      exact h
    · cases hw
  case putBio =>
    split at hw
    · obtain rfl := Option.some.inj hw
      exact ResultsIn.putDefer h hy
    · obtain rfl := Option.some.inj hw
      exact ResultsIn.putDefer h hy
    · cases hw
  case finish =>
    split_ifs at hw
    obtain rfl := Option.some.inj hw
    exact h

theorem ResultsIn.workStep {a : Act} (ha : ∀ r, a.result = some r → R r)
    (hw : workStep w a = some w') : ResultsIn R w' := by
  cases a <;> simp only [IoEnds.workStep] at hw <;> try cases hw
  case workStart =>
    split_ifs at hw
    obtain rfl := Option.some.inj hw
    exact h
  case workTake =>
    split_ifs at hw
    obtain rfl := Option.some.inj hw
    exact h
  case workOne err =>
    split at hw
    · obtain ⟨y, hy, rfl⟩ := Option.map_eq_some_iff.mp hw
      unfold endIo
      split_ifs
      · exact h
      · exact ResultsIn.release h fun r hr => Option.some.inj hr ▸ ha err rfl
    · cases hw
  case workEnd =>
    split_ifs at hw
    obtain rfl := Option.some.inj hw
    exact h

theorem ResultsIn.passStep {a : Act} (ha : ∀ r, a.result = some r → R r)
    (hw : passStep w a = some w') : ResultsIn R w' := by
  cases a <;> simp only [IoEnds.passStep] at hw <;> try cases hw
  case init =>
    intro y hy
    rcases List.mem_append.mp hy with hy | hy
    · exact h y hy
    · obtain rfl := List.mem_singleton.mp hy
      intro r hr
      cases hr
  case setUnwritten e =>
    obtain ⟨y, hy, -, rfl⟩ := World.holding_eq_some hw
    split_ifs
    · exact h
    · exact h.set (y := { y with unwritten := true }) (h y (List.mem_of_getElem? hy)) rfl
  case grow e n =>
    obtain ⟨y, hy, -, rfl⟩ := World.holding_eq_some hw
    exact h.set (y := { y with size := y.size + n }) (h y (List.mem_of_getElem? hy)) rfl
  case openBio e =>
    obtain ⟨y, hy, -, rfl⟩ := World.holding_eq_some hw
    exact h.set (y := { y with count := y.count + 1 }) (h y (List.mem_of_getElem? hy)) rfl
  case put e defer err =>
    obtain ⟨y, hy, -, rfl⟩ := World.holding_eq_some hw
    have hres := h y (List.mem_of_getElem? hy)
    cases defer with
    | false =>
        rw [if_neg Bool.false_ne_true]
        exact h.putSync (y := { y with held := false }) hres (ha err rfl)
    | true =>
        rw [if_pos rfl]
        exact h.putDefer hres

theorem ResultsIn.step {a : Act} (ha : ∀ r, a.result = some r → R r)
    (hw : step w a = some w') : ResultsIn R w' := by
  have hbio : ∀ b, w.onBio b a = some w' → ResultsIn R w' := by
    intro b hb
    obtain ⟨x, -, hb⟩ := Option.bind_eq_some_iff.mp hb
    obtain ⟨y, hy, hb⟩ := Option.bind_eq_some_iff.mp hb
    exact h.bioStep (h y (List.mem_of_getElem? hy)) hb
  unfold IoEnds.step at hw
  split_ifs at hw
  cases a with
  | send b => exact hbio b hw
  | endBio b => exact hbio b hw
  | xchg b => exact hbio b hw
  | store b => exact hbio b hw
  | putBio b => exact hbio b hw
  | finish b => exact hbio b hw
  | workStart => exact h.workStep ha hw
  | workTake => exact h.workStep ha hw
  | workOne err => exact h.workStep ha hw
  | workEnd => exact h.workStep ha hw
  | init => exact h.passStep ha hw
  | setUnwritten e => exact h.passStep ha hw
  | grow e n => exact h.passStep ha hw
  | openBio e => exact h.passStep ha hw
  | put e defer err => exact h.passStep ha hw

end Results

/-- What is recorded was returned in the run. -/
theorem resultsIn_run {as : List Act} (hrun : Run.run step World.empty as = some w) :
    ResultsIn (· ∈ as.filterMap Act.result) w := by
  refine Run.run_preserves (C := fun _ a => ∀ r, a.result = some r → r ∈ as.filterMap Act.result)
    (fun _ _ _ h ha hw => h.step ha hw) (fun y hy => absurd hy List.not_mem_nil) ?_ hrun
  exact Run.along_of_forall fun a ha _ r hr => List.mem_filterMap.mpr ⟨a, ha, hr⟩

/-- **The conversion comes before the bios are finished**, whatever it returns, and on the way no
`BUG_ON` is hit, no reference is dropped that is not there, no freed `io_end` is used, and every
`bi_private` that is followed has been stored. -/
theorem conversion_before_finish (as : List Act) (w : World)
    (hsized : Run.Along step (fun w a => a.sized w = true) World.empty as)
    (hrun : Run.run step World.empty as = some w) :
    w.bug = false ∧
      ∀ (b : ℕ) (x : EndBio) (y : IoEnd), w.bios[b]? = some x → w.ends[x.ioEnd]? = some y →
        x.deferred = true →
        (x.place = .finished → ∃ r ∈ as.filterMap Act.result, y.result = some r) ∧
        (x.place ≠ .finished → y.unwritten = true ∧ y.freed = false) := by
  have h := run_inv hsized hrun
  refine ⟨(h.but 0).bug, fun b x y hx hy hd => ?_⟩
  have hbio := (h.ends _ y hy).bio b x hx rfl
  refine ⟨fun hp => ?_, hbio.deferred hd⟩
  obtain ⟨r, hr⟩ := Option.ne_none_iff_exists'.mp (hbio.converted hd hp)
  exact ⟨r, resultsIn_run hrun y (List.mem_of_getElem? hy) r hr, hr⟩

/-- Two bios of an unwritten extent complete at the same time: the second exchange comes before
the first store.  The conversion returns `err`. -/
def racingBios (err : ℤ) : List Act :=
  [.init, .setUnwritten 0, .grow 0 4096, .openBio 0, .send 0, .openBio 0, .send 1, .endBio 0,
    .endBio 1, .xchg 0, .xchg 1, .store 1, .store 0, .put 0 true 0, .putBio 1, .putBio 0,
    .workStart, .workTake, .workOne err, .workEnd]

theorem conversion_before_finish_racing :
    (∃ w, Run.run step World.empty (racingBios 0) = some w ∧ w.bug = false ∧
      ∃ y, w.ends[0]? = some y ∧ y.result = some 0) ∧
    ∃ w, Run.run step World.empty (racingBios (-5)) = some w ∧ w.bug = false ∧
      ∃ y, w.ends[0]? = some y ∧ y.result = some (-5) := by
  have hrun (err : ℤ) (herr : err = 0 ∨ err = -5) :
      ∃ w, Run.run step World.empty (racingBios err) = some w ∧ ∃ x, w.bios[0]? = some x ∧
        ∃ y, w.ends[0]? = some y ∧ x.ioEnd = 0 ∧ x.deferred = true ∧ x.place = .finished := by
    rcases herr with rfl | rfl <;> decide +kernel
  have hsized (err : ℤ) (herr : err = 0 ∨ err = -5) :
      Run.Along step (fun w a => a.sized w = true) World.empty (racingBios err) := by
    rcases herr with rfl | rfl <;> decide +kernel
  have hresult (err : ℤ) (herr : err = 0 ∨ err = -5) :
      ∃ w, Run.run step World.empty (racingBios err) = some w ∧ w.bug = false ∧
        ∃ y, w.ends[0]? = some y ∧ y.result = some err := by
    obtain ⟨w, hw, x, hx, y, hy, he, hd, hp⟩ := hrun err herr
    obtain ⟨hbug, hall⟩ := conversion_before_finish (racingBios err) w (hsized err herr) hw
    obtain ⟨r, hr, hres⟩ := (hall 0 x y hx (by rw [he]; exact hy) hd).1 hp
    obtain rfl : r = err := List.mem_singleton.mp hr
    exact ⟨w, hw, hbug, y, hy, hres⟩
  exact ⟨hresult 0 (Or.inl rfl), hresult (-5) (Or.inr rfl)⟩

-- An unwritten extent of size zero is released without a conversion: `BUG_ON`.
example : ∃ w, Run.run step World.empty [.init, .setUnwritten 0, .put 0 true 0] = some w ∧
    w.bug = true := by
  decide +kernel

/-- Everybody is done: the writeback passes have dropped their references, no completion is
running, and the work is neither queued nor running. -/
def AtRest (w : World) : Prop :=
  (∀ y ∈ w.ends, y.held = false) ∧
    (∀ x ∈ w.bios, x.place = .waiting ∨ x.place = .finished) ∧
    w.queued = false ∧ w.worker = .idle

instance decidableAtRest (w : World) : Decidable (AtRest w) :=
  inferInstanceAs (Decidable (_ ∧ _ ∧ _ ∧ _))

/-- **Nothing is left behind.**  When everybody is done, every `io_end` is freed, every bio has
been finished, the conversion list is empty and `i_unwritten` is zero. -/
theorem io_ends_all_released (as : List Act) (w : World)
    (hsized : Run.Along step (fun w a => a.sized w = true) World.empty as)
    (hrun : Run.run step World.empty as = some w) (hrest : AtRest w) :
    (∀ y ∈ w.ends, y.freed = true) ∧ (∀ x ∈ w.bios, x.place = .finished) ∧
      w.convList = [] ∧ w.nrUnwritten = 0 := by
  have h := run_inv hsized hrun
  obtain ⟨hheld, hplace, hqueued, hidle⟩ := hrest
  -- a list that is not empty would have the work on its way
  have hlist : w.convList = [] := by
    by_contra hne
    rcases (h.but 0).wake hne with hq | hq
    · rw [hqueued] at hq
      cases hq
    · rw [hidle] at hq
      cases hq
  have hfreed : ∀ y ∈ w.ends, y.freed = true := by
    intro y hmem
    obtain ⟨e, hy⟩ := List.mem_iff_getElem?.mp hmem
    have hok := h.ends e y hy
    have hrefs : refs w.bios e = 0 := by
      refine Table.total_eq_zero fun x hx => ?_
      rcases hplace x hx with hp | hp <;> simp [EndBio.refTo, hp, Place.holds]
    have hzero : y.count = 0 := by
      rw [hok.count, hrefs, hheld y hmem]
      rfl
    by_contra hf
    have hlisted := hok.queued
    rw [if_pos ⟨hzero, Bool.eq_false_of_not_eq_true hf⟩, World.listed, hlist, hidle] at hlisted
    cases hlisted
  refine ⟨hfreed, fun x hx => ?_, hlist, ?_⟩
  · rcases hplace x hx with hp | hp
    · obtain ⟨b, hb⟩ := List.mem_iff_getElem?.mp hx
      have hlt := (h.but 0).owner b x hb
      have hy := List.getElem?_eq_getElem hlt
      have hlive := ((h.ends _ _ hy).bio b x hb rfl).linking (Or.inr (by rw [hp]; rfl))
      rw [hfreed _ (List.getElem_mem hlt)] at hlive
      cases hlive.2
    · exact hp
  · rw [(h.but 0).nr]
    refine Table.total_eq_zero fun y hmem => ?_
    obtain ⟨e, hy⟩ := List.mem_iff_getElem?.mp hmem
    rw [((h.ends e y hy).freed (hfreed y hmem)).2]
    rfl

theorem io_ends_all_released_racing :
    ∃ w, Run.run step World.empty (racingBios (-5)) = some w ∧ w.bios.length = 2 ∧
      ∀ x ∈ w.bios, x.place = .finished := by
  obtain ⟨w, hw, hlen, hrest⟩ :
      ∃ w, Run.run step World.empty (racingBios (-5)) = some w ∧ w.bios.length = 2 ∧ AtRest w := by
    decide +kernel
  exact ⟨w, hw, hlen, (io_ends_all_released (racingBios (-5)) w (by decide +kernel) hw hrest).2.1⟩

end CcNvme.IoEnds

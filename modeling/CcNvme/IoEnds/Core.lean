/-
CcNvme/IoEnds/Core.lean

One `io_end`, its references and its linked bios.

`EndCore bios e y`: the reference count of `y` is the number of its bios that have not dropped
their reference, plus that of the writeback pass; its linked bios form a list from `head`; and
they are linked only while the extent is unwritten.  `EndOk` adds where the `io_end` is: on the
conversion list, or on that of the worker, exactly when its last reference is gone and it has
not been freed.
-/
import CcNvme.IoEnds.Model

namespace CcNvme.IoEnds

/-- The bio still has its reference. -/
def Place.holds : Place → Bool
  | .opened | .sent | .linking | .storing _ | .linked | .dropping => true
  | .waiting | .finishing | .finished => false

/-- The bio is on the list of its `io_end`. -/
def Place.chained : Place → Bool
  | .storing _ | .linked | .waiting => true
  | _ => false

theorem Place.waiting_of {p : Place} (hh : p.holds = false) (hc : p.chained = true) :
    p = .waiting := by
  cases p <;> simp_all [Place.holds, Place.chained]

theorem Place.finished_of {p : Place} (hh : p.holds = false) (hc : p.chained = false)
    (hf : p ≠ .finishing) : p = .finished := by
  cases p <;> simp_all [Place.holds, Place.chained]

/-- The bio that follows, stored or not. -/
def EndBio.link (x : EndBio) : Option ℕ :=
  match x.place, x.priv with
  | .storing old, _ => old
  | _, .bio next => next
  | _, .ioEnd _ => none

def linkOf (bios : List EndBio) (b : ℕ) : Option ℕ := (bios[b]?).bind EndBio.link

/-- Does the bio hold a reference to `e`? -/
def EndBio.refTo (e : ℕ) (x : EndBio) : ℕ := if x.ioEnd = e ∧ x.place.holds = true then 1 else 0

def refs (bios : List EndBio) (e : ℕ) : ℕ := Table.total (EndBio.refTo e) bios

/-- A bio and its `io_end`. -/
structure BioOk (y : IoEnd) (x : EndBio) : Prop where
  linking : x.place = .linking ∨ x.place.chained = true → y.unwritten = true ∧ y.freed = false
  stored : x.place = .linked ∨ x.place = .waiting → ∃ next, x.priv = .bio next
  deferred : x.deferred = true → x.place ≠ .finished → y.unwritten = true ∧ y.freed = false
  route : x.deferred = true → x.place ≠ .dropping ∧ x.place ≠ .finishing
  converted : x.deferred = true → x.place = .finished → y.result ≠ none

/-- The bios linked to `e`. -/
def Chain (bios : List EndBio) (e : ℕ) (h : Option ℕ) (l : List ℕ) : Prop :=
  Links (linkOf bios) h l ∧ l.Nodup ∧
    ∀ b, b ∈ l ↔ ∃ x, bios[b]? = some x ∧ x.ioEnd = e ∧ x.place.chained = true

structure EndCore (bios : List EndBio) (e : ℕ) (y : IoEnd) : Prop where
  count : y.count = (if y.held then 1 else 0) + refs bios e
  freed : y.freed = true → y.count = 0 ∧ y.unwritten = false
  bio : ∀ (b : ℕ) (x : EndBio), bios[b]? = some x → x.ioEnd = e → BioOk y x
  chain : y.freed = false → ∃ l, Chain bios e y.head l

/-- `n`: how often the `io_end` is on a list. -/
structure EndOk (bios : List EndBio) (n e : ℕ) (y : IoEnd) : Prop extends EndCore bios e y where
  queued : n = if y.count = 0 ∧ y.freed = false then 1 else 0
  unwritten : y.count = 0 → y.freed = false → y.unwritten = true

variable {bios bios' : List EndBio} {e b n : ℕ} {x x' : EndBio} {y y' : IoEnd}

theorem linkOf_eq (hx : bios[b]? = some x) : linkOf bios b = x.link := by
  simp [linkOf, hx]

/-- What happens to the bios of another `io_end` does not matter. -/
theorem EndCore.frame (h : EndCore bios e y) (hrefs : refs bios' e = refs bios e)
    (hsame : ∀ (b : ℕ) (x : EndBio), x.ioEnd = e →
      (bios'[b]? = some x ↔ bios[b]? = some x)) :
    EndCore bios' e y where
  count := by
    rw [hrefs]
    exact h.count
  freed := h.freed
  bio b x hx he := h.bio b x ((hsame b x he).mp hx) he
  chain hfreed := by
    obtain ⟨l, hlinks, hnodup, hmem⟩ := h.chain hfreed
    refine ⟨l, hlinks.congr fun c hc => ?_, hnodup, fun b => ?_⟩
    · obtain ⟨z, hz, he, -⟩ := (hmem c).mp hc
      rw [linkOf_eq hz, linkOf_eq ((hsame c z he).mpr hz)]
    · rw [hmem b]
      constructor
      · rintro ⟨z, hz, he, hc⟩
        exact ⟨z, (hsame b z he).mpr hz, he, hc⟩
      · rintro ⟨z, hz, he, hc⟩
        exact ⟨z, (hsame b z he).mp hz, he, hc⟩

theorem EndCore.frame_set (h : EndCore bios e y) (hx : bios[b]? = some x) (he : x.ioEnd ≠ e)
    (he' : x'.ioEnd ≠ e) : EndCore (bios.set b x') e y := by
  refine h.frame ?_ fun c z hz => ?_
  · exact Table.total_set_eq hx (by simp [EndBio.refTo, he, he'])
  · constructor
    · intro hc
      rcases Table.get_set_cases hc with ⟨-, rfl⟩ | ⟨-, hc⟩
      · exact (he' hz).elim
      · exact hc
    · intro hc
      have hcb : c ≠ b := by
        rintro rfl
        obtain rfl := Option.some.inj (hx.symm.trans hc)
        exact he hz
      rwa [List.getElem?_set_ne (Ne.symm hcb)]

/-- The list of linked bios when one of them moves on. -/
theorem Chain.set {h : Option ℕ} {l : List ℕ} (hl : Chain bios e h l) (hx : bios[b]? = some x)
    (he : x.ioEnd = e) (he' : x'.ioEnd = e) (hchained : x'.place.chained = x.place.chained)
    (hlink : x.place.chained = true → x'.link = x.link) : Chain (bios.set b x') e h l := by
  obtain ⟨hlinks, hnodup, hmem⟩ := hl
  refine ⟨hlinks.congr fun c hc => ?_, hnodup, fun c => ?_⟩
  · obtain ⟨z, hz, -, hzc⟩ := (hmem c).mp hc
    by_cases hcb : c = b
    · subst hcb
      obtain rfl := Option.some.inj (hx.symm.trans hz)
      rw [linkOf_eq (Table.get_set_self hx _), linkOf_eq hx, hlink hzc]
    · rw [linkOf_eq hz, linkOf, List.getElem?_set_ne (Ne.symm hcb), hz, Option.bind_some]
  · rw [hmem c]
    by_cases hcb : c = b
    · subst hcb
      rw [Table.get_set_self hx, hx]
      constructor
      · rintro ⟨z, hz, -, hzc⟩
        obtain rfl := Option.some.inj hz
        exact ⟨x', rfl, he', hchained.trans hzc⟩
      · rintro ⟨z, hz, -, hzc⟩
        obtain rfl := Option.some.inj hz
        exact ⟨x, rfl, he, hchained.symm.trans hzc⟩
    · rw [List.getElem?_set_ne (Ne.symm hcb)]

/-- The reference of a bio of `e`. -/
theorem EndBio.refTo_eq (he : x.ioEnd = e) : x.refTo e = if x.place.holds then 1 else 0 := by
  simp [EndBio.refTo, he]

/-- **A bio moves on**, keeping its place on the list of its `io_end`. -/
theorem EndCore.move (h : EndCore bios e y) (hx : bios[b]? = some x) (he : x.ioEnd = e)
    (x' : EndBio) (he' : x'.ioEnd = e) (hchained : x'.place.chained = x.place.chained)
    (hlink : x.place.chained = true → x'.link = x.link) (hok : BioOk y x') {c : ℕ}
    (hholds : x'.place.holds = true → x.place.holds = true)
    (hcount : (c + if x.place.holds then 1 else 0) =
      y.count + if x'.place.holds then 1 else 0) :
    EndCore (bios.set b x') e { y with count := c } where
  count := by
    have hset := Table.total_set (EndBio.refTo e) hx x'
    have hold := h.count
    rw [EndBio.refTo_eq he, EndBio.refTo_eq he'] at hset
    show c = (if y.held then 1 else 0) + Table.total (EndBio.refTo e) (bios.set b x')
    unfold refs at hold
    omega
  freed hf := by
    obtain ⟨hzero, hunw⟩ := h.freed hf
    refine ⟨?_, hunw⟩
    show c = 0
    rw [hzero] at hcount
    rcases hh' : x'.place.holds with - | -
    · simp [hh'] at hcount
      exact hcount.1
    · simpa [hh', hholds hh'] using hcount
  bio c z hz hze := by
    rcases Table.get_set_cases hz with ⟨-, rfl⟩ | ⟨-, hz⟩
    · exact ⟨hok.linking, hok.stored, hok.deferred, hok.route, hok.converted⟩
    · have hz := h.bio c z hz hze
      exact ⟨hz.linking, hz.stored, hz.deferred, hz.route, hz.converted⟩
  chain hf := by
    obtain ⟨l, hl⟩ := h.chain hf
    exact ⟨l, hl.set hx he he' hchained hlink⟩

/-- **The exchange** puts a bio in front of the list. -/
theorem EndCore.xchg (h : EndCore bios e y) (hx : bios[b]? = some x) (he : x.ioEnd = e)
    (hplace : x.place = .linking) :
    EndCore (bios.set b { x with place := .storing y.head }) e { y with head := some b } where
  count := by
    have hset := Table.total_set (EndBio.refTo e) hx { x with place := .storing y.head }
    have hold := h.count
    have hnew : ({ x with place := .storing y.head } : EndBio).ioEnd = e := he
    rw [EndBio.refTo_eq he, EndBio.refTo_eq hnew, hplace] at hset
    show y.count = (if y.held then 1 else 0) +
      Table.total (EndBio.refTo e) (bios.set b { x with place := .storing y.head })
    unfold refs at hold
    simp only [Place.holds, if_true] at hset
    omega
  freed := h.freed
  bio c z hz hze := by
    rcases Table.get_set_cases hz with ⟨-, rfl⟩ | ⟨-, hz⟩
    · have hb := h.bio b x hx he
      obtain ⟨hunw, hfreed⟩ := hb.linking (Or.inl hplace)
      refine ⟨fun _ => ⟨hunw, hfreed⟩, fun hp => ?_, fun _ _ => ⟨hunw, hfreed⟩,
        fun _ => ⟨?_, ?_⟩, fun _ hp => ?_⟩
      · simp at hp
      · simp
      · simp
      · cases hp
    · have hz := h.bio c z hz hze
      exact ⟨hz.linking, hz.stored, hz.deferred, hz.route, hz.converted⟩
  chain hf := by
    obtain ⟨l, hlinks, hnodup, hmem⟩ := h.chain hf
    -- the bio was not on the list
    have hb : b ∉ l := by
      intro hb
      obtain ⟨z, hz, -, hzc⟩ := (hmem b).mp hb
      obtain rfl := Option.some.inj (hx.symm.trans hz)
      simp [hplace, Place.chained] at hzc
    refine ⟨b :: l, hlinks.push ?_ fun c hc => ?_, List.nodup_cons.mpr ⟨hb, hnodup⟩,
      fun c => ?_⟩
    · rw [linkOf_eq (Table.get_set_self hx _)]
      rfl
    · have hcb : c ≠ b := fun hcb => hb (hcb ▸ hc)
      rw [linkOf, linkOf, List.getElem?_set_ne (Ne.symm hcb)]
    · rw [List.mem_cons, hmem c]
      by_cases hcb : c = b
      · subst hcb
        rw [Table.get_set_self hx]
        exact iff_of_true (Or.inl rfl) ⟨_, rfl, he, rfl⟩
      · rw [List.getElem?_set_ne (Ne.symm hcb)]
        simp [hcb]

/-- The writeback pass marks the extent as unwritten, or makes it longer. -/
theorem EndCore.mark (h : EndCore bios e y) (hfreed : y.freed = false) (size : ℕ) :
    EndCore bios e { y with unwritten := true, size := size } where
  count := h.count
  freed hf := by
    have hf : y.freed = true := hf
    rw [hfreed] at hf
    cases hf
  bio b x hx he := by
    have hb := h.bio b x hx he
    exact ⟨fun _ => ⟨rfl, hfreed⟩, hb.stored, fun _ _ => ⟨rfl, hfreed⟩, hb.route, hb.converted⟩
  chain := h.chain

theorem EndCore.grow (h : EndCore bios e y) (size : ℕ) : EndCore bios e { y with size := size } :=
  ⟨h.count, h.freed, fun b x hx he => by
    have hb := h.bio b x hx he
    exact ⟨hb.linking, hb.stored, hb.deferred, hb.route, hb.converted⟩, h.chain⟩

/-- The writeback pass drops its reference. -/
theorem EndCore.drop (h : EndCore bios e y) (hheld : y.held = true) :
    EndCore bios e { y with held := false, count := y.count - 1 } ∧ 0 < y.count := by
  have hcount := h.count
  rw [hheld, if_pos rfl] at hcount
  refine ⟨⟨?_, fun hf => ?_, fun b x hx he => ?_, h.chain⟩, by omega⟩
  · show y.count - 1 = 0 + refs bios e
    omega
  · obtain ⟨hzero, hunw⟩ := h.freed hf
    exact ⟨by show y.count - 1 = 0; omega, hunw⟩
  · have hb := h.bio b x hx he
    exact ⟨hb.linking, hb.stored, hb.deferred, hb.route, hb.converted⟩

/-- A bio is allocated. -/
theorem EndCore.open (h : EndCore bios e y) (hfreed : y.freed = false) :
    EndCore (bios ++ [⟨e, .ioEnd e, .opened, false⟩]) e { y with count := y.count + 1 } where
  count := by
    have hcount := h.count
    unfold refs at hcount ⊢
    rw [Table.total_concat]
    simp only [EndBio.refTo, Place.holds, and_self, if_true]
    show y.count + 1 = _
    omega
  freed hf := by
    have hf : y.freed = true := hf
    rw [hfreed] at hf
    cases hf
  bio b x hx he := by
    rcases Table.get_concat_cases hx with hx | ⟨-, rfl⟩
    · have hb := h.bio b x hx he
      exact ⟨hb.linking, hb.stored, hb.deferred, hb.route, hb.converted⟩
    · constructor <;> simp [Place.chained]
  chain hf := by
    obtain ⟨l, hlinks, hnodup, hmem⟩ := h.chain hf
    have hlt : ∀ c ∈ l, c < bios.length := fun c hc => by
      obtain ⟨z, hz, -⟩ := (hmem c).mp hc
      exact (List.getElem?_eq_some_iff.mp hz).1
    refine ⟨l, hlinks.congr fun c hc => ?_, hnodup, fun c => ?_⟩
    · rw [linkOf, linkOf, List.getElem?_append_left (hlt c hc)]
    · rw [hmem c]
      constructor
      · rintro ⟨z, hz, hze, hzc⟩
        exact ⟨z, Table.get_concat hz _, hze, hzc⟩
      · rintro ⟨z, hz, hze, hzc⟩
        rcases Table.get_concat_cases hz with hz | ⟨-, rfl⟩
        · exact ⟨z, hz, hze, hzc⟩
        · cases hzc

/-- **Release.**  When no reference is left, every linked bio has its successor stored, so the
walk finds them all, and none of them stays behind.  `r` is the result of the conversion, if
there was one. -/
theorem EndCore.release (h : EndCore bios e y) (hfreed : y.freed = false) (hzero : y.count = 0)
    {r : Option ℤ} (hr : y.unwritten = true ∨ y.result ≠ none → r ≠ none) :
    ∃ l, Links.walk (nextBio bios) bios.length y.head = some l ∧
      (∀ b ∈ l, ∃ x, bios[b]? = some x ∧ x.ioEnd = e ∧ x.place = .waiting) ∧
      EndCore (finishAll l bios) e
        { y with unwritten := false, result := r, freed := true } := by
  obtain ⟨l, hlinks, hnodup, hmem⟩ := h.chain hfreed
  have hrefs : refs bios e = 0 := by
    have := h.count
    omega
  have hnone : ∀ (b : ℕ) (x : EndBio), bios[b]? = some x → x.ioEnd = e →
      x.place.holds = false := by
    intro b x hx he
    have hle := Table.le_total (EndBio.refTo e) (List.mem_of_getElem? hx)
    rw [EndBio.refTo_eq he] at hle
    unfold refs at hrefs
    rcases hh : x.place.holds with - | -
    · rfl
    · rw [hh, if_pos rfl] at hle
      omega
  have hwaiting : ∀ b ∈ l, ∃ x, bios[b]? = some x ∧ x.ioEnd = e ∧ x.place = .waiting := by
    intro b hb
    obtain ⟨x, hx, he, hc⟩ := (hmem b).mp hb
    exact ⟨x, hx, he, Place.waiting_of (hnone b x hx he) hc⟩
  refine ⟨l, ?_, hwaiting, ?_⟩
  · refine hlinks.walk_eq (fun b hb => ?_) ?_
    · obtain ⟨x, hx, he, hp⟩ := hwaiting b hb
      obtain ⟨next, hnext⟩ := (h.bio b x hx he).stored (Or.inr hp)
      simp [nextBio, linkOf, hx, EndBio.link, hp, hnext]
    · have hsub : l ⊆ List.range bios.length := fun b hb => by
        obtain ⟨x, hx, -⟩ := hwaiting b hb
        exact List.mem_range.mpr (List.getElem?_eq_some_iff.mp hx).1
      simpa using (List.subperm_of_subset hnodup hsub).length_le
  · have hget : ∀ (b : ℕ) (x : EndBio), (finishAll l bios)[b]? = some x →
        ∃ x₀, bios[b]? = some x₀ ∧ x = if b ∈ l then { x₀ with place := .finished } else x₀ := by
      intro b x hx
      rw [finishAll, List.getElem?_mapIdx] at hx
      obtain ⟨x₀, hx₀, rfl⟩ := Option.map_eq_some_iff.mp hx
      exact ⟨x₀, hx₀, rfl⟩
    refine ⟨?_, fun _ => ⟨hzero, rfl⟩, fun b x hx he => ?_, fun hf => ?_⟩
    · have hsame : refs (finishAll l bios) e = refs bios e := by
        refine Table.total_mapIdx_eq fun b x hx => ?_
        split_ifs with hb
        · obtain ⟨x', hx', -, hp⟩ := hwaiting b hb
          obtain rfl := Option.some.inj (hx.symm.trans hx')
          simp [EndBio.refTo, Place.holds, hp]
        · rfl
      rw [hsame]
      exact h.count
    · obtain ⟨x₀, hx₀, rfl⟩ := hget b x hx
      split_ifs at he ⊢ with hb
      · -- a linked bio: there has been a conversion
        obtain ⟨x', hx', -, hp⟩ := hwaiting b hb
        obtain rfl := Option.some.inj (hx₀.symm.trans hx')
        have hok := h.bio b x₀ hx₀ he
        refine ⟨fun hl => ?_, fun hs => ?_, fun _ hne => (hne rfl).elim, fun _ => ?_,
          fun hd _ => ?_⟩
        · simp [Place.chained] at hl
        · simp at hs
        · simp
        · exact hr (Or.inl (hok.deferred hd (by simp [hp])).1)
      · -- any other bio has been finished by its own completion
        have hok := h.bio b x₀ hx₀ he
        have hh := hnone b x₀ hx₀ he
        have hc : x₀.place.chained = false := by
          by_contra hc
          exact hb ((hmem b).mpr ⟨x₀, hx₀, he, by simpa using hc⟩)
        refine ⟨fun hl => ?_, hok.stored, fun hd hne => ?_, hok.route, fun hd hp => ?_⟩
        · rcases hl with hl | hl
          · simp [hl, Place.holds] at hh
          · rw [hc] at hl
            cases hl
        · exact (hne (Place.finished_of hh hc (hok.route hd).2)).elim
        · exact hr (Or.inr (hok.converted hd hp))
    · cases hf

end CcNvme.IoEnds

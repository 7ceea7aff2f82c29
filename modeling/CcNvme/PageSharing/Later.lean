/-
CcNvme/PageSharing/Later.lean

What a write carries, and what stays true of it.  A change of an inode is *carried* by a bio that
was sent from the buffer after the change was made, whatever the device has read of it by now; it
is *covered* when a completed bio has it; it is *in a copy* when a copy has it.  All three stay
true as the world goes on (`Later`), and every step leads to a later world.
-/
import CcNvme.PageSharing.Model

namespace CcNvme.PageSharing

open Snapshot (floor)

variable {ι β : Type}

/-! ### Carried, covered, copied -/

section Carried

variable (blk : ι → β) (w : World ι β)

/-- A bio sent from the buffer is sure to have change `v` of inode `i`. -/
def Carried (i : ι) (v : ℕ) : Prop :=
  v = 0 ∨ ∃ (k : ℕ) (x : Bio ι β), w.bios[k]? = some x ∧ x.block = blk i ∧ x.source = none ∧
    v ≤ floor w.data x.taken i

/-- A completed bio has change `v` of inode `i`.  If `err` is zero and it was sent from a copy, it
has not failed. -/
def Covered (i : ι) (v : ℕ) (err : ℤ) : Prop :=
  v = 0 ∨ ∃ (k : ℕ) (x : Bio ι β) (n : ℕ), w.bios[k]? = some x ∧ x.block = blk i ∧
    x.done = true ∧ x.taken i = some n ∧ v ≤ n ∧ (err = 0 → x.source ≠ none → x.failed = false)

def InCopy (i : ι) (v c : ℕ) : Prop :=
  ∃ y, w.copies[c]? = some y ∧ y.block = blk i ∧ v ≤ y.data i

/-- Change `v` of inode `i` is covered, or it will be when the buffers `bs` and the copies `cs`
have been waited for. -/
def Sent (i : ι) (v : ℕ) (err : ℤ) (bs : List β) (cs : List ℕ) : Prop :=
  Covered blk w i v err ∨ (blk i ∈ bs ∧ Carried blk w i v) ∨ ∃ c ∈ cs, InCopy blk w i v c

end Carried

variable {blk : ι → β} {w w' : World ι β} {i : ι} {v : ℕ} {err : ℤ}

theorem Carried.mono {u : ℕ} (h : Carried blk w i v) (hu : u ≤ v) : Carried blk w i u := by
  rcases h with rfl | ⟨k, x, hx, hb, hs, hv⟩
  · exact Or.inl (Nat.le_zero.mp hu)
  · exact Or.inr ⟨k, x, hx, hb, hs, hu.trans hv⟩

theorem Covered.of_err {err' : ℤ} (h : Covered blk w i v err) (he : err' = 0 → err = 0) :
    Covered blk w i v err' := by
  rcases h with hv | ⟨k, x, n, hx, hb, hd, hn, hv, hf⟩
  · exact Or.inl hv
  · exact Or.inr ⟨k, x, n, hx, hb, hd, hn, hv, fun h' => hf (he h')⟩

theorem Sent.covered (h : Sent blk w i v err [] []) : Covered blk w i v err := by
  rcases h with h | ⟨hb, -⟩ | ⟨c, hc, -⟩
  · exact h
  · cases hb
  · cases hc

theorem Sent.mono {bs bs' : List β} {cs cs' : List ℕ} (h : Sent blk w i v err bs cs)
    (hb : blk i ∈ bs → blk i ∈ bs') (hc : ∀ c ∈ cs, c ∈ cs') :
    Sent blk w i v err bs' cs' := by
  rcases h with h | ⟨hbs, h⟩ | ⟨c, hcs, h⟩
  · exact Or.inl h
  · exact Or.inr (Or.inl ⟨hb hbs, h⟩)
  · exact Or.inr (Or.inr ⟨c, hc c hcs, h⟩)

/-! ### Later worlds -/

/-- The bios of a later world: a completed bio stays as it is, and of another the device is sure
to have at least as much. -/
def BiosLater (d d' : ι → ℕ) (l l' : List (Bio ι β)) : Prop :=
  ∀ (k : ℕ) (x : Bio ι β), l[k]? = some x → ∃ x', l'[k]? = some x' ∧ x'.block = x.block ∧
    x'.source = x.source ∧ (x.done = true → x' = x) ∧
    ∀ j, floor d x.taken j ≤ floor d' x'.taken j

/-- The contents of a copy stay as they are. -/
def CopiesLater (l l' : List (Copy ι β)) : Prop :=
  ∀ (c : ℕ) (y : Copy ι β), l[c]? = some y → ∃ y', l'[c]? = some y' ∧ y'.block = y.block ∧
    y'.owner = y.owner ∧ y'.data = y.data

theorem BiosLater.refl {d d' : ι → ℕ} (hd : ∀ j, d j ≤ d' j) (l : List (Bio ι β)) :
    BiosLater d d' l l :=
  fun _ x hx => ⟨x, hx, rfl, rfl, fun _ => rfl, fun _ => Snapshot.floor_mono _ (hd _)⟩

theorem BiosLater.concat (d : ι → ℕ) (l : List (Bio ι β)) (y : Bio ι β) :
    BiosLater d d l (l ++ [y]) := by
  intro k x hx
  exact ⟨x, Table.get_concat hx y, rfl, rfl, fun _ => rfl, fun _ => le_rfl⟩

/-- A bio in flight is replaced. -/
theorem BiosLater.set {d : ι → ℕ} {l : List (Bio ι β)} {k : ℕ} {x y : Bio ι β}
    (hx : l[k]? = some x) (hd : x.done = false) (hb : y.block = x.block)
    (hs : y.source = x.source) (hf : ∀ j, floor d x.taken j ≤ floor d y.taken j) :
    BiosLater d d l (l.set k y) := by
  intro m z hz
  by_cases hm : m = k
  · subst hm
    obtain rfl := Option.some.inj (hx.symm.trans hz)
    refine ⟨y, Table.get_set_self hx y, hb, hs, fun h => ?_, hf⟩
    rw [hd] at h
    cases h
  · exact ⟨z, (List.getElem?_set_ne (Ne.symm hm)).trans hz, rfl, rfl, fun _ => rfl,
      fun _ => le_rfl⟩

theorem CopiesLater.refl (l : List (Copy ι β)) : CopiesLater l l :=
  fun _ y hy => ⟨y, hy, rfl, rfl, rfl⟩

theorem CopiesLater.concat (l : List (Copy ι β)) (z : Copy ι β) : CopiesLater l (l ++ [z]) := by
  intro c y hy
  exact ⟨y, Table.get_concat hy z, rfl, rfl, rfl⟩

theorem CopiesLater.set {l : List (Copy ι β)} {c : ℕ} {y z : Copy ι β} (hy : l[c]? = some y)
    (hb : z.block = y.block) (ho : z.owner = y.owner) (hd : z.data = y.data) :
    CopiesLater l (l.set c z) := by
  intro m u hu
  by_cases hm : m = c
  · subst hm
    obtain rfl := Option.some.inj (hy.symm.trans hu)
    exact ⟨z, Table.get_set_self hy z, hb, ho, hd⟩
  · exact ⟨u, (List.getElem?_set_ne (Ne.symm hm)).trans hu, rfl, rfl, rfl⟩

/-- `w'` is `w` some time later. -/
structure Later (w w' : World ι β) : Prop where
  marked : ∀ j, w.marked j ≤ w'.marked j
  bios : BiosLater w.data w'.data w.bios w'.bios
  copies : CopiesLater w.copies w'.copies

namespace Later

/-- A step that leaves the inodes, the bios and the copies alone. -/
theorem of_eq (hd : w'.data = w.data) (hm : w'.marked = w.marked) (hb : w'.bios = w.bios)
    (hc : w'.copies = w.copies) : Later w w' := by
  refine ⟨fun j => by rw [hm], ?_, ?_⟩
  · rw [hd, hb]
    exact BiosLater.refl (fun _ => le_rfl) _
  · rw [hc]
    exact CopiesLater.refl _

theorem carried (h : Later w w') (hc : Carried blk w i v) : Carried blk w' i v := by
  rcases hc with hv | ⟨k, x, hx, hb, hs, hv⟩
  · exact Or.inl hv
  · obtain ⟨x', hx', hb', hs', -, hf⟩ := h.bios k x hx
    exact Or.inr ⟨k, x', hx', hb'.trans hb, hs'.trans hs, hv.trans (hf i)⟩

theorem covered (h : Later w w') (hc : Covered blk w i v err) : Covered blk w' i v err := by
  rcases hc with hv | ⟨k, x, n, hx, hb, hd, hn⟩
  · exact Or.inl hv
  · obtain ⟨x', hx', -, -, hdone, -⟩ := h.bios k x hx
    obtain rfl := hdone hd
    exact Or.inr ⟨k, x', n, hx', hb, hd, hn⟩

theorem inCopy (h : Later w w') {c : ℕ} (hc : InCopy blk w i v c) : InCopy blk w' i v c := by
  obtain ⟨y, hy, hb, hv⟩ := hc
  obtain ⟨y', hy', hb', -, hd'⟩ := h.copies c y hy
  refine ⟨y', hy', hb'.trans hb, ?_⟩
  rw [hd']
  exact hv

theorem sent (h : Later w w') {bs : List β} {cs : List ℕ} (hs : Sent blk w i v err bs cs) :
    Sent blk w' i v err bs cs := by
  rcases hs with hs | ⟨hb, hs⟩ | ⟨c, hc, hs⟩
  · exact Or.inl (h.covered hs)
  · exact Or.inr (Or.inl ⟨hb, h.carried hs⟩)
  · exact Or.inr (Or.inr ⟨c, hc, h.inCopy hs⟩)

end Later

end CcNvme.PageSharing

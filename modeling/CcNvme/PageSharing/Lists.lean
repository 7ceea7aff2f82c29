/-
CcNvme/PageSharing/Lists.lean

The two lists of an inode.  A buffer is on the pending list of the inode that its `b_assoc_map`
says, and on no other.  A copy is on the list of the inode it was made for, or in the hands of the
call that waits for it, until it is freed; it has been sent unless the call that made it is about
to send it.
-/
import CcNvme.PageSharing.Locks

namespace CcNvme.PageSharing

variable {ι β : Type}

/-! ### Calls for one inode -/

/-- At most one call for an inode is under way. -/
def Exclusive (calls : List (Call ι β)) : Prop :=
  ∀ (t t' : ℕ) (u u' : Call ι β), calls[t]? = some u → calls[t']? = some u' →
    u.inode = u'.inode → u.stage.isDone = false → u'.stage.isDone = false → t = t'

namespace Exclusive

variable {calls : List (Call ι β)}

theorem setCall (h : Exclusive calls) {t : ℕ} {u v : Call ι β} (hu : calls[t]? = some u)
    (hd : u.stage.isDone = false) (hi : v.inode = u.inode) : Exclusive (calls.set t v) := by
  intro t₁ t₂ u₁ u₂ h₁ h₂ heq hd₁ hd₂
  rcases Table.get_set_cases h₁ with ⟨rfl, rfl⟩ | ⟨-, hold₁⟩ <;>
    rcases Table.get_set_cases h₂ with ⟨rfl, rfl⟩ | ⟨-, hold₂⟩
  · rfl
  · exact h t₁ t₂ u u₂ hu hold₂ (hi.symm.trans heq) hd hd₂
  · exact h t₁ t₂ u₁ u hold₁ hu (heq.trans hi) hd₁ hd
  · exact h t₁ t₂ u₁ u₂ hold₁ hold₂ heq hd₁ hd₂

theorem addCall (h : Exclusive calls) {v : Call ι β}
    (hv : ∀ u ∈ calls, u.inode = v.inode → u.stage.isDone = true) :
    Exclusive (calls ++ [v]) := by
  intro t₁ t₂ u₁ u₂ h₁ h₂ heq hd₁ hd₂
  rcases Table.get_concat_cases h₁ with hold₁ | ⟨rfl, rfl⟩ <;>
    rcases Table.get_concat_cases h₂ with hold₂ | ⟨rfl, rfl⟩
  · exact h t₁ t₂ u₁ u₂ hold₁ hold₂ heq hd₁ hd₂
  · rw [hv u₁ (List.mem_of_getElem? hold₁) heq] at hd₁
    cases hd₁
  · rw [hv u₂ (List.mem_of_getElem? hold₂) heq.symm] at hd₂
    cases hd₂
  · rfl

/-- Another call that is under way is for another inode. -/
theorem inode_ne (h : Exclusive calls) {t t' : ℕ} {u u' : Call ι β} (hu : calls[t]? = some u)
    (hd : u.stage.isDone = false) (hu' : calls[t']? = some u') (hne : t' ≠ t)
    (hd' : u'.stage.isDone = false) : u'.inode ≠ u.inode :=
  fun heq => hne (h t' t u' u hu' hu heq hd' hd)

end Exclusive

/-! ### Claimed buffers -/

/-- The pending lists and `b_assoc_map`. -/
structure Claims (blk : ι → β) (assoc : β → Option ι) (pending : ι → List β)
    (privateData : ι → Bool) : Prop where
  mem_iff : ∀ b i, assoc b = some i ↔ b ∈ pending i
  nodup : ∀ i, (pending i).Nodup
  block : ∀ i, ∀ b ∈ pending i, b = blk i
  mapping : ∀ i, pending i ≠ [] → privateData i = true

namespace Claims

variable [DecidableEq ι] [DecidableEq β] {blk : ι → β} {assoc : β → Option ι}
  {pending : ι → List β} {privateData : ι → Bool}

omit [DecidableEq ι] [DecidableEq β] in
/-- A buffer is on one list only. -/
theorem unique (h : Claims blk assoc pending privateData) {b : β} {i j : ι}
    (hi : b ∈ pending i) (hj : b ∈ pending j) : i = j :=
  Option.some.inj (((h.mem_iff b i).mpr hi).symm.trans ((h.mem_iff b j).mpr hj))

theorem claim (h : Claims blk assoc pending privateData) {i : ι} (hn : assoc (blk i) = none) :
    Claims blk (Function.update assoc (blk i) (some i))
      (Function.update pending i (blk i :: pending i)) (Function.update privateData i true) := by
  have hfree : ∀ j, blk i ∉ pending j := by
    intro j hmem
    rw [(h.mem_iff _ _).mpr hmem] at hn
    cases hn
  refine ⟨fun b j => ?_, Table.nodup_push h.nodup (hfree i), fun j b hb => ?_, fun j hne => ?_⟩
  · rw [Table.mem_push_iff]
    by_cases hb : b = blk i
    · rw [hb, Function.update_self]
      constructor
      · intro he
        exact Or.inl ⟨(Option.some.inj he).symm, rfl⟩
      · rintro (⟨rfl, -⟩ | hmem)
        · rfl
        · exact absurd hmem (hfree j)
    · rw [Function.update_of_ne hb, h.mem_iff]
      exact ⟨Or.inr, fun hmem => hmem.resolve_left fun he => hb he.2⟩
  · rcases Table.mem_push_iff.mp hb with ⟨rfl, rfl⟩ | hb
    · rfl
    · exact h.block j b hb
  · by_cases hj : j = i
    · subst hj
      rw [Function.update_self]
    · rw [Function.update_of_ne hj] at hne ⊢
      exact h.mapping j hne

theorem drain (h : Claims blk assoc pending privateData) {i : ι} {b : β}
    (hb : (pending i).getLast? = some b) :
    Claims blk (Function.update assoc b none)
      (Function.update pending i (pending i).dropLast) privateData := by
  have hmem : ∀ {j : ι} {b' : β}, b' ∈ Function.update pending i (pending i).dropLast j ↔
      b' ∈ pending j ∧ ¬ (j = i ∧ b' = b) := Table.mem_pop_iff (h.nodup i) hb
  refine ⟨fun b' j => ?_, Table.nodup_pop h.nodup, fun j b' hb' => h.block j b' (hmem.mp hb').1,
    fun j hne => ?_⟩
  · rw [hmem]
    by_cases hb' : b' = b
    · rw [hb', Function.update_self]
      refine iff_of_false (by intro hn; cases hn) fun hin => ?_
      exact hin.2 ⟨h.unique hin.1 (List.mem_of_getLast? hb), rfl⟩
    · rw [Function.update_of_ne hb', h.mem_iff]
      exact ⟨fun hin => ⟨hin, fun he => hb' he.2⟩, And.left⟩
  · obtain ⟨b', hb'⟩ := List.exists_mem_of_ne_nil _ hne
    exact h.mapping j (List.ne_nil_of_mem (hmem.mp hb').1)

end Claims

/-! ### Copies -/

structure Copies (bios : List (Bio ι β)) (copies : List (Copy ι β))
    (copyouts : ι → List ℕ) (calls : List (Call ι β)) : Prop where
  onList : ∀ i, ∀ c ∈ copyouts i, ∃ y, copies[c]? = some y ∧ y.owner = i ∧ y.freed = false
  nodup : ∀ i, (copyouts i).Nodup
  placed : ∀ (c : ℕ) (y : Copy ι β), copies[c]? = some y → y.freed = false →
    c ∈ copyouts y.owner ∨ ∃ (t : ℕ) (u : Call ι β), calls[t]? = some u ∧ u.stage = .waitCopy c
  inHand : ∀ (t : ℕ) (u : Call ι β) (c : ℕ), calls[t]? = some u → u.stage = .waitCopy c →
    ∃ y, copies[c]? = some y ∧ y.owner = u.inode ∧ y.freed = false ∧ c ∉ copyouts u.inode
  dirty : ∀ (c : ℕ) (y : Copy ι β), copies[c]? = some y → y.head.dirty = true →
    ∃ (t : ℕ) (u : Call ι β), calls[t]? = some u ∧ u.inode = y.owner ∧ u.stage = .listed c
  listed : ∀ (t : ℕ) (u : Call ι β) (c : ℕ), calls[t]? = some u → u.stage = .listed c →
    ∃ y, copies[c]? = some y ∧ y.owner = u.inode ∧ y.head.dirty = true
  /-- what a bio that was sent from a copy has is what the copy has -/
  fromCopy : ∀ (k : ℕ) (x : Bio ι β) (c : ℕ), bios[k]? = some x → x.source = some c →
    ∃ y, copies[c]? = some y ∧ x.block = y.block ∧ x.taken = fun j => some (y.data j)
  sent : ∀ (c : ℕ) (y : Copy ι β), copies[c]? = some y → y.head.dirty = false →
    y.head.req = true ∧ ∃ (k : ℕ) (x : Bio ι β), bios[k]? = some x ∧ x.source = some c ∧
      (y.head.lock = none → x.done = true ∧ y.head.uptodate = !x.failed)

/-- The copy that a call has in its hands. -/
def Stage.copy : Stage ι β → Option ℕ
  | .listed c | .waitCopy c => some c
  | _ => none

theorem Stage.ne_listed_of_copy {s : Stage ι β} (h : s.copy = none) (c : ℕ) :
    s ≠ .listed c := by
  rintro rfl
  cases h

theorem Stage.ne_waitCopy_of_copy {s : Stage ι β} (h : s.copy = none) (c : ℕ) :
    s ≠ .waitCopy c := by
  rintro rfl
  cases h

namespace Copies

variable {bios : List (Bio ι β)} {copies : List (Copy ι β)}
  {copyouts : ι → List ℕ} {calls : List (Call ι β)}

/-- A call at another stage than the one that goes on is still there. -/
theorem get_call {t t' : ℕ} {u u' : Call ι β} (hu : calls[t]? = some u)
    (hu' : calls[t']? = some u') (hne : u'.stage ≠ u.stage) (v : Call ι β) :
    (calls.set t v)[t']? = some u' :=
  Table.get_set_of_ne hu hu' (fun he => hne (congrArg Call.stage he)) v

/-- A call goes on that is about neither to send a copy nor to free one. -/
theorem setCall (h : Copies bios copies copyouts calls) {t : ℕ} {u v : Call ι β}
    (hu : calls[t]? = some u) (hustage : u.stage.copy = none) (hv : v.stage.copy = none) :
    Copies bios copies copyouts (calls.set t v) where
  onList := h.onList
  nodup := h.nodup
  placed := by
    intro c y hy hf
    rcases h.placed c y hy hf with hin | ⟨t', u', hu', hst⟩
    · exact Or.inl hin
    · refine Or.inr ⟨t', u', get_call hu hu' ?_ v, hst⟩
      rw [hst]
      exact (Stage.ne_waitCopy_of_copy hustage c).symm
  inHand := by
    intro t' u' c hu' hst
    rcases Table.get_set_cases hu' with ⟨rfl, rfl⟩ | ⟨-, hold⟩
    · exact absurd hst (Stage.ne_waitCopy_of_copy hv c)
    · exact h.inHand t' u' c hold hst
  dirty := by
    intro c y hy hd
    obtain ⟨t', u', hu', hi, hst⟩ := h.dirty c y hy hd
    refine ⟨t', u', get_call hu hu' ?_ v, hi, hst⟩
    rw [hst]
    exact (Stage.ne_listed_of_copy hustage c).symm
  listed := by
    intro t' u' c hu' hst
    rcases Table.get_set_cases hu' with ⟨rfl, rfl⟩ | ⟨-, hold⟩
    · exact absurd hst (Stage.ne_listed_of_copy hv c)
    · exact h.listed t' u' c hold hst
  fromCopy := h.fromCopy
  sent := h.sent

theorem addCall (h : Copies bios copies copyouts calls) {v : Call ι β}
    (hv : v.stage.copy = none) : Copies bios copies copyouts (calls ++ [v]) := by
  refine ⟨h.onList, h.nodup, fun c y hy hf => ?_, fun t u c hu hst => ?_, fun c y hy hd => ?_,
    fun t u c hu hst => ?_, h.fromCopy, h.sent⟩
  · rcases h.placed c y hy hf with hin | ⟨t, u, hu, hst⟩
    · exact Or.inl hin
    · exact Or.inr ⟨t, u, Table.get_concat hu v, hst⟩
  · rcases Table.get_concat_cases hu with hold | ⟨-, rfl⟩
    · exact h.inHand t u c hold hst
    · exact absurd hst (Stage.ne_waitCopy_of_copy hv c)
  · obtain ⟨t, u, hu, hrest⟩ := h.dirty c y hy hd
    exact ⟨t, u, Table.get_concat hu v, hrest⟩
  · rcases Table.get_concat_cases hu with hold | ⟨-, rfl⟩
    · exact h.listed t u c hold hst
    · exact absurd hst (Stage.ne_listed_of_copy hv c)

/-- A bio is sent from a buffer that is not a copy. -/
theorem addShared (h : Copies bios copies copyouts calls) {z : Bio ι β}
    (hz : z.source = none) : Copies (bios ++ [z]) copies copyouts calls := by
  refine { h with fromCopy := fun k x c hx hs => ?_, sent := fun c y hy hd => ?_ }
  · rcases Table.get_concat_cases hx with hold | ⟨-, rfl⟩
    · exact h.fromCopy k x c hold hs
    · rw [hz] at hs
      cases hs
  · obtain ⟨hreq, k, x, hx, hrest⟩ := h.sent c y hy hd
    exact ⟨hreq, k, x, Table.get_concat hx z, hrest⟩

/-- A bio that was sent from a buffer that is not a copy changes. -/
theorem setShared (h : Copies bios copies copyouts calls) {k : ℕ} {x z : Bio ι β}
    (hx : bios[k]? = some x) (hxs : x.source = none) (hzs : z.source = none) :
    Copies (bios.set k z) copies copyouts calls := by
  refine { h with fromCopy := fun m u c hu hs => ?_, sent := fun c y hy hd => ?_ }
  · rcases Table.get_set_cases hu with ⟨-, rfl⟩ | ⟨-, hold⟩
    · rw [hzs] at hs
      cases hs
    · exact h.fromCopy m u c hold hs
  · obtain ⟨hreq, m, u, hu, hs, hrest⟩ := h.sent c y hy hd
    have hne : u ≠ x := by
      rintro rfl
      rw [hxs] at hs
      cases hs
    exact ⟨hreq, m, u, Table.get_set_of_ne hx hu hne z, hs, hrest⟩

/-- A call puts a new copy on the list. -/
theorem addCopy [DecidableEq ι] (h : Copies bios copies copyouts calls) {t : ℕ} {u v : Call ι β}
    {z : Copy ι β} (hu : calls[t]? = some u) (hustage : u.stage.copy = none)
    (hvi : v.inode = z.owner) (hv : v.stage = .listed copies.length) (hzd : z.head.dirty = true)
    (hzf : z.freed = false) :
    Copies bios (copies ++ [z])
      (Function.update copyouts z.owner (copies.length :: copyouts z.owner)) (calls.set t v) := by
  have hnew : (copies ++ [z])[copies.length]? = some z := List.getElem?_concat_length
  have hfresh : ∀ i, copies.length ∉ copyouts i := by
    intro i hmem
    obtain ⟨y, hy, -⟩ := h.onList i _ hmem
    exact absurd (List.getElem?_eq_some_iff.mp hy).1 (lt_irrefl _)
  refine ⟨fun i c hc => ?_, Table.nodup_push h.nodup (hfresh _), fun c y hy hf => ?_,
    fun t' u' c hu' hst => ?_, fun c y hy hd => ?_, fun t' u' c hu' hst => ?_,
    fun k x c hx hs => ?_, fun c y hy hd => ?_⟩
  · rcases Table.mem_push_iff.mp hc with ⟨rfl, rfl⟩ | hc
    · exact ⟨z, hnew, rfl, hzf⟩
    · obtain ⟨y, hy, hrest⟩ := h.onList i c hc
      exact ⟨y, Table.get_concat hy z, hrest⟩
  · rcases Table.get_concat_cases hy with hy | ⟨rfl, rfl⟩
    · rcases h.placed c y hy hf with hin | ⟨t', u', hu', hst⟩
      · exact Or.inl (Table.mem_push_iff.mpr (Or.inr hin))
      · refine Or.inr ⟨t', u', get_call hu hu' ?_ v, hst⟩
        rw [hst]
        exact (Stage.ne_waitCopy_of_copy hustage c).symm
    · exact Or.inl (Table.mem_push_iff.mpr (Or.inl ⟨rfl, rfl⟩))
  · rcases Table.get_set_cases hu' with ⟨rfl, rfl⟩ | ⟨-, hu'⟩
    · rw [hv] at hst
      cases hst
    · obtain ⟨y, hy, ho, hf, hnot⟩ := h.inHand t' u' c hu' hst
      refine ⟨y, Table.get_concat hy z, ho, hf, fun hin => ?_⟩
      rcases Table.mem_push_iff.mp hin with ⟨-, rfl⟩ | hin
      · exact lt_irrefl _ (List.getElem?_eq_some_iff.mp hy).1
      · exact hnot hin
  · rcases Table.get_concat_cases hy with hy | ⟨rfl, rfl⟩
    · obtain ⟨t', u', hu', hi, hst⟩ := h.dirty c y hy hd
      refine ⟨t', u', get_call hu hu' ?_ v, hi, hst⟩
      rw [hst]
      exact (Stage.ne_listed_of_copy hustage c).symm
    · exact ⟨t, v, Table.get_set_self hu v, hvi, hv⟩
  · rcases Table.get_set_cases hu' with ⟨rfl, rfl⟩ | ⟨-, hu'⟩
    · rw [hv] at hst
      obtain rfl := Stage.listed.inj hst
      exact ⟨z, hnew, hvi.symm, hzd⟩
    · obtain ⟨y, hy, hrest⟩ := h.listed t' u' c hu' hst
      exact ⟨y, Table.get_concat hy z, hrest⟩
  · obtain ⟨y, hy, hrest⟩ := h.fromCopy k x c hx hs
    exact ⟨y, Table.get_concat hy z, hrest⟩
  · rcases Table.get_concat_cases hy with hy | ⟨rfl, rfl⟩
    · exact h.sent c y hy hd
    · rw [hzd] at hd
      cases hd

/-- A copy is replaced by one with the same contents. -/
theorem get_set {c c' : ℕ} {y y' z : Copy ι β} (hy : copies[c]? = some y)
    (hy' : copies[c']? = some y') (ho : z.owner = y.owner) (hb : z.block = y.block)
    (hd : z.data = y.data) (hf : z.freed = y.freed) :
    ∃ z', (copies.set c z)[c']? = some z' ∧ z'.owner = y'.owner ∧ z'.block = y'.block ∧
      z'.data = y'.data ∧ z'.freed = y'.freed := by
  by_cases hc : c' = c
  · subst hc
    obtain rfl := Option.some.inj (hy.symm.trans hy')
    exact ⟨z, Table.get_set_self hy z, ho, hb, hd, hf⟩
  · exact ⟨y', (List.getElem?_set_ne (Ne.symm hc)).trans hy', rfl, rfl, rfl, rfl⟩

/-- The call that made a copy sends it. -/
theorem sendCopy (h : Copies bios copies copyouts calls) (hex : Exclusive calls) {t c : ℕ}
    {u v : Call ι β} {y : Copy ι β} (hu : calls[t]? = some u) (hst : u.stage = .listed c)
    (hv : v.stage.copy = none) (hy : copies[c]? = some y) (stream : ℕ) :
    Copies (bios ++ [⟨y.block, some c, some stream, fun j => some (y.data j), false, false⟩])
      (copies.set c { y with head := y.head.bh2bio bios.length }) copyouts (calls.set t v) := by
  have hget := fun {c' : ℕ} {y' : Copy ι β} (hy' : copies[c']? = some y') =>
    get_set (z := { y with head := y.head.bh2bio bios.length }) hy hy' rfl rfl rfl rfl
  refine ⟨fun i c' hc' => ?_, h.nodup, fun c' z hz hf => ?_, fun t' u' c' hu' hst' => ?_,
    fun c' z hz hd => ?_, fun t' u' c' hu' hst' => ?_, fun k x c' hx hs => ?_,
    fun c' z hz hd => ?_⟩
  · obtain ⟨y', hy', ho, hf⟩ := h.onList i c' hc'
    obtain ⟨z, hz, hzo, -, -, hzf⟩ := hget hy'
    exact ⟨z, hz, hzo.trans ho, hzf.trans hf⟩
  · have hplaced : c' ∈ copyouts z.owner ∨ ∃ (t : ℕ) (u : Call ι β), calls[t]? = some u ∧
        u.stage = .waitCopy c' := by
      rcases Table.get_set_cases hz with ⟨rfl, rfl⟩ | ⟨-, hz⟩
      · exact h.placed c' y hy hf
      · exact h.placed c' z hz hf
    refine hplaced.imp id ?_
    rintro ⟨t', u', hu', hst'⟩
    exact ⟨t', u', get_call hu hu' (by rw [hst', hst]; intro he; cases he) v, hst'⟩
  · rcases Table.get_set_cases hu' with ⟨rfl, rfl⟩ | ⟨-, hu'⟩
    · exact absurd hst' (Stage.ne_waitCopy_of_copy hv c')
    · obtain ⟨y', hy', ho, hf, hnot⟩ := h.inHand t' u' c' hu' hst'
      obtain ⟨z, hz, hzo, -, -, hzf⟩ := hget hy'
      exact ⟨z, hz, hzo.trans ho, hzf.trans hf, hnot⟩
  · rcases Table.get_set_cases hz with ⟨rfl, rfl⟩ | ⟨hne, hz⟩
    · cases hd
    · obtain ⟨t', u', hu', hi, hst'⟩ := h.dirty c' z hz hd
      refine ⟨t', u', get_call hu hu' ?_ v, hi, hst'⟩
      rw [hst', hst]
      exact fun he => hne (Stage.listed.inj he)
  · rcases Table.get_set_cases hu' with ⟨rfl, rfl⟩ | ⟨hne, hu'⟩
    · exact absurd hst' (Stage.ne_listed_of_copy hv c')
    · obtain ⟨z, hz, hzo, hzd⟩ := h.listed t' u' c' hu' hst'
      -- another call for the copy would be for the same inode
      have hc : c ≠ c' := by
        rintro rfl
        obtain ⟨y', hy', ho, -⟩ := h.listed t u c hu hst
        obtain rfl := Option.some.inj (hz.symm.trans hy')
        refine hne (hex t' t u' u hu' hu (hzo.symm.trans ho) ?_ ?_)
        · rw [hst']
          rfl
        · rw [hst]
          rfl
      exact ⟨z, (List.getElem?_set_ne hc).trans hz, hzo, hzd⟩
  · rcases Table.get_concat_cases hx with hx | ⟨rfl, rfl⟩
    · obtain ⟨y', hy', hb, hd⟩ := h.fromCopy k x c' hx hs
      obtain ⟨z, hz, -, hzb, hzd, -⟩ := hget hy'
      exact ⟨z, hz, hb.trans hzb.symm, by rw [hd, hzd]⟩
    · obtain rfl := Option.some.inj hs
      exact ⟨_, Table.get_set_self hy _, rfl, rfl⟩
  · rcases Table.get_set_cases hz with ⟨rfl, rfl⟩ | ⟨-, hz⟩
    · exact ⟨rfl, bios.length, _, List.getElem?_concat_length, rfl, by intro hl; cases hl⟩
    · obtain ⟨hreq, k, x, hx, hrest⟩ := h.sent c' z hz hd
      exact ⟨hreq, k, x, Table.get_concat hx _, hrest⟩

/-- The bio of a copy is completed. -/
theorem completeCopy (h : Copies bios copies copyouts calls) {k c : ℕ} {x : Bio ι β}
    {y : Copy ι β} (hx : bios[k]? = some x) (hs : x.source = some c)
    (hy : copies[c]? = some y) (failed : Bool) :
    Copies (bios.set k { x with done := true, failed := failed })
      (copies.set c { y with head := y.head.endBufferWriteSync failed }) copyouts calls := by
  have hget := fun {c' : ℕ} {y' : Copy ι β} (hy' : copies[c']? = some y') =>
    get_set (z := { y with head := y.head.endBufferWriteSync failed }) hy hy' rfl rfl rfl rfl
  refine ⟨fun i c' hc' => ?_, h.nodup, fun c' z hz hf => ?_, fun t' u' c' hu' hst' => ?_,
    fun c' z hz hd => ?_, fun t' u' c' hu' hst' => ?_, fun m u c' hu hsu => ?_,
    fun c' z hz hd => ?_⟩
  · obtain ⟨y', hy', ho, hf⟩ := h.onList i c' hc'
    obtain ⟨z, hz, hzo, -, -, hzf⟩ := hget hy'
    exact ⟨z, hz, hzo.trans ho, hzf.trans hf⟩
  · rcases Table.get_set_cases hz with ⟨rfl, rfl⟩ | ⟨-, hz⟩
    · exact h.placed c' y hy hf
    · exact h.placed c' z hz hf
  · obtain ⟨y', hy', ho, hf, hnot⟩ := h.inHand t' u' c' hu' hst'
    obtain ⟨z, hz, hzo, -, -, hzf⟩ := hget hy'
    exact ⟨z, hz, hzo.trans ho, hzf.trans hf, hnot⟩
  · rcases Table.get_set_cases hz with ⟨rfl, rfl⟩ | ⟨-, hz⟩
    · exact h.dirty c' y hy hd
    · exact h.dirty c' z hz hd
  · obtain ⟨y', hy', ho, hd⟩ := h.listed t' u' c' hu' hst'
    by_cases hc : c' = c
    · subst hc
      obtain rfl := Option.some.inj (hy.symm.trans hy')
      exact ⟨_, Table.get_set_self hy _, ho, hd⟩
    · exact ⟨y', (List.getElem?_set_ne (Ne.symm hc)).trans hy', ho, hd⟩
  · have hfrom : ∃ y', copies[c']? = some y' ∧ u.block = y'.block ∧
        u.taken = fun j => some (y'.data j) := by
      rcases Table.get_set_cases hu with ⟨rfl, rfl⟩ | ⟨-, hu⟩
      · exact h.fromCopy m x c' hx hsu
      · exact h.fromCopy m u c' hu hsu
    obtain ⟨y', hy', hb, hd⟩ := hfrom
    obtain ⟨z, hz, -, hzb, hzd, -⟩ := hget hy'
    exact ⟨z, hz, hb.trans hzb.symm, by rw [hd, hzd]⟩
  · rcases Table.get_set_cases hz with ⟨rfl, rfl⟩ | ⟨hne, hz⟩
    · exact ⟨(h.sent c' y hy hd).1, k, _, Table.get_set_self hx _, hs, fun _ => ⟨rfl, rfl⟩⟩
    · obtain ⟨hreq, m, u, hu, hsu, hrest⟩ := h.sent c' z hz hd
      have hux : u ≠ x := by
        rintro rfl
        exact hne (Option.some.inj (hsu.symm.trans hs))
      exact ⟨hreq, m, u, Table.get_set_of_ne hx hu hux _, hsu, hrest⟩

/-- A call takes the last copy off its list. -/
theorem take [DecidableEq ι] (h : Copies bios copies copyouts calls) {t c : ℕ} {u v : Call ι β}
    (hu : calls[t]? = some u) (hst : u.stage = .drainCopies) (hvi : v.inode = u.inode)
    (hv : v.stage = .waitCopy c) (hc : (copyouts u.inode).getLast? = some c) :
    Copies bios copies (Function.update copyouts u.inode (copyouts u.inode).dropLast)
      (calls.set t v) := by
  have hmem : ∀ {i : ι} {c' : ℕ}, c' ∈ Function.update copyouts u.inode
      (copyouts u.inode).dropLast i ↔ c' ∈ copyouts i ∧ ¬ (i = u.inode ∧ c' = c) :=
    Table.mem_pop_iff (h.nodup u.inode) hc
  have hcall : ∀ {t' : ℕ} {u' : Call ι β}, calls[t']? = some u' → u'.stage ≠ .drainCopies →
      (calls.set t v)[t']? = some u' := fun hu' hne => get_call hu hu' (hst ▸ hne) v
  obtain ⟨y, hy, ho, hf⟩ := h.onList u.inode c (List.mem_of_getLast? hc)
  refine ⟨fun i c' hc' => h.onList i c' (hmem.mp hc').1, Table.nodup_pop h.nodup,
    fun c' z hz hzf => ?_, fun t' u' c' hu' hst' => ?_, fun c' z hz hd => ?_,
    fun t' u' c' hu' hst' => ?_, h.fromCopy, h.sent⟩
  · rcases h.placed c' z hz hzf with hin | ⟨t', u', hu', hst'⟩
    · by_cases hlast : z.owner = u.inode ∧ c' = c
      · rw [hlast.2]
        exact Or.inr ⟨t, v, Table.get_set_self hu v, hv⟩
      · exact Or.inl (hmem.mpr ⟨hin, hlast⟩)
    · exact Or.inr ⟨t', u', hcall hu' (by rw [hst']; intro he; cases he), hst'⟩
  · rcases Table.get_set_cases hu' with ⟨rfl, rfl⟩ | ⟨-, hu'⟩
    · rw [hv] at hst'
      obtain rfl := Stage.waitCopy.inj hst'
      exact ⟨y, hy, ho.trans hvi.symm, hf, fun hin => (hmem.mp hin).2 ⟨hvi, rfl⟩⟩
    · obtain ⟨y', hy', ho', hf', hnot⟩ := h.inHand t' u' c' hu' hst'
      exact ⟨y', hy', ho', hf', fun hin => hnot (hmem.mp hin).1⟩
  · obtain ⟨t', u', hu', hi, hst'⟩ := h.dirty c' z hz hd
    exact ⟨t', u', hcall hu' (by rw [hst']; intro he; cases he), hi, hst'⟩
  · rcases Table.get_set_cases hu' with ⟨rfl, rfl⟩ | ⟨-, hu'⟩
    · rw [hv] at hst'
      cases hst'
    · exact h.listed t' u' c' hu' hst'

/-- A call frees the copy in its hands. -/
theorem free (h : Copies bios copies copyouts calls) (hex : Exclusive calls) {t c : ℕ}
    {u v : Call ι β} {y : Copy ι β} (hu : calls[t]? = some u) (hst : u.stage = .waitCopy c)
    (hv : v.stage.copy = none) (hy : copies[c]? = some y) :
    Copies bios (copies.set c { y with freed := true }) copyouts (calls.set t v) := by
  obtain ⟨y', hy', ho, -, hnot⟩ := h.inHand t u c hu hst
  obtain rfl := Option.some.inj (hy.symm.trans hy')
  have hd : u.stage.isDone = false := by rw [hst]; rfl
  have hcall : ∀ {t' : ℕ} {u' : Call ι β}, calls[t']? = some u' → u'.stage ≠ .waitCopy c →
      (calls.set t v)[t']? = some u' := fun hu' hne => get_call hu hu' (hst ▸ hne) v
  -- the copy is on no list and in no other call's hands
  have hother : ∀ i, c ∉ copyouts i := by
    intro i hin
    obtain ⟨z, hz, hzo, -⟩ := h.onList i c hin
    obtain rfl := Option.some.inj (hy.symm.trans hz)
    rw [← hzo, ho] at hin
    exact hnot hin
  have hget : ∀ {c' : ℕ} {z : Copy ι β}, copies[c']? = some z → c' ≠ c →
      (copies.set c { y with freed := true })[c']? = some z :=
    fun hz hne => (List.getElem?_set_ne (Ne.symm hne)).trans hz
  refine ⟨fun i c' hc' => ?_, h.nodup, fun c' z hz hf => ?_, fun t' u' c' hu' hst' => ?_,
    fun c' z hz hzd => ?_, fun t' u' c' hu' hst' => ?_, fun k x c' hx hs => ?_,
    fun c' z hz hzd => ?_⟩
  · obtain ⟨z, hz, hrest⟩ := h.onList i c' hc'
    refine ⟨z, hget hz ?_, hrest⟩
    rintro rfl
    exact hother i hc'
  · rcases Table.get_set_cases hz with ⟨rfl, rfl⟩ | ⟨hne, hz⟩
    · cases hf
    · refine (h.placed c' z hz hf).imp id ?_
      rintro ⟨t', u', hu', hst'⟩
      refine ⟨t', u', hcall hu' ?_, hst'⟩
      rw [hst']
      exact fun he => hne (Stage.waitCopy.inj he)
  · rcases Table.get_set_cases hu' with ⟨rfl, rfl⟩ | ⟨hne, hu'⟩
    · exact absurd hst' (Stage.ne_waitCopy_of_copy hv c')
    · obtain ⟨z, hz, hzo, hrest⟩ := h.inHand t' u' c' hu' hst'
      refine ⟨z, hget hz ?_, hzo, hrest⟩
      rintro rfl
      obtain rfl := Option.some.inj (hy.symm.trans hz)
      refine hne (hex t' t u' u hu' hu (hzo.symm.trans ho) ?_ hd)
      rw [hst']
      rfl
  · have hold : ∃ z', copies[c']? = some z' ∧ z'.owner = z.owner ∧ z'.head = z.head := by
      rcases Table.get_set_cases hz with ⟨rfl, rfl⟩ | ⟨-, hz⟩
      · exact ⟨y, hy, rfl, rfl⟩
      · exact ⟨z, hz, rfl, rfl⟩
    obtain ⟨z', hz', hzo, hzh⟩ := hold
    rw [← hzh] at hzd
    obtain ⟨t', u', hu', hi, hst'⟩ := h.dirty c' z' hz' hzd
    exact ⟨t', u', hcall hu' (by rw [hst']; intro he; cases he), hi.trans hzo, hst'⟩
  · rcases Table.get_set_cases hu' with ⟨rfl, rfl⟩ | ⟨-, hu'⟩
    · exact absurd hst' (Stage.ne_listed_of_copy hv c')
    · obtain ⟨z, hz, hzo, hzd⟩ := h.listed t' u' c' hu' hst'
      by_cases hc : c' = c
      · subst hc
        obtain rfl := Option.some.inj (hy.symm.trans hz)
        exact ⟨_, Table.get_set_self hy _, hzo, hzd⟩
      · exact ⟨z, hget hz hc, hzo, hzd⟩
  · obtain ⟨z, hz, hb, hd'⟩ := h.fromCopy k x c' hx hs
    by_cases hc : c' = c
    · subst hc
      obtain rfl := Option.some.inj (hy.symm.trans hz)
      exact ⟨_, Table.get_set_self hy _, hb, hd'⟩
    · exact ⟨z, hget hz hc, hb, hd'⟩
  · rcases Table.get_set_cases hz with ⟨rfl, rfl⟩ | ⟨-, hz⟩
    · exact h.sent c' y hy hzd
    · exact h.sent c' z hz hzd

end Copies

end CcNvme.PageSharing

/-
CcNvme/PageSharing/Newest.lean

The newest write of an inode-table block.  The bios of a block come from the buffer and from
copies, on different streams, and the one that was sent last is the one that recovery and
checkpoint keep.  It has every change for which a call has returned, as long as no bio of the block
is sent between `copy_out_bh` and the submission of the copy (`Act.prompt`).  Nothing in the code
forbids that: the copier holds neither `b_assoc_map` nor the buffer lock there, and a copy that is
overtaken takes the block back to what it was (at the end).
-/
import CcNvme.PageSharing.Written

namespace CcNvme.PageSharing

open Snapshot (floor Bounded)

variable {ι β : Type}

/-! ### The condition -/

/-- The call has begun to copy the block and has not sent the copy. -/
def Stage.holdsCopy : Stage ι β → Bool
  | .copying _ | .listed _ => true
  | _ => false

/-- Whether call `u` is in the way of a bio for block `b`. -/
def Call.inWay [DecidableEq β] (blk : ι → β) (b : β) (u : Call ι β) : Bool :=
  decide (blk u.inode = b) && u.stage.holdsCopy

/-- No bio of a block is sent while another call has copied the block and not sent the copy. -/
def Act.prompt [DecidableEq β] (blk : ι → β) (w : World ι β) : Act ι β → Bool
  | .flush b => !(w.heads b).dirty || w.calls.all fun u => !u.inWay blk b
  | .go t =>
      match w.calls[t]? with
      | none => true
      | some u =>
          match u.stage with
          | .claimed =>
              !(w.heads (blk u.inode)).dirty ||
                (w.calls.eraseIdx t).all fun u' => !u'.inWay blk (blk u.inode)
          | .listed _ => (w.calls.eraseIdx t).all fun u' => !u'.inWay blk (blk u.inode)
          | _ => true
  | _ => true

/-! ### The newest bio of a block -/

/-- Bio `k` of the list is the last for block `b`. -/
structure IsNewest (l : List (Bio ι β)) (b : β) (k : ℕ) (x : Bio ι β) : Prop where
  get : l[k]? = some x
  block : x.block = b
  last : ∀ (m : ℕ) (z : Bio ι β), l[m]? = some z → z.block = b → m ≤ k

namespace IsNewest

variable {l l' : List (Bio ι β)} {b : β} {k k' : ℕ} {x x' z : Bio ι β}

theorem unique (h : IsNewest l b k x) (h' : IsNewest l b k' x') : x = x' := by
  obtain rfl := le_antisymm (h'.last k x h.get h.block) (h.last k' x' h'.get h'.block)
  exact Option.some.inj (h.get.symm.trans h'.get)

/-- A bio that is added is the newest of its block. -/
theorem concat_self (l : List (Bio ι β)) (z : Bio ι β) :
    IsNewest (l ++ [z]) z.block l.length z := by
  refine ⟨List.getElem?_concat_length, rfl, fun m y hy _ => ?_⟩
  have hlt := (List.getElem?_eq_some_iff.mp hy).1
  rw [List.length_append, List.length_singleton] at hlt
  exact Nat.lt_succ_iff.mp hlt

theorem concat_iff (hz : z.block ≠ b) : IsNewest (l ++ [z]) b k x ↔ IsNewest l b k x := by
  constructor
  · intro h
    rcases Table.get_concat_cases h.get with hget | ⟨-, rfl⟩
    · exact ⟨hget, h.block, fun m y hy hb => h.last m y (Table.get_concat hy z) hb⟩
    · exact absurd h.block hz
  · intro h
    refine ⟨Table.get_concat h.get z, h.block, fun m y hy hb => ?_⟩
    rcases Table.get_concat_cases hy with hy | ⟨-, rfl⟩
    · exact h.last m y hy hb
    · exact absurd hb hz

end IsNewest

section Tops

variable (blk : ι → β) (w : World ι β)

/-- The newest bio of the block is sure to have change `v` of inode `j`. -/
def OnTop (j : ι) (v : ℕ) : Prop :=
  v = 0 ∨ ∃ (k : ℕ) (x : Bio ι β), IsNewest w.bios (blk j) k x ∧ v ≤ floor w.data x.taken j

/-- The snapshot `got` of block `b` is as new as the newest bio of the block, of which everything
has been read, and has what is marked unless the buffer is dirty. -/
def Fresh (b : β) (got : ι → Option ℕ) : Prop :=
  ∀ j, blk j = b →
    (∀ (k : ℕ) (x : Bio ι β), IsNewest w.bios b k x → (x.taken j).isSome) ∧
    ∀ n, got j = some n →
      (∀ (k : ℕ) (x : Bio ι β) (m : ℕ), IsNewest w.bios b k x → x.taken j = some m → m ≤ n) ∧
        ((w.heads b).dirty = true ∨ w.marked j ≤ n)

/-- `ext4_write_inode` has sent the block. -/
def Stage.isSent : Stage ι β → Bool
  | .check | .written | .drain | .waitBuf _ | .drainCopies | .waitCopy _ | .done _ => true
  | _ => false

structure Tops (u : Call ι β) : Prop where
  check : u.stage = .check → OnTop blk w u.inode u.since
  sent : u.stage.isSent = true → u.werr ≠ -12 → OnTop blk w u.inode u.since
  copying : ∀ got, u.stage = .copying got →
    Bounded w.data got ∧ Fresh blk w (blk u.inode) got
  listed : ∀ c, u.stage = .listed c →
    ∃ y, w.copies[c]? = some y ∧ Fresh blk w (blk u.inode) fun j => some (y.data j)

structure Order : Prop where
  bios : ∀ x ∈ w.bios, Bounded w.data x.taken
  copies : ∀ y ∈ w.copies, ∀ j, y.data j ≤ w.data j
  clean : ∀ j, (w.heads (blk j)).dirty = false → OnTop blk w j (w.marked j)
  calls : ∀ (t : ℕ) (u : Call ι β), w.calls[t]? = some u → Tops blk w u

end Tops

variable {blk : ι → β} {w w' : World ι β} {t : ℕ} {u v : Call ι β}

theorem OnTop.mono {j : ι} {m n : ℕ} (h : OnTop blk w j n) (hm : m ≤ n) : OnTop blk w j m := by
  rcases h with rfl | ⟨k, x, hx, hv⟩
  · exact Or.inl (Nat.le_zero.mp hm)
  · exact Or.inr ⟨k, x, hx, hm.trans hv⟩

/-- What the newest bio has is in the buffer. -/
theorem Order.le_data (h : Order blk w) {j : ι} {n : ℕ} (hn : OnTop blk w j n) :
    n ≤ w.data j := by
  rcases hn with rfl | ⟨k, x, hx, hv⟩
  · exact Nat.zero_le _
  · exact hv.trans ((h.bios x (List.mem_of_getElem? hx.get)).floor_le j)

/-- What the newest bio has is in a snapshot that is as new. -/
theorem Fresh.le {b : β} {got : ι → Option ℕ} (h : Fresh blk w b got) {j : ι} {m n : ℕ}
    (hj : blk j = b) (hn : got j = some n) (hm : OnTop blk w j m) : m ≤ n := by
  rcases hm with rfl | ⟨k, x, hx, hv⟩
  · exact Nat.zero_le _
  · rw [hj] at hx
    obtain ⟨m', hm'⟩ := Option.isSome_iff_exists.mp ((h j hj).1 k x hx)
    rw [Snapshot.floor_of_some hm'] at hv
    exact hv.trans (((h j hj).2 n hn).1 k x m' hx hm')

/-! ### Steps that send nothing -/

/-- No bio is sent on the way from `w` to `w'`, and no buffer is cleaned. -/
structure Quiet (blk : ι → β) (w w' : World ι β) : Prop where
  data : ∀ j, w.data j ≤ w'.data j
  later : BiosLater w.data w'.data w.bios w'.bios
  back : ∀ (k : ℕ) (x' : Bio ι β), w'.bios[k]? = some x' → ∃ x, w.bios[k]? = some x ∧
    x'.block = x.block ∧ ∀ j n, x.taken j = some n → x'.taken j = some n
  dirty : ∀ b, (w'.heads b).dirty = false → (w.heads b).dirty = false
  marked : ∀ j, w'.marked j = w.marked j ∨ (w'.heads (blk j)).dirty = true
  copies : CopiesLater w.copies w'.copies

namespace Quiet

/-- Only the lists, the calls and bits of the buffers change, and copies are made. -/
theorem of_eq (hd : w'.data = w.data) (hm : w'.marked = w.marked) (hb : w'.bios = w.bios)
    (hc : CopiesLater w.copies w'.copies)
    (hh : ∀ b, (w'.heads b).dirty = false → (w.heads b).dirty = false) : Quiet blk w w' := by
  refine ⟨fun j => by rw [hd], ?_, fun k x hx => ⟨x, ?_, rfl, fun _ _ h => h⟩, hh,
    fun j => Or.inl (by rw [hm]), hc⟩
  · rw [hd, hb]
    exact BiosLater.refl (fun _ => le_rfl) _
  · rwa [hb] at hx

theorem newest (q : Quiet blk w w') {b : β} {k : ℕ} {x : Bio ι β} (h : IsNewest w.bios b k x) :
    ∃ x', IsNewest w'.bios b k x' ∧ ∀ j, floor w.data x.taken j ≤ floor w'.data x'.taken j := by
  obtain ⟨x', hx', hb, -, -, hf⟩ := q.later k x h.get
  refine ⟨x', ⟨hx', hb.trans h.block, fun m z hz hzb => ?_⟩, hf⟩
  obtain ⟨y, hy, hyb, -⟩ := q.back m z hz
  exact h.last m y hy (hyb.symm.trans hzb)

theorem newest_back (q : Quiet blk w w') {b : β} {k : ℕ} {x' : Bio ι β}
    (h : IsNewest w'.bios b k x') :
    ∃ x, IsNewest w.bios b k x ∧ ∀ j n, x.taken j = some n → x'.taken j = some n := by
  obtain ⟨x, hx, hb, ht⟩ := q.back k x' h.get
  refine ⟨x, ⟨hx, hb.symm.trans h.block, fun m z hz hzb => ?_⟩, ht⟩
  obtain ⟨z', hz', hzb', -⟩ := q.later m z hz
  exact h.last m z' hz' (hzb'.trans hzb)

theorem onTop (q : Quiet blk w w') {j : ι} {n : ℕ} (h : OnTop blk w j n) : OnTop blk w' j n := by
  rcases h with hn | ⟨k, x, hx, hv⟩
  · exact Or.inl hn
  · obtain ⟨x', hx', hf⟩ := q.newest hx
    exact Or.inr ⟨k, x', hx', hv.trans (hf j)⟩

theorem fresh (q : Quiet blk w w') {b : β} {got : ι → Option ℕ} (h : Fresh blk w b got) :
    Fresh blk w' b got := by
  intro j hj
  obtain ⟨htaken, hgot⟩ := h j hj
  refine ⟨fun k x' hx' => ?_, fun n hn => ⟨fun k x' m hx' hm => ?_, ?_⟩⟩
  · obtain ⟨x, hx, ht⟩ := q.newest_back hx'
    obtain ⟨m, hm⟩ := Option.isSome_iff_exists.mp (htaken k x hx)
    rw [ht j m hm, Option.isSome_some]
  · obtain ⟨x, hx, ht⟩ := q.newest_back hx'
    obtain ⟨m', hm'⟩ := Option.isSome_iff_exists.mp (htaken k x hx)
    rw [ht j m' hm'] at hm
    obtain rfl := Option.some.inj hm
    exact (hgot n hn).1 k x m' hx hm'
  · rcases q.marked j with hmark | hdirty
    · rw [hmark]
      refine (hgot n hn).2.imp (fun hd => ?_) id
      by_contra hne
      rw [q.dirty b (Bool.eq_false_of_not_eq_true hne)] at hd
      cases hd
    · rw [hj] at hdirty
      exact Or.inl hdirty

theorem tops (q : Quiet blk w w') (h : Tops blk w u) : Tops blk w' u where
  check := fun hst => q.onTop (h.check hst)
  sent := fun hs he => q.onTop (h.sent hs he)
  copying := fun got hst =>
    ⟨(h.copying got hst).1.mono q.data, q.fresh (h.copying got hst).2⟩
  listed := by
    intro c hst
    obtain ⟨y, hy, hf⟩ := h.listed c hst
    obtain ⟨y', hy', -, -, hd⟩ := q.copies c y hy
    refine ⟨y', hy', ?_⟩
    rw [hd]
    exact q.fresh hf

/-- **Steps that send nothing** keep the order, if the calls that change are as they should be. -/
theorem order (q : Quiet blk w w') (h : Order blk w)
    (hbios : ∀ x ∈ w'.bios, Bounded w'.data x.taken)
    (hcopies : ∀ y ∈ w'.copies, ∀ j, y.data j ≤ w'.data j)
    (hcalls : ∀ (t : ℕ) (u : Call ι β), w'.calls[t]? = some u →
      w.calls[t]? = some u ∨ Tops blk w' u) : Order blk w' where
  bios := hbios
  copies := hcopies
  clean := by
    intro j hj
    rcases q.marked j with hm | hd
    · rw [hm]
      exact q.onTop (h.clean j (q.dirty _ hj))
    · rw [hj] at hd
      cases hd
  calls := by
    intro t u hu
    rcases hcalls t u hu with hold | hnew
    · exact q.tops (h.calls t u hold)
    · exact hnew

end Quiet

/-! ### Steps that send a bio -/

/-- The bio that is sent is the newest of its block. -/
theorem OnTop.of_sent {z : Bio ι β} (hbios : w'.bios = w.bios ++ [z]) (hdata : w'.data = w.data)
    {j : ι} {n : ℕ} (hj : blk j = z.block) (hn : n ≤ floor w.data z.taken j) :
    OnTop blk w' j n := by
  refine Or.inr ⟨w.bios.length, z, ?_, by rwa [hdata]⟩
  rw [hbios, hj]
  exact IsNewest.concat_self _ _

/-- The newest bios of the other blocks are what they were. -/
theorem OnTop.of_ne {z : Bio ι β} (hbios : w'.bios = w.bios ++ [z]) (hdata : w'.data = w.data)
    {j : ι} {n : ℕ} (hj : blk j ≠ z.block) (hn : OnTop blk w j n) : OnTop blk w' j n := by
  refine hn.imp id ?_
  rintro ⟨k, x, hx, hv⟩
  refine ⟨k, x, ?_, by rwa [hdata]⟩
  rw [hbios]
  exact (IsNewest.concat_iff (Ne.symm hj)).mpr hx

theorem Fresh.of_ne {z : Bio ι β} (hbios : w'.bios = w.bios ++ [z])
    (hmarked : w'.marked = w.marked) {b : β} (hb : b ≠ z.block)
    (hdirty : (w'.heads b).dirty = (w.heads b).dirty) {got : ι → Option ℕ}
    (h : Fresh blk w b got) : Fresh blk w' b got := by
  intro j hj
  have hiff : ∀ {k : ℕ} {x : Bio ι β}, IsNewest w'.bios b k x ↔ IsNewest w.bios b k x := by
    rw [hbios]
    exact IsNewest.concat_iff (Ne.symm hb)
  obtain ⟨htaken, hgot⟩ := h j hj
  refine ⟨fun k x hx => htaken k x (hiff.mp hx), fun n hn => ⟨fun k x m hx => ?_, ?_⟩⟩
  · exact (hgot n hn).1 k x m (hiff.mp hx)
  · rw [hdirty, hmarked]
    exact (hgot n hn).2

/-- **A bio is sent** that has at least what the newest one of its block has, and what is marked if
the buffer is clean afterwards, while no other call has a copy of the block. -/
theorem Order.send (h : Order blk w) {z : Bio ι β} (hbios : w'.bios = w.bios ++ [z])
    (hdata : w'.data = w.data) (hmarked : w'.marked = w.marked)
    (hlater : CopiesLater w.copies w'.copies)
    (hcopies : ∀ y ∈ w'.copies, ∀ j, y.data j ≤ w.data j) (hz : Bounded w.data z.taken)
    (hdirty : ∀ b, b ≠ z.block → (w'.heads b).dirty = (w.heads b).dirty)
    (htop : ∀ j n, blk j = z.block → OnTop blk w j n → n ≤ floor w.data z.taken j)
    (hclean : ∀ j, blk j = z.block → (w'.heads z.block).dirty = false →
      w.marked j ≤ floor w.data z.taken j)
    (hway : ∀ (t : ℕ) (u : Call ι β), w'.calls[t]? = some u → blk u.inode = z.block →
      u.stage.holdsCopy = false)
    (hcalls : ∀ (t : ℕ) (u : Call ι β), w'.calls[t]? = some u → w.calls[t]? = some u ∨
      (u.stage.isSent = true ∧ OnTop blk w' u.inode u.since)) : Order blk w' := by
  have hon : ∀ {j : ι} {n : ℕ}, OnTop blk w j n → OnTop blk w' j n := by
    intro j n hn
    by_cases hj : blk j = z.block
    · exact OnTop.of_sent hbios hdata hj (htop j n hj hn)
    · exact hn.of_ne hbios hdata hj
  refine ⟨?_, ?_, fun j hj => ?_, fun t u hu => ?_⟩
  · rw [hbios, hdata]
    intro x hx
    rcases List.mem_append.mp hx with hx | hx
    · exact h.bios x hx
    · rw [List.mem_singleton.mp hx]
      exact hz
  · rw [hdata]
    exact hcopies
  · rw [hmarked]
    by_cases hb : blk j = z.block
    · rw [hb] at hj
      exact OnTop.of_sent hbios hdata hb (hclean j hb hj)
    · rw [hdirty _ hb] at hj
      exact (h.clean j hj).of_ne hbios hdata hb
  · have hfresh : u.stage.holdsCopy = true → ∀ {got : ι → Option ℕ},
        Fresh blk w (blk u.inode) got → Fresh blk w' (blk u.inode) got := by
      intro hhold got hf
      have hb : blk u.inode ≠ z.block := by
        intro hb
        rw [hway t u hu hb] at hhold
        cases hhold
      exact hf.of_ne hbios hmarked hb (hdirty _ hb)
    rcases hcalls t u hu with hold | ⟨hsent, htops⟩
    · have hu := h.calls t u hold
      refine ⟨fun hst => hon (hu.check hst), fun hs he => hon (hu.sent hs he),
        fun got hst => ?_, fun c hst => ?_⟩
      · refine ⟨?_, hfresh (by rw [hst]; rfl) (hu.copying got hst).2⟩
        rw [hdata]
        exact (hu.copying got hst).1
      · obtain ⟨y, hy, hf⟩ := hu.listed c hst
        obtain ⟨y', hy', -, -, hd⟩ := hlater c y hy
        refine ⟨y', hy', ?_⟩
        rw [hd]
        exact hfresh (by rw [hst]; rfl) hf
    · refine ⟨fun _ => htops, fun _ _ => htops, fun got hst => ?_, fun c hst => ?_⟩ <;>
        rw [hst] at hsent <;> cases hsent

section Steps

variable [DecidableEq ι] [DecidableEq β]

omit [DecidableEq ι] in
theorem of_all_inWay {l : List (Call ι β)} {b : β} (h : (l.all fun u => !u.inWay blk b) = true)
    (hu : u ∈ l) (hb : blk u.inode = b) : u.stage.holdsCopy = false := by
  have hall := List.all_eq_true.mp h u hu
  rw [Call.inWay, decide_eq_true hb, Bool.true_and] at hall
  simpa using hall

omit [DecidableEq ι] in
/-- The buffer is sent, or is not dirty. -/
theorem txWriteDirtyBuffer_order {b : β} {stream : Option ℕ} (h : Order blk w) (hinv : Inv blk w)
    (hw : w.txWriteDirtyBuffer b stream = some w')
    (hway : (w.heads b).dirty = true → ∀ (t : ℕ) (u : Call ι β), w.calls[t]? = some u →
      blk u.inode = b → u.stage.holdsCopy = false) :
    Order blk w' ∧ w'.calls = w.calls ∧ w'.marked = w.marked ∧
      ∀ j, blk j = b → OnTop blk w' j (w.marked j) := by
  unfold World.txWriteDirtyBuffer at hw
  split_ifs at hw with hlock hdirty <;> obtain rfl := Option.some.inj hw
  · have horder : Order blk { w.setHead b ((w.heads b).bh2bio w.bios.length) with
        bios := w.bios ++ [⟨b, none, stream, fun _ => none, false, false⟩] } := by
      refine h.send rfl rfl rfl (CopiesLater.refl _) h.copies (Snapshot.bounded_none _) ?_ ?_ ?_
        (hway hdirty) fun t u hu => Or.inl hu
      · intro b' hb'
        show (Function.update w.heads b _ b').dirty = _
        rw [Function.update_of_ne hb']
      · intro j n _ hn
        exact h.le_data hn
      · intro j _ _
        exact hinv.marked j
    refine ⟨horder, rfl, rfl, fun j hj => horder.clean j ?_⟩
    show (Function.update w.heads b _ (blk j)).dirty = false
    rw [hj, Function.update_self]
    rfl
  · refine ⟨h, rfl, rfl, fun j hj => h.clean j ?_⟩
    rw [hj]
    exact Bool.eq_false_of_not_eq_true hdirty

omit [DecidableEq ι] in
theorem getInodeLoc_order {b : β} (h : Order blk w) (hw : w.getInodeLoc b = some w') :
    Order blk w' := by
  unfold World.getInodeLoc at hw
  split_ifs at hw with hup hlock hio <;> obtain rfl := Option.some.inj hw
  · exact h
  · have q : Quiet blk w (w.setHead b { w.heads b with uptodate := true }) := by
      refine Quiet.of_eq rfl rfl rfl (CopiesLater.refl _) fun b' hb' => ?_
      change (Function.update w.heads b _ b').dirty = false at hb'
      by_cases hb : b' = b
      · subst hb
        rwa [Function.update_self] at hb'
      · rwa [Function.update_of_ne hb] at hb'
    exact q.order h h.bios h.copies fun t u hu => Or.inl hu
  · have q : Quiet blk w w.fault := Quiet.of_eq rfl rfl rfl (CopiesLater.refl _) fun _ hb => hb
    exact q.order h h.bios h.copies fun t u hu => Or.inl hu

omit [DecidableEq β] in
theorem fill_order (h : Order blk w) (i : ι) :
    Order blk { w with data := Function.update w.data i (w.data i + 1) } := by
  have hdata : ∀ j, w.data j ≤ Function.update w.data i (w.data i + 1) j := by
    intro j
    by_cases hj : j = i
    · subst hj
      rw [Function.update_self]
      exact Nat.le_succ _
    · rw [Function.update_of_ne hj]
  have q : Quiet blk w { w with data := Function.update w.data i (w.data i + 1) } :=
    ⟨hdata, BiosLater.refl hdata _, fun k x hx => ⟨x, hx, rfl, fun _ _ h => h⟩, fun _ hb => hb,
      fun _ => Or.inl rfl, CopiesLater.refl _⟩
  exact q.order h (fun x hx => (h.bios x hx).mono hdata)
    (fun y hy j => (h.copies y hy j).trans (hdata j)) fun t u hu => Or.inl hu

theorem mark_order (h : Order blk w) (i : ι) :
    Order blk { w.setHead (blk i) { w.heads (blk i) with dirty := true } with
      marked := Function.update w.marked i (w.data i) } := by
  have q : Quiet blk w { w.setHead (blk i) { w.heads (blk i) with dirty := true } with
      marked := Function.update w.marked i (w.data i) } := by
    refine ⟨fun _ => le_rfl, BiosLater.refl (fun _ => le_rfl) _,
      fun k x hx => ⟨x, hx, rfl, fun _ _ h => h⟩, fun b hb => ?_, fun j => ?_,
      CopiesLater.refl _⟩
    · change (Function.update w.heads (blk i) _ b).dirty = false at hb
      by_cases heq : b = blk i
      · rw [heq, Function.update_self] at hb
        cases hb
      · rwa [Function.update_of_ne heq] at hb
    · by_cases hj : j = i
      · refine Or.inr ?_
        show (Function.update w.heads (blk i) _ (blk j)).dirty = true
        rw [hj, Function.update_self]
      · exact Or.inl (Function.update_of_ne hj _ _)
  exact q.order h h.bios h.copies fun t u hu => Or.inl hu

omit [DecidableEq ι] [DecidableEq β] in
/-- A bio changes of which the device goes on reading. -/
theorem setBio_order {k : ℕ} {x z : Bio ι β} (h : Order blk w) (hx : w.bios[k]? = some x)
    (hd : x.done = false) (hb : z.block = x.block) (hs : z.source = x.source)
    (hf : ∀ j, floor w.data x.taken j ≤ floor w.data z.taken j)
    (hz : Bounded w.data z.taken) (ht : ∀ j n, x.taken j = some n → z.taken j = some n)
    (hbios : w'.bios = w.bios.set k z) (hdata : w'.data = w.data)
    (hmarked : w'.marked = w.marked) (hcalls : w'.calls = w.calls)
    (hdirty : ∀ b, (w'.heads b).dirty = false → (w.heads b).dirty = false)
    (hlater : CopiesLater w.copies w'.copies)
    (hcopies : ∀ y ∈ w'.copies, ∀ j, y.data j ≤ w.data j) : Order blk w' := by
  have q : Quiet blk w w' := by
    refine ⟨fun j => by rw [hdata], ?_, fun m y hy => ?_, hdirty,
      fun j => Or.inl (by rw [hmarked]), hlater⟩
    · rw [hbios, hdata]
      exact BiosLater.set hx hd hb hs hf
    · rw [hbios] at hy
      rcases Table.get_set_cases hy with ⟨rfl, rfl⟩ | ⟨-, hy⟩
      · exact ⟨x, hx, hb, ht⟩
      · exact ⟨y, hy, rfl, fun _ _ h => h⟩
  refine q.order h ?_ (by rwa [hdata]) fun t u hu => Or.inl (by rwa [hcalls] at hu)
  rw [hbios, hdata]
  exact Table.forall_set h.bios hz

omit [DecidableEq ι] in
theorem completeStep_order [Fintype ι] {k : ℕ} {x : Bio ι β} {failed : Bool} (h : Order blk w)
    (hinv : Inv blk w) (hx : w.bios[k]? = some x)
    (hw : completeStep blk w k x failed = some w') : Order blk w' := by
  unfold completeStep at hw
  split_ifs at hw with hdone
  have hbound := h.bios x (List.mem_of_getElem? hx)
  dsimp only at hw
  split at hw
  · obtain rfl := Option.some.inj hw
    refine setBio_order (z := { x with done := true, failed := failed }) h hx hdone.1 rfl rfl
      (fun _ => le_rfl) hbound (fun _ _ h => h) rfl rfl rfl rfl (fun b hb => ?_)
      (CopiesLater.refl _) h.copies
    change (Function.update w.heads x.block _ b).dirty = false at hb
    by_cases heq : b = x.block
    · subst heq
      rwa [Function.update_self] at hb
    · rwa [Function.update_of_ne heq] at hb
  · rename_i c hs
    obtain ⟨y, hy, hw⟩ := Option.map_eq_some_iff.mp hw
    obtain ⟨y', hy', hf, -⟩ := hinv.locks.copy k x c hx hs hdone.1
    obtain rfl := Option.some.inj (hy.symm.trans hy')
    rw [if_neg (Bool.not_eq_true _ ▸ hf)] at hw
    obtain rfl := hw
    exact setBio_order (z := { x with done := true, failed := failed }) h hx hdone.1 rfl rfl
      (fun _ => le_rfl) hbound (fun _ _ h => h) rfl rfl rfl rfl (fun _ hb => hb)
      (CopiesLater.set hy rfl rfl rfl)
      (Table.forall_set h.copies (h.copies y (List.mem_of_getElem? hy)))

omit [DecidableEq ι] [DecidableEq β] in
/-- A call goes on without sending anything. -/
theorem setCall_order (h : Order blk w) (hcalls : w'.calls = w.calls.set t v)
    (hd : w'.data = w.data) (hm : w'.marked = w.marked) (hb : w'.bios = w.bios)
    (hlater : CopiesLater w.copies w'.copies)
    (hcopies : ∀ y ∈ w'.copies, ∀ j, y.data j ≤ w.data j)
    (hh : ∀ b, (w'.heads b).dirty = false → (w.heads b).dirty = false)
    (hv : Quiet blk w w' → Tops blk w' v) : Order blk w' := by
  have q : Quiet blk w w' := Quiet.of_eq hd hm hb hlater hh
  refine q.order h ?_ (by rwa [hd]) fun t' u' hu' => ?_
  · rw [hb, hd]
    exact h.bios
  · rw [hcalls] at hu'
    rcases Table.get_set_cases hu' with ⟨rfl, rfl⟩ | ⟨-, hold⟩
    · exact Or.inr (hv q)
    · exact Or.inl hold

omit [DecidableEq ι] [DecidableEq β] in
/-- A call that neither copies nor has sent anything. -/
theorem tops_of_early (hs : v.stage.isSent = false) (hh : v.stage.holdsCopy = false) :
    Tops blk w v := by
  refine ⟨fun hst => ?_, fun hst => ?_, fun got hst => ?_, fun c hst => ?_⟩
  · rw [hst] at hs
    cases hs
  · rw [hs] at hst
    cases hst
  · rw [hst] at hh
    cases hh
  · rw [hst] at hh
    cases hh

omit [DecidableEq ι] [DecidableEq β] in
/-- A call that has sent the block. -/
theorem tops_of_sent (hs : v.stage.isSent = true)
    (hv : v.stage = .check ∨ v.werr ≠ -12 → OnTop blk w v.inode v.since) : Tops blk w v := by
  refine ⟨fun hst => hv (Or.inl hst), fun _ he => hv (Or.inr he), fun got hst => ?_,
    fun c hst => ?_⟩
  · rw [hst] at hs
    cases hs
  · rw [hst] at hs
    cases hs

omit [DecidableEq ι] [DecidableEq β] in
/-- A call that copies the block. -/
theorem tops_of_copying {got : ι → Option ℕ} (hst : v.stage = .copying got)
    (hb : Bounded w.data got) (hf : Fresh blk w (blk v.inode) got) : Tops blk w v := by
  refine ⟨fun hs => ?_, fun hs => ?_, fun got' hs => ?_, fun c hs => ?_⟩ <;> rw [hst] at hs
  · cases hs
  · cases hs
  · obtain rfl := Stage.copying.inj hs
    exact ⟨hb, hf⟩
  · cases hs

omit [DecidableEq ι] [DecidableEq β] in
/-- A call that is about to send a copy. -/
theorem tops_of_listed {c : ℕ} {y : Copy ι β} (hst : v.stage = .listed c)
    (hy : w.copies[c]? = some y)
    (hf : Fresh blk w (blk v.inode) fun j => some (y.data j)) : Tops blk w v := by
  refine ⟨fun hs => ?_, fun hs => ?_, fun got hs => ?_, fun c' hs => ?_⟩ <;> rw [hst] at hs
  · cases hs
  · cases hs
  · cases hs
  · obtain rfl := Stage.listed.inj hs
    exact ⟨y, hy, hf⟩

omit [DecidableEq ι] [DecidableEq β] in
theorem lockCopy_fresh (hinv : Inv blk w) {b : β} (hnone : (w.heads b).lock = none) :
    Fresh blk w b fun _ => none := by
  intro j hj
  refine ⟨fun k x hx => ?_, fun n hn => ?_⟩
  · rcases hs : x.source with - | c
    · have hd : x.done = true := by
        refine hinv.locks.done_of_unlocked hx.get hs ?_
        rw [hx.block]
        exact hnone
      refine hinv.locks.taken x (List.mem_of_getElem? hx.get) hd j ?_
      rw [hj, hx.block]
    · obtain ⟨y, -, -, hy⟩ := hinv.copies.fromCopy k x c hx.get hs
      rw [hy]
      rfl
  · cases hn

omit [DecidableEq β] in
theorem copySlot_fresh (h : Order blk w) (hinv : Inv blk w) {b : β} {got : ι → Option ℕ}
    (hf : Fresh blk w b got) (i : ι) : Fresh blk w b (Snapshot.take w.data got i) := by
  intro j hj
  refine ⟨(hf j hj).1, fun n hn => ?_⟩
  by_cases hi : j = i
  · subst hi
    rw [Snapshot.take_self] at hn
    obtain rfl := Option.some.inj hn
    refine ⟨fun k x m hx hm => ?_, Or.inr (hinv.marked j)⟩
    exact h.bios x (List.mem_of_getElem? hx.get) j m hm
  · rw [Snapshot.take_of_ne hi] at hn
    exact (hf j hj).2 n hn

omit [DecidableEq ι] [DecidableEq β] in
theorem sendCopy_order {k : ℕ} {y : Copy ι β} (h : Order blk w) (hinv : Inv blk w)
    (hu : w.calls[t]? = some u) (hst : u.stage = .listed k) (hy : w.copies[k]? = some y)
    (hway : ∀ (t' : ℕ) (u' : Call ι β), w.calls[t']? = some u' → t' ≠ t →
      blk u'.inode = blk u.inode → u'.stage.holdsCopy = false)
    (hw : w.txWriteDirtyCopy k y u.stream = some w') :
    Order blk (w'.setCall t { u with stage := .check }) := by
  have hfit : InCopy blk w u.inode u.since k ∧ k ∈ w.copyouts u.inode := by
    have := hinv.fits t u hu
    rwa [Fits, hst] at this
  obtain ⟨⟨y', hy', hyb, hsince⟩, hmem⟩ := hfit
  obtain rfl := Option.some.inj (hy.symm.trans hy')
  obtain ⟨y', hy', ho, hf⟩ := hinv.copies.onList u.inode k hmem
  obtain rfl := Option.some.inj (hy.symm.trans hy')
  obtain ⟨y', hy', hfresh⟩ := (h.calls t u hu).listed k hst
  obtain rfl := Option.some.inj (hy.symm.trans hy')
  unfold World.txWriteDirtyCopy at hw
  split_ifs at hw with hfreed hlock hdirty <;> obtain rfl := Option.some.inj hw
  · rw [hf] at hfreed
    cases hfreed
  · refine h.send (z := ⟨y.block, some k, some u.stream, fun j => some (y.data j), false, false⟩)
      rfl rfl rfl (CopiesLater.set hy rfl rfl rfl)
      (Table.forall_set h.copies (h.copies y (List.mem_of_getElem? hy))) (fun j n hn => ?_)
      (fun _ _ => rfl) (fun j n hj hn => ?_) (fun j hj hd => ?_) (fun t' u' hu' hb => ?_)
      fun t' u' hu' => ?_
    · obtain rfl := Option.some.inj hn
      exact h.copies y (List.mem_of_getElem? hy) j
    · exact hfresh.le (hj.trans hyb) rfl hn
    · refine (((hfresh j (hj.trans hyb)).2 _ rfl).2).resolve_left fun hdirty' => ?_
      change (w.heads y.block).dirty = false at hd
      rw [hyb, hdirty'] at hd
      cases hd
    · rcases Table.get_set_cases hu' with ⟨rfl, rfl⟩ | ⟨hne, hu'⟩
      · rfl
      · exact hway t' u' hu' hne (hb.trans hyb)
    · rcases Table.get_set_cases hu' with ⟨rfl, rfl⟩ | ⟨-, hu'⟩
      · refine Or.inr ⟨rfl, Or.inr ⟨w.bios.length,
          ⟨y.block, some k, some u.stream, fun j => some (y.data j), false, false⟩, ?_, hsince⟩⟩
        show IsNewest (w.bios ++ [_]) (blk u.inode) w.bios.length _
        rw [← hyb]
        exact IsNewest.concat_self _ _
      · exact Or.inl hu'
  · obtain ⟨z, hz, -, hzd⟩ := hinv.copies.listed t u k hu hst
    obtain rfl := Option.some.inj (hy.symm.trans hz)
    exact absurd hzd hdirty

omit [DecidableEq ι] [DecidableEq β] in
theorem fault_order (h : Order blk w) : Order blk w.fault := by
  have q : Quiet blk w w.fault := Quiet.of_eq rfl rfl rfl (CopiesLater.refl _) fun _ hb => hb
  exact q.order h h.bios h.copies fun _ _ hu => Or.inl hu

omit [DecidableEq ι] [DecidableEq β] in
/-- A call that has sent the block goes on. -/
theorem sentCall_order (h : Order blk w) (hu : w.calls[t]? = some u) (hsent : u.stage.isSent = true)
    (hcalls : w'.calls = w.calls.set t v) (hvi : v.inode = u.inode) (hsince : v.since = u.since)
    (hwerr : v.werr = u.werr) (hv : v.stage.isSent = true) (hcheck : v.stage ≠ .check)
    (hd : w'.data = w.data) (hm : w'.marked = w.marked) (hb : w'.bios = w.bios)
    (hlater : CopiesLater w.copies w'.copies)
    (hcopies : ∀ y ∈ w'.copies, ∀ j, y.data j ≤ w.data j)
    (hh : ∀ b, (w'.heads b).dirty = false → (w.heads b).dirty = false) : Order blk w' := by
  refine setCall_order h hcalls hd hm hb hlater hcopies hh fun q => tops_of_sent hv fun hor => ?_
  rw [hvi, hsince]
  refine q.onTop ((h.calls t u hu).sent hsent ?_)
  rw [← hwerr]
  exact hor.resolve_left hcheck

omit [DecidableEq ι] in
/-- Locking and unlocking a buffer leaves the dirty bits as they are. -/
theorem dirty_of_update {heads : β → Head} {b c : β} {x : Head}
    (h : (Function.update heads b x c).dirty = false) (hx : x.dirty = (heads b).dirty) :
    (heads c).dirty = false := by
  by_cases heq : c = b
  · subst heq
    rwa [Function.update_self, hx] at h
  · rwa [Function.update_of_ne heq] at h

theorem claim_order (h : Order blk w) : Order blk (w.claim blk t u) := by
  unfold World.claim
  split_ifs
  · exact setCall_order h rfl rfl rfl rfl (CopiesLater.refl _) h.copies (fun _ hb => hb)
      fun _ => tops_of_early rfl rfl
  · exact setCall_order h rfl rfl rfl rfl (CopiesLater.refl _) h.copies (fun _ hb => hb)
      fun _ => tops_of_early rfl rfl

omit [DecidableEq ι] in
/-- The buffer is sent by the call that has put it on its list. -/
theorem claimed_order (h : Order blk w) (hinv : Inv blk w) (hu : w.calls[t]? = some u)
    (hst : u.stage = .claimed)
    (hway : (w.heads (blk u.inode)).dirty = true → ∀ (t' : ℕ) (u' : Call ι β),
      w.calls[t']? = some u' → t' ≠ t → blk u'.inode = blk u.inode → u'.stage.holdsCopy = false)
    (hw : w.txWriteDirtyBuffer (blk u.inode) (some u.stream) = some w') :
    Order blk (w'.setCall t { u with stage := .check }) := by
  have hfits := hinv.fits t u hu
  rw [Fits, hst] at hfits
  obtain ⟨h', -, -, htop⟩ := txWriteDirtyBuffer_order h hinv hw fun hdirty t' u' hu' hb => by
    by_cases hne : t' = t
    · subst hne
      obtain rfl := Option.some.inj (hu.symm.trans hu')
      rw [hst]
      rfl
    · exact hway hdirty t' u' hu' hne hb
  exact setCall_order h' rfl rfl rfl rfl (CopiesLater.refl _) h'.copies (fun _ hb => hb)
    fun q => tops_of_sent rfl fun _ => q.onTop ((htop u.inode rfl).mono hfits.1)

omit [DecidableEq ι] in
/-- The buffer is locked to be copied. -/
theorem lockCopy_order (h : Order blk w) (hinv : Inv blk w)
    (hlock : (w.heads (blk u.inode)).lock = none) :
    Order blk ((w.setHead (blk u.inode)
      { w.heads (blk u.inode) with lock := some (.copy t) }).setCall t
        { u with stage := .copying fun _ => none }) :=
  setCall_order h rfl rfl rfl rfl (CopiesLater.refl _) h.copies
    (fun _ hb => dirty_of_update hb rfl)
    fun q => tops_of_copying rfl (Snapshot.bounded_none _) (q.fresh (lockCopy_fresh hinv hlock))

/-- The copy is complete and goes on the list. -/
theorem addCopy_order {got : ι → Option ℕ} (h : Order blk w) (hu : w.calls[t]? = some u)
    (hst : u.stage = .copying got) (hgot : ∀ j, blk j = blk u.inode → (got j).isSome) :
    Order blk (w.addCopy blk t u got) := by
  obtain ⟨hbound, hfresh⟩ := (h.calls t u hu).copying got hst
  refine setCall_order h rfl rfl rfl rfl (CopiesLater.concat _ _) (fun y hy j => ?_)
    (fun _ hb => dirty_of_update hb rfl) fun q => tops_of_listed rfl List.getElem?_concat_length
      (q.fresh fun j hj => ?_)
  · rcases List.mem_append.mp hy with hy | hy
    · exact h.copies y hy j
    · rw [List.mem_singleton.mp hy]
      show (got j).getD 0 ≤ w.data j
      rcases hj : got j with - | n
      · exact Nat.zero_le _
      · exact hbound j n hj
  · obtain ⟨m, hm⟩ := Option.isSome_iff_exists.mp (hgot j hj)
    refine ⟨(hfresh j hj).1, fun n hn => (hfresh j hj).2 n ?_⟩
    change some ((got j).getD 0) = some n at hn
    rw [hm] at hn ⊢
    exact hn

theorem drain_order (h : Order blk w) (hu : w.calls[t]? = some u) (hst : u.stage = .drain) :
    Order blk (w.drain t u) := by
  have hsent : u.stage.isSent = true := by
    rw [hst]
    rfl
  unfold World.drain
  split
  · exact sentCall_order h hu hsent rfl rfl rfl rfl rfl (by intro hc; cases hc) rfl rfl rfl
      (CopiesLater.refl _) h.copies fun _ hb => hb
  · split_ifs
    · exact sentCall_order h hu hsent rfl rfl rfl rfl rfl (by intro hc; cases hc) rfl rfl rfl
        (CopiesLater.refl _) h.copies fun _ hb => hb
    · exact fault_order h

omit [DecidableEq β] in
theorem drainCopies_order (h : Order blk w) (hu : w.calls[t]? = some u)
    (hst : u.stage = .drainCopies) : Order blk (w.drainCopies t u) := by
  have hsent : u.stage.isSent = true := by
    rw [hst]
    rfl
  unfold World.drainCopies
  split
  · exact sentCall_order h hu hsent rfl rfl rfl rfl rfl (by intro hc; cases hc) rfl rfl rfl
      (CopiesLater.refl _) h.copies fun _ hb => hb
  · exact sentCall_order h hu hsent rfl rfl rfl rfl rfl (by intro hc; cases hc) rfl rfl rfl
      (CopiesLater.refl _) h.copies fun _ hb => hb

omit [DecidableEq ι] [DecidableEq β] in
theorem waitCopy_order {k : ℕ} {y : Copy ι β} (h : Order blk w) (hu : w.calls[t]? = some u)
    (hst : u.stage = .waitCopy k) (hy : w.copies[k]? = some y)
    (hw : w.waitCopy t u k y = some w') : Order blk w' := by
  have hsent : u.stage.isSent = true := by
    rw [hst]
    rfl
  unfold World.waitCopy at hw
  split_ifs at hw <;> obtain rfl := Option.some.inj hw
  · exact fault_order h
  · exact sentCall_order h hu hsent rfl rfl rfl rfl rfl (by intro hc; cases hc) rfl rfl rfl
      (CopiesLater.set hy rfl rfl rfl)
      (Table.forall_set h.copies (h.copies y (List.mem_of_getElem? hy))) fun _ hb => hb

theorem goStep_order [Fintype ι] (h : Order blk w) (hinv : Inv blk w)
    (hu : w.calls[t]? = some u) (hprompt : (Act.go t).prompt blk w = true)
    (hw : goStep blk w t u = some w') : Order blk w' := by
  have hway : ∀ {b : β}, ((w.calls.eraseIdx t).all fun u' => !u'.inWay blk b) = true →
      ∀ (t' : ℕ) (u' : Call ι β), w.calls[t']? = some u' → t' ≠ t → blk u'.inode = b →
        u'.stage.holdsCopy = false := by
    intro b hall t' u' hu' hne hb
    refine of_all_inWay hall ?_ hb
    exact List.mem_eraseIdx_iff_getElem?.mpr ⟨t', hne, hu'⟩
  unfold goStep at hw
  rw [Act.prompt, hu] at hprompt
  rcases hst : u.stage with - | - | - | - | got | k | - | - | - | b | - | k | waited <;>
    simp only [hst] at hw hprompt
  case enter =>
    obtain rfl := Option.some.inj hw
    exact claim_order h
  case claimed =>
    obtain ⟨w₁, hw₁, rfl⟩ := Option.map_eq_some_iff.mp hw
    refine claimed_order h hinv hu hst (fun hdirty => hway ?_) hw₁
    rwa [hdirty, Bool.not_true, Bool.false_or] at hprompt
  case shared => cases hw
  case lockCopy =>
    split_ifs at hw with hlock
    obtain rfl := Option.some.inj hw
    exact lockCopy_order h hinv (Option.not_isSome_iff_eq_none.mp hlock)
  case copying =>
    split_ifs at hw with hgot
    obtain rfl := Option.some.inj hw
    exact addCopy_order h hu hst hgot
  case listed =>
    obtain ⟨y, hy, hw⟩ := Option.bind_eq_some_iff.mp hw
    obtain ⟨w₁, hw₁, rfl⟩ := Option.map_eq_some_iff.mp hw
    exact sendCopy_order h hinv hu hst hy (hway hprompt) hw₁
  case check =>
    obtain rfl := Option.some.inj hw
    exact setCall_order h rfl rfl rfl rfl (CopiesLater.refl _) h.copies (fun _ hb => hb)
      fun q => tops_of_sent rfl fun _ => q.onTop ((h.calls t u hu).check hst)
  case written =>
    obtain rfl := Option.some.inj hw
    exact sentCall_order h hu (by rw [hst]; rfl) rfl rfl rfl rfl rfl (by intro hc; cases hc) rfl rfl
      rfl (CopiesLater.refl _) h.copies fun _ hb => hb
  case drain =>
    obtain rfl := Option.some.inj hw
    exact drain_order h hu hst
  case waitBuf =>
    split_ifs at hw
    obtain rfl := Option.some.inj hw
    exact sentCall_order h hu (by rw [hst]; rfl) rfl rfl rfl rfl rfl (by intro hc; cases hc) rfl rfl
      rfl (CopiesLater.refl _) h.copies fun _ hb => hb
  case drainCopies =>
    obtain rfl := Option.some.inj hw
    exact drainCopies_order h hu hst
  case waitCopy =>
    obtain ⟨y, hy, hw⟩ := Option.bind_eq_some_iff.mp hw
    exact waitCopy_order h hu hst hy hw
  case done => cases hw

theorem step_order [Fintype ι] {a : Act ι β} (h : Order blk w) (hinv : Inv blk w)
    (hprompt : a.prompt blk w = true) (hw : step blk w a = some w') : Order blk w' := by
  unfold step at hw
  rw [if_neg (Bool.not_eq_true _ ▸ hinv.bug)] at hw
  cases a with
  | look b => exact getInodeLoc_order h hw
  | fill i =>
      obtain rfl := Option.some.inj hw
      exact fill_order h i
  | mark i =>
      obtain rfl := Option.some.inj hw
      exact mark_order h i
  | flush b =>
      refine (txWriteDirtyBuffer_order h hinv hw fun hdirty t u hu hb => ?_).1
      rw [Act.prompt, hdirty, Bool.not_true, Bool.false_or] at hprompt
      exact of_all_inWay hprompt (List.mem_of_getElem? hu) hb
  | fetch k j =>
      obtain ⟨x, hx, hw⟩ := Option.bind_eq_some_iff.mp hw
      split_ifs at hw with hn
      obtain rfl := Option.some.inj hw
      refine setBio_order (z := { x with taken := Snapshot.take w.data x.taken j }) h hx hn.1 rfl
        rfl (fun m => ?_) ((h.bios x (List.mem_of_getElem? hx)).take j) (fun m n hm => ?_) rfl rfl
        rfl rfl (fun _ hb => hb) (CopiesLater.refl _) h.copies
      · show floor w.data x.taken m ≤ floor w.data (Snapshot.take w.data x.taken j) m
        rw [Snapshot.floor_take hn.2]
      · show Snapshot.take w.data x.taken j m = some n
        rw [Snapshot.take_of_ne, hm]
        rintro rfl
        rw [hn.2] at hm
        cases hm
  | complete k failed =>
      obtain ⟨x, hx, hw⟩ := Option.bind_eq_some_iff.mp hw
      exact completeStep_order h hinv hx hw
  | enter i stream =>
      obtain ⟨w₁, hw₁, rfl⟩ := Option.map_eq_some_iff.mp hw
      have h₁ := getInodeLoc_order h hw₁
      have q : Quiet blk w₁ { w₁ with
          calls := w₁.calls ++ [⟨i, stream, w₁.marked i, 0, 0, .enter⟩] } :=
        Quiet.of_eq rfl rfl rfl (CopiesLater.refl _) fun _ hb => hb
      refine q.order h₁ h₁.bios h₁.copies fun t u hu => ?_
      rcases Table.get_concat_cases hu with hold | ⟨-, rfl⟩
      · exact Or.inl hold
      · exact Or.inr (tops_of_early rfl rfl)
  | go t =>
      obtain ⟨u, hu, hw⟩ := Option.bind_eq_some_iff.mp hw
      exact goStep_order h hinv hu hprompt hw
  | alloc t ok =>
      obtain ⟨u, hu, hw⟩ := Option.bind_eq_some_iff.mp hw
      rcases hst : u.stage with - | - | - | - | got | k | - | - | - | b | - | k | waited <;>
        simp only [hst, reduceCtorEq] at hw
      cases ok
      · obtain rfl := Option.some.inj hw
        refine setCall_order h rfl rfl rfl rfl (CopiesLater.refl _) h.copies (fun _ hb => hb)
          fun _ => tops_of_sent rfl fun hv => ?_
        rcases hv with hv | hv
        · cases hv
        · exact absurd rfl hv
      · obtain rfl := Option.some.inj hw
        exact setCall_order h rfl rfl rfl rfl (CopiesLater.refl _) h.copies (fun _ hb => hb)
          fun _ => tops_of_early rfl rfl
  | copySlot t j =>
      obtain ⟨u, hu, hw⟩ := Option.bind_eq_some_iff.mp hw
      rcases hst : u.stage with - | - | - | - | got | k | - | - | - | b | - | k | waited <;>
        simp only [hst, reduceCtorEq] at hw
      split_ifs at hw
      obtain rfl := Option.some.inj hw
      obtain ⟨hbound, hfresh⟩ := (h.calls t u hu).copying got hst
      refine setCall_order h rfl rfl rfl rfl (CopiesLater.refl _) h.copies (fun _ hb => hb)
        fun q => tops_of_copying rfl (hbound.take j) (q.fresh (copySlot_fresh h hinv hfresh j))
  | leave t =>
      obtain ⟨u, hu, hw⟩ := Option.bind_eq_some_iff.mp hw
      rcases hst : u.stage with - | - | - | - | got | k | - | - | - | b | - | k | waited <;>
        simp only [hst, reduceCtorEq] at hw
      obtain rfl := Option.some.inj hw
      exact sentCall_order h hu (by rw [hst]; rfl) rfl rfl rfl rfl rfl (by intro hc; cases hc) rfl
        rfl rfl (CopiesLater.refl _) h.copies fun _ hb => hb

/-- **The newest write of a block has every change that a call came for**, from the moment
`ext4_write_inode` has sent the block for it, whichever calls send the block afterwards from the
buffer or from copies, provided no copy is overtaken by another bio of the block before it is
sent. -/
theorem newest_write_has_update [Fintype ι] (blk : ι → β) (as : List (Act ι β)) (w : World ι β)
    (hruns : Run.Along (step blk)
      (fun w a => a.exclusive w = true ∧ a.prompt blk w = true) World.init as)
    (hrun : Run.run (step blk) World.init as = some w) (t : ℕ) (u : Call ι β)
    (hu : w.calls[t]? = some u) (hsent : u.stage.isSent = true) (halloc : u.werr ≠ -12)
    (k : ℕ) (x : Bio ι β) (hx : w.bios[k]? = some x) (hb : x.block = blk u.inode)
    (hlast : ∀ (m : ℕ) (z : Bio ι β), w.bios[m]? = some z → z.block = blk u.inode → m ≤ k)
    (n : ℕ) (hn : x.taken u.inode = some n) : u.since ≤ n := by
  have h : Inv blk w ∧ Order blk w := by
    refine Run.run_preserves (I := fun w => Inv blk w ∧ Order blk w)
      (fun _ _ _ h hc hs => ⟨step_inv h.1 hc.1 hs, step_order h.2 h.1 hc.2 hs⟩)
      ⟨inv_init, ?_, ?_, fun _ _ => Or.inl rfl, ?_⟩ hruns hrun
    · intro x hx
      cases hx
    · intro y hy
      cases hy
    · intro t u hu
      cases hu
  rcases (h.2.calls t u hu).sent hsent halloc with hzero | ⟨k', x', hx', hv⟩
  · rw [hzero]
    exact Nat.zero_le _
  · obtain rfl := hx'.unique ⟨hx, hb, hlast⟩
    rwa [Snapshot.floor_of_some hn] at hv

end Steps

theorem newest_write_has_update_copied :
    ∃ w u x, Run.run (step fun _ => ()) World.init twoInodes = some w ∧ w.calls[1]? = some u ∧
      w.bios[1]? = some x ∧ u.since = 1 ∧ x.taken u.inode = some 2 ∧ u.since ≤ 2 := by
  obtain ⟨w, hw, hlen, u, hu, hsent, hsince, hwerr, x, hx, htaken⟩ :
      ∃ w, Run.run (step fun _ => ()) World.init twoInodes = some w ∧ w.bios.length = 2 ∧
        ∃ u, w.calls[1]? = some u ∧ u.stage.isSent = true ∧ u.since = 1 ∧ u.werr = 0 ∧
          ∃ x, w.bios[1]? = some x ∧ x.taken u.inode = some 2 := by
    decide +kernel
  refine ⟨w, u, x, hw, hu, hx, hsince, htaken, ?_⟩
  refine newest_write_has_update _ twoInodes w (by decide +kernel) hw 1 u hu hsent
    (by rw [hwerr]; decide) 1 x hx rfl (fun m z hz _ => ?_) 2 htaken
  have hlt := (List.getElem?_eq_some_iff.mp hz).1
  rw [hlen] at hlt
  exact Nat.lt_succ_iff.mp hlt

-- The copy for inode `true` is overtaken: the second call for inode `false` has returned with its
-- second change written, and the newest write of the block has the first.
example : ∃ w, Run.run (step fun _ : Bool => ()) World.init
    [.fill false, .mark false, .fill true, .mark true, .enter false 0, .enter true 1, .go 0,
      .go 1, .alloc 1 true, .go 1, .copySlot 1 false, .copySlot 1 true, .go 1, .go 0,
      .fetch 0 false, .fetch 0 true, .complete 0 false, .go 0, .go 0, .go 0, .go 0, .go 0, .go 0,
      .fill false, .mark false, .enter false 2, .go 2, .go 2, .fetch 1 false, .fetch 1 true,
      .complete 1 false, .go 2, .go 2, .go 2, .go 2, .go 2, .go 2, .go 1] = some w ∧
    (∃ u, w.calls[2]? = some u ∧ u.stage.waited = true ∧ u.since = 2 ∧ u.err = 0) ∧
    w.bios.length = 3 ∧ ∃ x, w.bios[2]? = some x ∧ x.taken false = some 1 := by
  decide +kernel

end CcNvme.PageSharing

/-
CcNvme/EntryBlocks.lean

The blocks of a directory that hold an entry.  `ext4_add_entry` changes them
(`mark_buffer_dirty_inode`), `mqfs_submit_mapping_buffers` takes them from `private_list` and
submits them, `mqfs_wait_mapping_buffers` takes them from `fsmeta_pending_list`.  What each of
these does to a block that is dirty and on `private_list` is `Carries`.
-/
import CcNvme.AtomicFile

namespace CcNvme

/-! ### The steps of the passes -/

/-- A block that holds part of an entry, and its contents since then. -/
structure EntryBlock where
  block : ℕ
  version : ℕ
  deriving DecidableEq

/-- The blocks are changed one after another. -/
def MappingBuffers.markDirtyAll (m : MappingBuffers) (bs : List ℕ) : MappingBuffers :=
  bs.foldl MappingBuffers.markDirtyInode m

/-- The body of the loop of `mqfs_wait_buffers_list`, up to the wait -/
def MappingBuffers.takePending (m : MappingBuffers) (b : ℕ) : MappingBuffers :=
  let m := m.removeAssocQueue b
  if m.dirty b then m.addPrivate b else m

namespace AtomicFile

/-- The part of the loop body of `mqfs_submit_buffers_list` that is under `private_lock`;
whether the buffer is to be submitted. -/
def takePrivate (f : AtomicFile) (b : ℕ) : AtomicFile × Bool :=
  let m := f.bufs.removeAssocQueue b
  if m.dirty b || m.locked b then ({ f with bufs := m.addPending b }, m.dirty b)
  else ({ f with bufs := m }, false)

/-- `tx_write_dirty_buffer`, when the buffer is locked -/
def send (f : AtomicFile) (b : ℕ) : AtomicFile :=
  if f.bufs.dirty b then ⟨f.bufs.startWrite b, Function.update f.sent b (f.bufs.version b)⟩ else f

/-- With nothing in between this is the loop body. -/
theorem submitBuffer_eq (f : AtomicFile) (b : ℕ) :
    f.submitBuffer b =
      if (f.takePrivate b).2 then (f.takePrivate b).1.send b else (f.takePrivate b).1 := by
  unfold submitBuffer takePrivate send
  dsimp only
  by_cases hd : (f.bufs.removeAssocQueue b).dirty b = true
  · have hd' : ((f.bufs.removeAssocQueue b).addPending b).dirty b = true := hd
    simp only [hd, hd', Bool.true_or, if_true]
  · have hd' : ¬ ((f.bufs.removeAssocQueue b).addPending b).dirty b = true := hd
    by_cases hl : (f.bufs.removeAssocQueue b).locked b = true
    · simp only [hd, hd', hl, Bool.or_true, if_true, if_false, Bool.false_eq_true]
    · simp only [hd, hl, Bool.or_false, if_false, Bool.false_eq_true]

end AtomicFile

/-! ### Blocks that will be submitted -/

/-- The buffer is on `private_list` or on no list. -/
def MappingBuffers.Free (m : MappingBuffers) (b : ℕ) : Prop :=
  b ∈ m.privateList ∨ m.assoc b = false

instance MappingBuffers.decidableFree (m : MappingBuffers) (b : ℕ) : Decidable (m.Free b) :=
  inferInstanceAs (Decidable (_ ∨ _))

/-- The block has been submitted with the entry in it; or it is dirty, and it is on
`private_list` or about to be submitted. -/
def AtomicFile.Keeps (f : AtomicFile) (hand : Option ℕ) (k : EntryBlock) : Prop :=
  k.version ≤ f.bufs.version k.block ∧ (k.version ≤ f.sent k.block ∨
    f.bufs.dirty k.block = true ∧ (k.block ∈ f.bufs.privateList ∨ hand = some k.block))

/-! ### What the steps keep -/

/-- Nothing that is kept is lost, and nothing that was submitted is unsubmitted. -/
def Carries (f : AtomicFile) (hand : Option ℕ) (f' : AtomicFile) (hand' : Option ℕ) : Prop :=
  ∀ k, f.Keeps hand k →
    f'.Keeps hand' k ∧ (k.version ≤ f.sent k.block → k.version ≤ f'.sent k.block)

variable {f : AtomicFile} {hand : Option ℕ}

theorem AtomicFile.Keeps.of_none {k : EntryBlock} (h : f.Keeps none k) : f.Keeps hand k :=
  ⟨h.1, h.2.imp_right fun ⟨hdirty, hmem⟩ =>
    ⟨hdirty, Or.inl (hmem.resolve_right fun he => by cases he)⟩⟩

theorem carries_refl (f : AtomicFile) : Carries f hand f hand := fun _ h => ⟨h, id⟩

/-- A buffer stays dirty when one is changed, and stays on `private_list`. -/
theorem MappingBuffers.dirty_markDirtyInode {m : MappingBuffers} {c : ℕ} (b : ℕ)
    (h : b = c ∨ m.dirty c = true) : (m.markDirtyInode b).dirty c = true := by
  have hdirty : Function.update m.dirty b true c = true := by
    by_cases hbc : c = b
    · rw [hbc, Function.update_self]
    · rw [Function.update_of_ne hbc]
      exact h.resolve_left (Ne.symm hbc)
  unfold markDirtyInode
  dsimp only
  split_ifs
  · exact hdirty
  · exact hdirty

theorem MappingBuffers.mem_private_markDirtyInode {m : MappingBuffers} {c : ℕ} (b : ℕ)
    (h : c ∈ m.privateList) : c ∈ (m.markDirtyInode b).privateList := by
  unfold markDirtyInode
  dsimp only
  split_ifs
  · exact h
  · show c ∈ m.privateList.erase b ++ [b]
    by_cases hbc : c = b
    · rw [hbc]
      exact List.mem_append_right _ (List.mem_singleton_self b)
    · exact List.mem_append_left _ ((List.mem_erase_of_ne hbc).mpr h)

theorem MappingBuffers.version_markDirtyInode (m : MappingBuffers) (b c : ℕ) :
    m.version c ≤ (m.markDirtyInode b).version c := by
  have hle : m.version c ≤ Function.update m.version b (m.version b + 1) c := by
    by_cases hbc : c = b
    · rw [hbc, Function.update_self]
      exact Nat.le_succ _
    · exact Nat.le_of_eq (Function.update_of_ne hbc _ _).symm
  unfold markDirtyInode
  dsimp only
  split_ifs
  · exact hle
  · exact hle

theorem carries_markDirtyInode (f : AtomicFile) (b : ℕ) :
    Carries f hand { f with bufs := f.bufs.markDirtyInode b } hand := by
  rintro k ⟨hversion, hkept⟩
  refine ⟨⟨Nat.le_trans hversion (f.bufs.version_markDirtyInode b k.block), ?_⟩, id⟩
  refine hkept.imp_right fun ⟨hdirty, hmem⟩ => ⟨?_, hmem.imp_left ?_⟩
  · exact MappingBuffers.dirty_markDirtyInode b (Or.inr hdirty)
  · exact MappingBuffers.mem_private_markDirtyInode b

theorem carries_markDirtyAll (f : AtomicFile) (bs : List ℕ) :
    Carries f hand { f with bufs := f.bufs.markDirtyAll bs } hand := by
  induction bs generalizing f with
  | nil => exact carries_refl f
  | cons b bs ih =>
      intro k hk
      obtain ⟨hkeeps, hsent⟩ := carries_markDirtyInode f b k hk
      obtain ⟨hkeeps', hsent'⟩ := ih { f with bufs := f.bufs.markDirtyInode b } k hkeeps
      exact ⟨hkeeps', fun h => hsent' (hsent h)⟩

/-- **The submit pass** takes a block off the list, in the hand if it is dirty. -/
theorem carries_takePrivate (f : AtomicFile) (b : ℕ) :
    Carries f none (f.takePrivate b).1 (if (f.takePrivate b).2 then some b else none) := by
  have hbufs : (f.takePrivate b).1.sent = f.sent ∧
      (f.takePrivate b).1.bufs.version = f.bufs.version ∧
      (f.takePrivate b).1.bufs.dirty = f.bufs.dirty ∧
      (f.takePrivate b).1.bufs.privateList = f.bufs.privateList.erase b ∧
      (f.bufs.dirty b = true → (f.takePrivate b).2 = true) := by
    unfold AtomicFile.takePrivate
    dsimp only
    split_ifs with h
    · exact ⟨rfl, rfl, rfl, rfl, id⟩
    · refine ⟨rfl, rfl, rfl, rfl, fun hdirty => absurd ?_ h⟩
      rw [show (f.bufs.removeAssocQueue b).dirty b = true from hdirty, Bool.true_or]
  obtain ⟨hsent, hver, hdirt, hlist, htaken⟩ := hbufs
  rintro k ⟨hversion, hkept⟩
  unfold AtomicFile.Keeps
  rw [hsent, hver, hdirt, hlist]
  refine ⟨⟨hversion, hkept.imp_right fun ⟨hdirty, hmem⟩ => ⟨hdirty, ?_⟩⟩, id⟩
  have hmem' := hmem.resolve_right fun he => by cases he
  by_cases hk : k.block = b
  · rw [hk] at hdirty ⊢
    rw [if_pos (htaken hdirty)]
    exact Or.inr rfl
  · exact Or.inl ((List.mem_erase_of_ne hk).mpr hmem')

/-- It submits what is in the hand. -/
theorem carries_send (f : AtomicFile) (b : ℕ) : Carries f (some b) (f.send b) none := by
  rintro k ⟨hversion, hkept⟩
  unfold AtomicFile.send
  split_ifs with hb
  · by_cases hk : k.block = b
    · have hsent : k.version ≤ Function.update f.sent b (f.bufs.version b) k.block := by
        rw [hk, Function.update_self, ← hk]
        exact hversion
      exact ⟨⟨hversion, Or.inl hsent⟩, fun _ => hsent⟩
    · have hsent (h : k.version ≤ f.sent k.block) :
          k.version ≤ Function.update f.sent b (f.bufs.version b) k.block := by
        rwa [Function.update_of_ne hk]
      refine ⟨⟨hversion, hkept.imp hsent fun ⟨hdirty, hmem⟩ => ⟨?_, Or.inl ?_⟩⟩, hsent⟩
      · show Function.update f.bufs.dirty b false k.block = true
        rwa [Function.update_of_ne hk]
      · exact hmem.resolve_right fun he => hk (Option.some.inj he).symm
  · refine ⟨⟨hversion, hkept.imp_right fun ⟨hdirty, hmem⟩ => ⟨hdirty, Or.inl ?_⟩⟩, id⟩
    refine hmem.resolve_right fun he => hb ?_
    rwa [Option.some.inj he]

/-- **The wait pass** puts a block that is dirty again on `private_list`. -/
theorem carries_takePending (f : AtomicFile) (b : ℕ) :
    Carries f hand { f with bufs := f.bufs.takePending b } hand := by
  rintro k ⟨hversion, hkept⟩
  unfold MappingBuffers.takePending
  dsimp only
  split_ifs with hb
  · refine ⟨⟨hversion, hkept.imp_right fun ⟨hdirty, hmem⟩ =>
      ⟨hdirty, hmem.imp_left fun hmem => ?_⟩⟩, id⟩
    show k.block ∈ b :: f.bufs.privateList.erase b
    by_cases hk : k.block = b
    · rw [hk]
      exact List.mem_cons_self
    · exact List.mem_cons_of_mem _ ((List.mem_erase_of_ne hk).mpr hmem)
  · -- a clean block holds nothing that is not submitted
    refine ⟨⟨hversion, hkept.imp_right fun ⟨hdirty, hmem⟩ =>
      ⟨hdirty, hmem.imp_left fun hmem => (List.mem_erase_of_ne ?_).mpr hmem⟩⟩, id⟩
    intro hk
    rw [hk] at hdirty
    exact hb hdirty

theorem carries_endWrite (f : AtomicFile) (b : ℕ) (uptodate : Bool) :
    Carries f hand { f with bufs := f.bufs.endWrite b uptodate } hand := fun _ h => ⟨h, id⟩

/-- A block that was free and has been changed is on `private_list`. -/
theorem MappingBuffers.Free.markDirtyInode {m : MappingBuffers} {c : ℕ} (h : m.Free c) (b : ℕ) :
    (m.markDirtyInode b).Free c ∧ (b = c → c ∈ (m.markDirtyInode b).privateList) := by
  have hqueued : b = c → c ∈ (m.markDirtyInode b).privateList := by
    rintro rfl
    rcases h with hmem | hassoc
    · exact mem_private_markDirtyInode b hmem
    · have hassoc' : ¬ (m.markDirty b).assoc b = true := Bool.eq_false_iff.mp hassoc
      unfold MappingBuffers.markDirtyInode
      dsimp only
      rw [if_neg hassoc']
      exact List.mem_append_right _ (List.mem_singleton_self b)
  refine ⟨?_, hqueued⟩
  by_cases hbc : b = c
  · exact Or.inl (hqueued hbc)
  · refine h.imp (mem_private_markDirtyInode b) fun hassoc => ?_
    unfold MappingBuffers.markDirtyInode
    dsimp only
    split_ifs
    · exact hassoc
    · show Function.update m.assoc b true c = false
      rwa [Function.update_of_ne (Ne.symm hbc)]

theorem MappingBuffers.Free.markDirtyAll (bs : List ℕ) {m : MappingBuffers} {c : ℕ}
    (h : m.Free c) (hc : c ∈ bs ∨ c ∈ m.privateList) : c ∈ (m.markDirtyAll bs).privateList := by
  induction bs generalizing m with
  | nil => exact hc.resolve_left List.not_mem_nil
  | cons b bs ih =>
      obtain ⟨hfree, hqueued⟩ := h.markDirtyInode b
      refine ih hfree ?_
      rcases hc with hc | hc
      · rcases List.mem_cons.mp hc with rfl | hc
        · exact Or.inr (hqueued rfl)
        · exact Or.inl hc
      · exact Or.inr (mem_private_markDirtyInode b hc)

theorem MappingBuffers.dirty_markDirtyAll (bs : List ℕ) {m : MappingBuffers} {c : ℕ}
    (hc : c ∈ bs ∨ m.dirty c = true) : (m.markDirtyAll bs).dirty c = true := by
  induction bs generalizing m with
  | nil => exact hc.resolve_left List.not_mem_nil
  | cons b bs ih =>
      refine ih ?_
      rcases hc with hc | hc
      · rcases List.mem_cons.mp hc with rfl | hc
        · exact Or.inr (dirty_markDirtyInode c (Or.inl rfl))
        · exact Or.inl hc
      · exact Or.inr (dirty_markDirtyInode b (Or.inr hc))

end CcNvme

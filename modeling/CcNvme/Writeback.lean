/-
CcNvme/Writeback.lean

What indexing and `commit_write` do to the in-place-update index.

`indexBlocks` only adds entries: every block of the write is indexed
afterwards, and no block loses its entry.  `commit_write` only removes them,
and as long as nothing goes wrong it sends a buffer home for each entry it
removes.  `Drained bs o o'` is that fact for a list `bs` of (super block,
block) pairs; it composes along `++`, so the nested loops of `commit_write`
are one `Drained` step over all the blocks handed over.

Nothing goes wrong for a block when its index entry, if it has one, carries
the transaction id the write-back looks for, and its buffer is unlocked
(`Clean`): otherwise the entry is removed and nothing is written.
-/
import CcNvme.Checkpoint

namespace CcNvme

variable {P : Params}

/-! ### The index as a map on keys -/

/-- An update is seen by exactly the blocks that share its key. -/
theorem lookupIpu_setIpu (o : Olayer) (lba x : ℕ) (e : Option IpuEntry) :
    (o.setIpu P lba e).lookupIpu P x
      = if ipuKey P o.blocksPerGroup x = ipuKey P o.blocksPerGroup lba then e
        else o.lookupIpu P x := by
  unfold Olayer.lookupIpu Olayer.setIpu
  dsimp only
  split_ifs with hkey
  · rw [hkey, Function.update_self, Function.update_self]
  · by_cases ht : (ipuKey P o.blocksPerGroup x).1 = (ipuKey P o.blocksPerGroup lba).1
    · -- the same tree, so another offset
      have hk : (ipuKey P o.blocksPerGroup x).2 ≠ (ipuKey P o.blocksPerGroup lba).2 :=
        fun hk => hkey (Prod.ext ht hk)
      rw [ht, Function.update_self, Function.update_of_ne hk]
    · rw [Function.update_of_ne ht]

/-! ### Indexing -/

/-- Whether block `lba` has an index entry. -/
def Indexed (P : Params) (o : Olayer) (lba : ℕ) : Prop := o.lookupIpu P lba ≠ none

theorem indexed_setIpu {o : Olayer} {lba x : ℕ} (e : IpuEntry) (h : Indexed P o x) :
    Indexed P (o.setIpu P lba (some e)) x := by
  unfold Indexed
  rw [lookupIpu_setIpu]
  split_ifs
  · exact Option.some_ne_none e
  · exact h

/-- One block: it is indexed afterwards, and so is what was indexed before. -/
theorem indexed_indexBlocks {o : Olayer} {txid n lba plba x : ℕ}
    (h : Indexed P o x ∨ lba ≤ x ∧ x < lba + n) :
    Indexed P (indexBlocks P txid n lba plba o) x := by
  induction n generalizing lba plba o with
  | zero =>
      rcases h with h | ⟨h₁, h₂⟩
      · exact h
      · omega
  | succ n ih =>
      unfold indexBlocks
      apply ih
      rcases h with h | ⟨h₁, h₂⟩
      · left
        rcases o.lookupIpu P lba with - | e
        · exact indexed_setIpu _ h
        · dsimp only
          split_ifs
          · exact indexed_setIpu _ h
          · exact h
      · rcases Nat.eq_or_lt_of_le h₁ with rfl | hlt
        · -- `x` is the block indexed first
          left
          rcases e : o.lookupIpu P lba with - | ie
          · simp [Indexed, lookupIpu_setIpu]
          · dsimp only
            split_ifs
            · simp [Indexed, lookupIpu_setIpu]
            · simp [Indexed, e]
        · exact Or.inr ⟨hlt, by omega⟩

/-! ### Draining -/

/-- The index lost entries only at the keys of `bs`, has none left there, and every
entry lost was answered by a buffer sent home for one of `bs` with its key. -/
structure Drained (P : Params) (bs : List (ℕ × ℕ)) (o o' : Olayer) : Prop where
  same : SameQueues o o'
  index : ∀ x, o'.lookupIpu P x = o.lookupIpu P x ∨ o'.lookupIpu P x = none
  gone : ∀ p ∈ bs, o'.lookupIpu P p.2 = none
  io : ∃ new, o'.io = o.io ++ new ∧ ∀ x, Indexed P o x → ¬ Indexed P o' x →
    ∃ p ∈ bs, ipuKey P o.blocksPerGroup p.2 = ipuKey P o.blocksPerGroup x ∧
      Request.bh p.1 p.2 ∈ new

namespace Drained

theorem refl (o : Olayer) : Drained P [] o o :=
  ⟨.refl o, fun _ => Or.inl rfl, by simp, [], (List.append_nil _).symm,
    fun _ h h' => absurd h h'⟩

theorem trans {bs₁ bs₂ : List (ℕ × ℕ)} {o o₁ o₂ : Olayer} (h₁ : Drained P bs₁ o o₁)
    (h₂ : Drained P bs₂ o₁ o₂) : Drained P (bs₁ ++ bs₂) o o₂ := by
  obtain ⟨new₁, hio₁, hnew₁⟩ := h₁.io
  obtain ⟨new₂, hio₂, hnew₂⟩ := h₂.io
  have hkeep : ∀ x, o₁.lookupIpu P x = none → o₂.lookupIpu P x = none := by
    intro x hx
    rcases h₂.index x with h | h
    · rw [h, hx]
    · exact h
  refine ⟨h₁.same.trans h₂.same, ?_, ?_, new₁ ++ new₂, ?_, ?_⟩
  · intro x
    rcases h₁.index x with h | h
    · rw [← h]
      exact h₂.index x
    · exact Or.inr (hkeep x h)
  · intro p hp
    rcases List.mem_append.mp hp with hp | hp
    · exact hkeep _ (h₁.gone p hp)
    · exact h₂.gone p hp
  · rw [hio₂, hio₁, List.append_assoc]
  · intro x hx hx'
    by_cases hmid : Indexed P o₁ x
    · -- lost in the second part
      obtain ⟨p, hp, hkey, hreq⟩ := hnew₂ x hmid hx'
      rw [h₁.same.blocksPerGroup] at hkey
      exact ⟨p, List.mem_append_right _ hp, hkey, List.mem_append_right _ hreq⟩
    · obtain ⟨p, hp, hkey, hreq⟩ := hnew₁ x hx hmid
      exact ⟨p, List.mem_append_left _ hp, hkey, List.mem_append_left _ hreq⟩

end Drained

/-- Writing block `lba` back finds the right transaction id and an unlocked buffer. -/
structure Clean (P : Params) (bc : BufferCache) (o : Olayer) (txid sb lba : ℕ) : Prop where
  txid_eq : ∀ e, o.lookupIpu P lba = some e → e.txid = txid
  unlocked : bc sb lba = .unlocked

/-- Draining other blocks does not spoil a block. -/
theorem Clean.of_drained {bc : BufferCache} {bs : List (ℕ × ℕ)} {o o' : Olayer}
    {txid sb lba : ℕ} (h : Clean P bc o txid sb lba) (hd : Drained P bs o o') :
    Clean P bc o' txid sb lba := by
  refine ⟨fun e he => ?_, h.unlocked⟩
  rcases hd.index lba with hi | hi
  · exact h.txid_eq e (hi ▸ he)
  · rw [hi] at he
    cases he

/-- One block. -/
theorem drained_one (o : Olayer) (sb lba : ℕ) (new : List Request)
    (hnew : Indexed P o lba → Request.bh sb lba ∈ new) :
    Drained P [(sb, lba)] o
      { o.setIpu P lba none with io := (o.setIpu P lba none).io ++ new } := by
  have hlook : ∀ x, ({ o.setIpu P lba none with
      io := (o.setIpu P lba none).io ++ new } : Olayer).lookupIpu P x
      = if ipuKey P o.blocksPerGroup x = ipuKey P o.blocksPerGroup lba then none
        else o.lookupIpu P x := fun x => lookupIpu_setIpu o lba x none
  refine ⟨⟨rfl, rfl, rfl, rfl⟩, ?_, ?_, new, rfl, ?_⟩
  · intro x
    rw [hlook]
    split_ifs
    · exact Or.inr rfl
    · exact Or.inl rfl
  · intro p hp
    obtain rfl := List.mem_singleton.mp hp
    rw [hlook, if_pos rfl]
  · intro x hx hx'
    have hkey : ipuKey P o.blocksPerGroup x = ipuKey P o.blocksPerGroup lba := by
      by_contra hne
      apply hx'
      rw [Indexed, hlook, if_neg hne]
      exact hx
    refine ⟨(sb, lba), List.mem_singleton_self _, hkey.symm, hnew ?_⟩
    -- the two blocks share a key, so they share the entry
    unfold Indexed Olayer.lookupIpu at hx ⊢
    rwa [hkey] at hx

/-- The blocks of one write. -/
def blocksOf (sb lba n : ℕ) : List (ℕ × ℕ) := (List.range n).map fun j => (sb, lba + j)

theorem blocksOf_succ (sb lba n : ℕ) :
    blocksOf sb lba (n + 1) = [(sb, lba)] ++ blocksOf sb (lba + 1) n := by
  simp only [blocksOf, List.range_succ_eq_map, List.map_cons, List.map_map, Nat.add_zero,
    List.singleton_append]
  refine congrArg _ (List.map_congr_left fun j _ => ?_)
  simp only [Function.comp_apply, Nat.succ_eq_add_one, Prod.mk.injEq, true_and]
  omega

theorem mem_blocksOf {sb lba n : ℕ} {p : ℕ × ℕ} :
    p ∈ blocksOf sb lba n ↔ p.1 = sb ∧ lba ≤ p.2 ∧ p.2 < lba + n := by
  obtain ⟨a, b⟩ := p
  simp only [blocksOf, List.mem_map, List.mem_range, Prod.mk.injEq]
  constructor
  · rintro ⟨j, hj, rfl, rfl⟩
    exact ⟨rfl, by omega, by omega⟩
  · rintro ⟨rfl, h₁, h₂⟩
    exact ⟨b - lba, by omega, rfl, by omega⟩

/-- The block loop of `commit_write_entry_per_stream`. -/
theorem drained_commitWriteBlocks {bc : BufferCache} {o : Olayer} {sb txid n lba : ℕ}
    (h : ∀ p ∈ blocksOf sb lba n, Clean P bc o txid p.1 p.2) :
    Drained P (blocksOf sb lba n) o (commitWriteBlocks P bc sb txid n lba o).1 := by
  induction n generalizing lba o with
  | zero => exact Drained.refl o
  | succ n ih =>
      rw [blocksOf_succ] at h ⊢
      have hfirst := h (sb, lba) (List.mem_append_left _ (List.mem_singleton_self _))
      have hrest : ∀ p ∈ blocksOf sb (lba + 1) n, Clean P bc o txid p.1 p.2 :=
        fun p hp => h p (List.mem_append_right _ hp)
      unfold commitWriteBlocks
      rcases e : o.lookupIpu P lba with - | ie
      · -- nothing indexed: deleting is a no-op
        have hd : Drained P [(sb, lba)] o (o.setIpu P lba none) := by
          have := drained_one (P := P) o sb lba [] (fun hx => absurd e hx)
          simpa using this
        exact hd.trans (ih fun p hp => (hrest p hp).of_drained hd)
      · have hd := drained_one (P := P) o sb lba [.bh sb lba]
          (fun _ => List.mem_singleton_self _)
        simp only [hfirst.txid_eq ie e, ne_eq, not_true, if_false, hfirst.unlocked]
        exact hd.trans (ih fun p hp => (hrest p hp).of_drained hd)

/-- A loop whose every round drains its own blocks, whatever was drained before. -/
theorem Drained.foldl {ι : Type*} {f : Olayer → ι → Olayer} {bs : ι → List (ℕ × ℕ)} {o : Olayer}
    {xs : List ι}
    (h : ∀ x ∈ xs, ∀ bs₁ o₁, Drained P bs₁ o o₁ → Drained P (bs x) o₁ (f o₁ x)) :
    Drained P (xs.flatMap bs) o (xs.foldl f o) := by
  induction xs generalizing o with
  | nil => exact Drained.refl o
  | cons x xs ih =>
      have hx := h x List.mem_cons_self [] o (Drained.refl o)
      rw [List.flatMap_cons, List.foldl_cons]
      exact hx.trans (ih fun y hy bs₁ o₁ h₁ =>
        h y (List.mem_cons_of_mem _ hy) _ o₁ (hx.trans h₁))

/-- The blocks handed over by a scan of stream `s`, each with the super block `home`
gives its slot. -/
def handedBlocks (s : Stream) (home : ℕ → ℕ) (segs : List Segment) : List (ℕ × ℕ) :=
  segs.flatMap fun seg => seg.handed.flatMap fun k =>
    blocksOf (home k) (s.ometa k).lba (s.ometa k).length

/-- Nothing goes wrong for the entries handed over: the device of each is registered
under its super block `home`, and each of its blocks is `Clean`. -/
def CleanScan (P : Params) (bc : BufferCache) (o : Olayer) (s : Stream) (home : ℕ → ℕ)
    (segs : List Segment) : Prop :=
  ∀ seg ∈ segs, ∀ k ∈ seg.handed, getSbByDevid o (s.ometa k).deviceId = some (home k) ∧
    ∀ p ∈ blocksOf (home k) (s.ometa k).lba (s.ometa k).length, Clean P bc o seg.txid p.1 p.2

theorem getSbByDevid_congr {o o' : Olayer} (h : SameQueues o o') (id : ℕ) :
    getSbByDevid o' id = getSbByDevid o id := by
  unfold getSbByDevid
  rw [h.registeredList]

/-- **A clean `commit_write` drains the blocks it is handed.** -/
theorem drained_commitWrite {bc : BufferCache} {o : Olayer} {sid : ℕ} {home : ℕ → ℕ}
    {segs : List Segment} (hscan : commitWriteScan P (o.stream sid) = some segs)
    (hclean : CleanScan P bc o (o.stream sid) home segs) :
    ∃ o', commitWrite P bc o sid = some o' ∧
      Drained P (handedBlocks (o.stream sid) home segs) o o' := by
  refine ⟨_, by rw [commitWrite, hscan, Option.map_some], ?_⟩
  refine Drained.foldl fun seg hseg bs₁ o₁ h₁ => Drained.foldl fun k hk bs₂ o₂ h₂ => ?_
  obtain ⟨hsb, hblocks⟩ := hclean seg hseg k hk
  have h₁₂ := h₁.trans h₂
  show Drained P _ o₂ (commitWriteEntryPerStream P bc o₂ ((o.stream sid).ometa k)
    (getSbByDevid o₂ ((o.stream sid).ometa k).deviceId) seg.txid).1
  rw [getSbByDevid_congr h₁₂.same, hsb]
  exact drained_commitWriteBlocks fun p hp => (hblocks p hp).of_drained h₁₂

/-! ### What is sent at all -/

/-- Only buffers of the blocks `bs` are sent. -/
structure Sends (bs : List (ℕ × ℕ)) (o o' : Olayer) : Prop where
  same : SameQueues o o'
  io : ∃ new, o'.io = o.io ++ new ∧ ∀ r ∈ new, ∃ p ∈ bs, r = Request.bh p.1 p.2

namespace Sends

theorem refl (bs : List (ℕ × ℕ)) (o : Olayer) : Sends bs o o :=
  ⟨.refl o, [], (List.append_nil _).symm, by simp⟩

theorem mono {bs bs' : List (ℕ × ℕ)} {o o' : Olayer} (h : Sends bs o o') (hsub : bs ⊆ bs') :
    Sends bs' o o' := by
  obtain ⟨new, hio, hnew⟩ := h.io
  refine ⟨h.same, new, hio, fun r hr => ?_⟩
  obtain ⟨p, hp, he⟩ := hnew r hr
  exact ⟨p, hsub hp, he⟩

theorem trans {bs : List (ℕ × ℕ)} {o o₁ o₂ : Olayer} (h₁ : Sends bs o o₁)
    (h₂ : Sends bs o₁ o₂) : Sends bs o o₂ := by
  obtain ⟨new₁, hio₁, hnew₁⟩ := h₁.io
  obtain ⟨new₂, hio₂, hnew₂⟩ := h₂.io
  refine ⟨h₁.same.trans h₂.same, new₁ ++ new₂, by rw [hio₂, hio₁, List.append_assoc], ?_⟩
  intro r hr
  exact (List.mem_append.mp hr).elim (hnew₁ r) (hnew₂ r)

theorem foldl {ι : Type*} {f : Olayer → ι → Olayer} {bs : List (ℕ × ℕ)} {o : Olayer}
    {xs : List ι} (h : ∀ x ∈ xs, ∀ o₁, SameQueues o o₁ → Sends bs o₁ (f o₁ x)) :
    Sends bs o (xs.foldl f o) := by
  induction xs generalizing o with
  | nil => exact refl bs o
  | cons x xs ih =>
      have hx := h x List.mem_cons_self o (.refl o)
      exact hx.trans (ih fun y hy o₁ h₁ => h y (List.mem_cons_of_mem _ hy) o₁ (hx.same.trans h₁))

end Sends

theorem sends_commitWriteBlocks (bc : BufferCache) (sb txid n lba : ℕ) (o : Olayer) :
    Sends (blocksOf sb lba n) o (commitWriteBlocks P bc sb txid n lba o).1 := by
  induction n generalizing lba o with
  | zero => exact Sends.refl _ o
  | succ n ih =>
      rw [blocksOf_succ]
      have hrest : ∀ o₁, Sends ([(sb, lba)] ++ blocksOf sb (lba + 1) n) o₁
          (commitWriteBlocks P bc sb txid n (lba + 1) o₁).1 :=
        fun o₁ => (ih (lba + 1) o₁).mono (List.subset_append_right _ _)
      have hdel : Sends ([(sb, lba)] ++ blocksOf sb (lba + 1) n) o (o.setIpu P lba none) :=
        ⟨sameQueues_setIpu o lba none, [], (List.append_nil _).symm, by simp⟩
      unfold commitWriteBlocks
      rcases o.lookupIpu P lba with - | e
      · exact hdel.trans (hrest _)
      · dsimp only
        split_ifs
        · exact hdel.trans (hrest _)
        · rcases bc sb lba with - | - | -
          · exact hdel
          · exact hdel.trans (hrest _)
          · -- the one case in which a buffer is sent
            refine Sends.trans ?_ (hrest _)
            refine ⟨⟨rfl, rfl, rfl, rfl⟩, [.bh sb lba], rfl, fun r hr => ?_⟩
            exact ⟨(sb, lba), List.mem_append_left _ (List.mem_singleton_self _),
              List.mem_singleton.mp hr⟩

/-- The blocks of the entries handed over, on the super blocks `get_sb_by_devid` finds. -/
def sentBlocks (o : Olayer) (s : Stream) (segs : List Segment) : List (ℕ × ℕ) :=
  segs.flatMap fun seg => seg.handed.flatMap fun k =>
    ((getSbByDevid o (s.ometa k).deviceId).map fun sb =>
      blocksOf sb (s.ometa k).lba (s.ometa k).length).getD []

/-- **`commit_write` sends only buffers of entries handed over by the scan.** -/
theorem sends_commitWrite {bc : BufferCache} {o o' : Olayer} {sid : ℕ}
    (h : commitWrite P bc o sid = some o') :
    ∃ segs, commitWriteScan P (o.stream sid) = some segs ∧
      Sends (sentBlocks o (o.stream sid) segs) o o' := by
  obtain ⟨segs, hscan, rfl⟩ := Option.map_eq_some_iff.mp h
  refine ⟨segs, hscan, Sends.foldl fun seg hseg o₁ h₁ => Sends.foldl fun k hk o₂ h₂ => ?_⟩
  show Sends _ o₂ (commitWriteEntryPerStream P bc o₂ ((o.stream sid).ometa k)
    (getSbByDevid o₂ ((o.stream sid).ometa k).deviceId) seg.txid).1
  rw [getSbByDevid_congr (h₁.trans h₂)]
  rcases e : getSbByDevid o ((o.stream sid).ometa k).deviceId with - | sb
  · exact Sends.refl _ _
  · refine (sends_commitWriteBlocks bc sb seg.txid _ _ o₂).mono fun p hp => ?_
    refine List.mem_flatMap.mpr ⟨seg, hseg, List.mem_flatMap.mpr ⟨k, hk, ?_⟩⟩
    rw [e]
    exact hp

end CcNvme

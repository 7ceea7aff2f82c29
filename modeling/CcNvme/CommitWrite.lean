/-
CcNvme/CommitWrite.lean

One `commit_write` in detail: which index entries it takes out, what it sends, and what is
left of the blocks for which `sb_getblk` fails.

`TakesOut bs o o'` says that the keys of the blocks `bs` have been emptied, that every other
key is as it was, and that each block was sent at most once.  It composes along `++`, since a
block is sent only while its key holds an entry, and loses the entry then.  The nested loops
of `commit_write` are one such step over all the blocks handed over (`commit_write_exact`).

For the failures each call of `commit_write_entry_per_stream` is run with the list of its lock
operations and buffer lookups.  `failed_writeback_iff` says that nothing of a failure is made
good: the block is lost from the index, the tree lock is released once too often, and the
return value is dropped twice, so that `head` passes the entry.
-/
import CcNvme.IndexMap

namespace CcNvme

variable {P : Params}

/-! ### Taking blocks out of the index -/

/-- The key of one of the blocks `bs`, where `n` is `blocks_per_group`. -/
def AtKeyOf (P : Params) (n : ℕ) (bs : List (ℕ × ℕ)) (t off : ℕ) : Prop :=
  ∃ p ∈ bs, ipuKey P n p.2 = (t, off)

/-- The keys of `bs` have been emptied and nothing else; each block that was sent is one of
`bs`, had an entry, and was sent once. -/
structure TakesOut (P : Params) (bs : List (ℕ × ℕ)) (o o' : Olayer) : Prop where
  same : SameQueues o o'
  gone : ∀ t off, AtKeyOf P o.blocksPerGroup bs t off → o'.ipuTree t off = none
  kept : ∀ t off, ¬ AtKeyOf P o.blocksPerGroup bs t off → o'.ipuTree t off = o.ipuTree t off
  sends : ∃ new : List (ℕ × ℕ), o'.io = o.io ++ new.map (fun p => Request.bh p.1 p.2) ∧ new.Nodup ∧
    ∀ p ∈ new, p ∈ bs ∧ Indexed P o p.2

namespace TakesOut

variable {bs bs₁ bs₂ : List (ℕ × ℕ)} {o o₁ o₂ : Olayer}

theorem refl (o : Olayer) : TakesOut P [] o o where
  same := .refl o
  gone := fun _ _ ⟨_, hp, _⟩ => absurd hp List.not_mem_nil
  kept := fun _ _ _ => rfl
  sends := ⟨[], (List.append_nil _).symm, List.nodup_nil, by simp⟩

/-- A block of `bs` has lost its entry. -/
theorem not_indexed (h : TakesOut P bs o o₁) {p : ℕ × ℕ} (hp : p ∈ bs) : ¬ Indexed P o₁ p.2 := by
  unfold Indexed Olayer.lookupIpu
  rw [h.same.blocksPerGroup]
  exact not_not.mpr (h.gone _ _ ⟨p, hp, rfl⟩)

/-- No block has got an entry. -/
theorem indexed_of (h : TakesOut P bs o o₁) {x : ℕ} (hx : Indexed P o₁ x) : Indexed P o x := by
  unfold Indexed Olayer.lookupIpu at hx ⊢
  rw [h.same.blocksPerGroup] at hx
  by_cases hkey : AtKeyOf P o.blocksPerGroup bs (ipuKey P o.blocksPerGroup x).1
      (ipuKey P o.blocksPerGroup x).2
  · exact absurd (h.gone _ _ hkey) hx
  · rwa [h.kept _ _ hkey] at hx

theorem trans (h₁ : TakesOut P bs₁ o o₁) (h₂ : TakesOut P bs₂ o₁ o₂) :
    TakesOut P (bs₁ ++ bs₂) o o₂ := by
  have hgroup := h₁.same.blocksPerGroup
  obtain ⟨new₁, hio₁, hnodup₁, hnew₁⟩ := h₁.sends
  obtain ⟨new₂, hio₂, hnodup₂, hnew₂⟩ := h₂.sends
  refine ⟨h₁.same.trans h₂.same, ?_, ?_, new₁ ++ new₂, ?_, ?_, ?_⟩
  · rintro t off ⟨p, hp, hkey⟩
    by_cases hsecond : AtKeyOf P o₁.blocksPerGroup bs₂ t off
    · exact h₂.gone t off hsecond
    · -- emptied by the first part, and left so by the second
      rw [h₂.kept t off hsecond]
      rcases List.mem_append.mp hp with hp | hp
      · exact h₁.gone t off ⟨p, hp, hkey⟩
      · exact absurd ⟨p, hp, hgroup ▸ hkey⟩ hsecond
  · intro t off hno
    have hfirst : ¬ AtKeyOf P o.blocksPerGroup bs₁ t off :=
      fun ⟨p, hp, hkey⟩ => hno ⟨p, List.mem_append_left _ hp, hkey⟩
    have hsecond : ¬ AtKeyOf P o₁.blocksPerGroup bs₂ t off :=
      fun ⟨p, hp, hkey⟩ => hno ⟨p, List.mem_append_right _ hp, hgroup ▸ hkey⟩
    rw [h₂.kept t off hsecond, h₁.kept t off hfirst]
  · rw [hio₂, hio₁, List.map_append, List.append_assoc]
  · -- what the second part sends still had an entry after the first
    refine List.nodup_append.mpr ⟨hnodup₁, hnodup₂, fun p hp q hq hpq => ?_⟩
    subst hpq
    exact h₁.not_indexed (hnew₁ p hp).1 (hnew₂ p hq).2
  · intro p hp
    rcases List.mem_append.mp hp with hp | hp
    · exact ⟨List.mem_append_left _ (hnew₁ p hp).1, (hnew₁ p hp).2⟩
    · exact ⟨List.mem_append_right _ (hnew₂ p hp).1, h₁.indexed_of (hnew₂ p hp).2⟩

theorem foldl {ι : Type*} {f : Olayer → ι → Olayer} {bs : ι → List (ℕ × ℕ)} {o : Olayer}
    {xs : List ι} (h : ∀ x ∈ xs, ∀ o₁, SameQueues o o₁ → TakesOut P (bs x) o₁ (f o₁ x)) :
    TakesOut P (xs.flatMap bs) o (xs.foldl f o) := by
  induction xs generalizing o with
  | nil => exact refl o
  | cons x xs ih =>
      have hx := h x List.mem_cons_self o (.refl o)
      rw [List.flatMap_cons, List.foldl_cons]
      exact hx.trans (ih fun y hy o₁ h₁ =>
        h y (List.mem_cons_of_mem _ hy) o₁ (hx.same.trans h₁))

/-- One block, which is sent only if it has an entry. -/
theorem one (o : Olayer) (sb lba : ℕ) {new : List (ℕ × ℕ)}
    (hnew : new = [] ∨ new = [(sb, lba)] ∧ Indexed P o lba) :
    TakesOut P [(sb, lba)] o { o.setIpu P lba none with
      io := o.io ++ new.map fun p => .bh p.1 p.2 } := by
  refine ⟨⟨rfl, rfl, rfl, rfl⟩, ?_, ?_, new, rfl, ?_, ?_⟩
  · rintro t off ⟨p, hp, hkey⟩
    obtain rfl := List.mem_singleton.mp hp
    exact (ipuTree_setIpu o lba t off none).trans (if_pos hkey)
  · intro t off hno
    exact (ipuTree_setIpu o lba t off none).trans
      (if_neg fun hkey => hno ⟨_, List.mem_singleton_self _, hkey⟩)
  · rcases hnew with rfl | ⟨rfl, -⟩
    · exact List.nodup_nil
    · exact List.nodup_singleton _
  · intro p hp
    rcases hnew with rfl | ⟨rfl, hindexed⟩
    · cases hp
    · obtain rfl := List.mem_singleton.mp hp
      exact ⟨hp, hindexed⟩

end TakesOut

/-- The block loop takes out its blocks, whatever the transaction ids. -/
theorem takesOut_commitWriteBlocks {bc : BufferCache} (hmem : ∀ sb lba, bc sb lba ≠ .noMem)
    (sb txid n lba : ℕ) (o : Olayer) :
    TakesOut P (blocksOf sb lba n) o (commitWriteBlocks P bc sb txid n lba o).1 := by
  induction n generalizing lba o with
  | zero => exact TakesOut.refl o
  | succ n ih =>
      have hskip : TakesOut P [(sb, lba)] o (o.setIpu P lba none) := by
        have hone := TakesOut.one (P := P) o sb lba (Or.inl rfl)
        rw [List.map_nil, List.append_nil] at hone
        exact hone
      rw [blocksOf_succ, commitWriteBlocks]
      rcases e : o.lookupIpu P lba with - | entry
      · exact hskip.trans (ih (lba + 1) _)
      · dsimp only
        split_ifs
        · exact hskip.trans (ih (lba + 1) _)
        · rcases hbuf : bc sb lba with - | - | -
          · exact absurd hbuf (hmem sb lba)
          · exact hskip.trans (ih (lba + 1) _)
          · have hindexed : Indexed P o lba := by simp [Indexed, e]
            exact (TakesOut.one o sb lba (Or.inr ⟨rfl, hindexed⟩)).trans (ih (lba + 1) _)

/-- `commit_write` takes out the blocks of the entries handed over whose device is known. -/
theorem takesOut_commitWrite {bc : BufferCache} (hmem : ∀ sb lba, bc sb lba ≠ .noMem)
    {o : Olayer} {sid : ℕ} (h : (o.stream sid).InRing P) :
    ∃ o', commitWrite P bc o sid = some o' ∧
      TakesOut P (sentBlocks o (o.stream sid) ((o.stream sid).delimited P)) o o' := by
  refine ⟨_, by rw [commitWrite, commitWriteScan_eq h.head_lt h.flushed_lt, Option.map_some], ?_⟩
  refine TakesOut.foldl fun seg hseg o₁ h₁ => TakesOut.foldl fun k hk o₂ h₂ => ?_
  show TakesOut P _ o₂ (commitWriteEntryPerStream P bc o₂ ((o.stream sid).ometa k)
    (getSbByDevid o₂ ((o.stream sid).ometa k).deviceId) seg.txid).1
  rw [getSbByDevid_congr (h₁.trans h₂)]
  rcases getSbByDevid o ((o.stream sid).ometa k).deviceId with - | sb
  · exact TakesOut.refl o₂
  · exact takesOut_commitWriteBlocks hmem sb seg.txid _ _ o₂

/-! ### Exactly its own blocks -/

/-- Slot `k` holds an entry that the scan hands over: it lies strictly between a BEGIN and its
END, and has a journal address. -/
def Stream.Hands (P : Params) (s : Stream) (k : ℕ) : Prop :=
  ∃ seg ∈ s.delimited P, k ∈ seg.handed

/-- Block `x` belongs to an entry handed over. -/
def Stream.HandsBlock (P : Params) (s : Stream) (x : ℕ) : Prop :=
  ∃ k, s.Hands P k ∧ (s.ometa k).lba ≤ x ∧ x < (s.ometa k).lba + (s.ometa k).length

/-- What `commit_write` of stream `s` did to the index and what it sent. -/
structure TouchesOwnBlocks (P : Params) (s : Stream) (o o' : Olayer) : Prop where
  removed : ∀ x, s.HandsBlock P x → ∀ t off, ipuKey P o.blocksPerGroup x = (t, off) →
    o'.ipuTree t off = none
  kept : ∀ t off, (∀ x, s.HandsBlock P x → ipuKey P o.blocksPerGroup x ≠ (t, off)) →
    o'.ipuTree t off = o.ipuTree t off
  /-- seen from the blocks: a number below 2^32 has a key of its own -/
  blocks : 0 < o.blocksPerGroup → (∀ x, s.HandsBlock P x → x < 2 ^ 32) → ∀ x < 2 ^ 32,
    ¬ s.HandsBlock P x → o'.lookupIpu P x = o.lookupIpu P x
  once : ∃ new : List (ℕ × ℕ), o'.io = o.io ++ new.map (fun p => Request.bh p.1 p.2) ∧ new.Nodup ∧
    ∀ p ∈ new, ∃ k, s.Hands P k ∧ getSbByDevid o (s.ometa k).deviceId = some p.1 ∧
      (s.ometa k).lba ≤ p.2 ∧ p.2 < (s.ometa k).lba + (s.ometa k).length

theorem mem_sentBlocks {o : Olayer} {s : Stream} {p : ℕ × ℕ} :
    p ∈ sentBlocks o s (s.delimited P) ↔ ∃ k, s.Hands P k ∧
      getSbByDevid o (s.ometa k).deviceId = some p.1 ∧
      (s.ometa k).lba ≤ p.2 ∧ p.2 < (s.ometa k).lba + (s.ometa k).length := by
  simp only [sentBlocks, List.mem_flatMap]
  constructor
  · rintro ⟨seg, hseg, k, hk, hp⟩
    rcases hsb : getSbByDevid o (s.ometa k).deviceId with - | sb
    · rw [hsb] at hp
      cases hp
    · rw [hsb] at hp
      obtain ⟨rfl, hlo, hhi⟩ := mem_blocksOf.mp hp
      exact ⟨k, ⟨seg, hseg, hk⟩, hsb, hlo, hhi⟩
  · rintro ⟨k, ⟨seg, hseg, hk⟩, hsb, hlo, hhi⟩
    refine ⟨seg, hseg, k, hk, ?_⟩
    rw [hsb]
    exact mem_blocksOf.mpr ⟨rfl, hlo, hhi⟩

/-- **`commit_write` touches exactly its own blocks.**  If the devices of the entries handed
over are registered and no buffer lookup fails, the keys of their blocks are emptied, every
other key keeps its entry, and no block is sent twice. -/
theorem commit_write_exact (P : Params) (bc : BufferCache) (o : Olayer) (sid : ℕ)
    (hring : (o.stream sid).InRing P) (hmem : ∀ sb lba, bc sb lba ≠ .noMem)
    (hreg : ∀ k, (o.stream sid).Hands P k →
      ∃ sb, getSbByDevid o ((o.stream sid).ometa k).deviceId = some sb) :
    ∃ o', commitWrite P bc o sid = some o' ∧ TouchesOwnBlocks P (o.stream sid) o o' := by
  obtain ⟨o', h, htakes⟩ := takesOut_commitWrite hmem hring
  have hkey : ∀ t off, AtKeyOf P o.blocksPerGroup
      (sentBlocks o (o.stream sid) ((o.stream sid).delimited P)) t off ↔
        ∃ x, (o.stream sid).HandsBlock P x ∧ ipuKey P o.blocksPerGroup x = (t, off) := by
    intro t off
    constructor
    · rintro ⟨p, hp, hpk⟩
      obtain ⟨k, hk, -, hblock⟩ := mem_sentBlocks.mp hp
      exact ⟨p.2, ⟨k, hk, hblock⟩, hpk⟩
    · rintro ⟨x, ⟨k, hk, hblock⟩, hxk⟩
      obtain ⟨sb, hsb⟩ := hreg k hk
      exact ⟨(sb, x), mem_sentBlocks.mpr ⟨k, hk, hsb, hblock⟩, hxk⟩
  have hkept : ∀ t off, (∀ x, (o.stream sid).HandsBlock P x →
      ipuKey P o.blocksPerGroup x ≠ (t, off)) → o'.ipuTree t off = o.ipuTree t off :=
    fun t off hno => htakes.kept t off fun hat =>
      let ⟨x, hx, hxk⟩ := (hkey t off).mp hat
      hno x hx hxk
  refine ⟨o', h, ?_, hkept, ?_, ?_⟩
  · intro x hx t off hxk
    exact htakes.gone t off ((hkey t off).mpr ⟨x, hx, hxk⟩)
  · intro hgroup hbelow x hx hno
    unfold Olayer.lookupIpu
    rw [htakes.same.blocksPerGroup]
    refine hkept _ _ fun y hy hyk => hno ?_
    rwa [ipuKey_inj hgroup hx (hbelow y hy) hyk.symm]
  · obtain ⟨new, hio, hnodup, hnew⟩ := htakes.sends
    exact ⟨new, hio, hnodup, fun p hp => mem_sentBlocks.mp (hnew p hp).1⟩

/-- A transaction of two journaled writes that overlap in block 11. -/
def overlapping : Olayer :=
  let ring : ℕ → Ometa
    | 0 => ⟨0, 1, 0, HoraeFlag.txBegin.bit, 0, 0⟩
    | 1 => ⟨10, 2, 0, HoraeFlag.tx.bit, 0, 20⟩
    | 2 => ⟨11, 2, 0, HoraeFlag.tx.bit, 0, 22⟩
    | 3 => ⟨0, 1, 0, HoraeFlag.txEnd.bit, 0, 0⟩
    | _ => Ometa.zero
  indexBlocks Params.roomy 0 4 10 20
    { roomyLoaded.setStream 5 { roomyLoaded.stream 5 with
        tail := 4, tailWatermark := 4, flushed := 4, ometa := ring } with
      registeredList := [⟨⟨0, 0⟩, 7⟩], blocksPerGroup := 128 }

/-- The block they share is sent once, and block 13, which is in neither, keeps its entry. -/
theorem commit_write_exact_overlapping :
    ∃ o', commitWrite Params.roomy (fun _ _ => .unlocked) overlapping 5 = some o' ∧
      TouchesOwnBlocks Params.roomy (overlapping.stream 5) overlapping o' ∧
      o'.io = [.bh 7 10, .bh 7 11, .bh 7 12] ∧
      o'.lookupIpu Params.roomy 13 = some ⟨13, 23, 0⟩ := by
  have hring : (overlapping.stream 5).InRing Params.roomy :=
    ⟨by decide +kernel, by decide +kernel, by decide +kernel, by decide +kernel⟩
  have hdevices : ∀ seg ∈ (overlapping.stream 5).delimited Params.roomy, ∀ k ∈ seg.handed,
      getSbByDevid overlapping ((overlapping.stream 5).ometa k).deviceId = some 7 := by
    decide +kernel
  obtain ⟨o', h, htouch⟩ := commit_write_exact Params.roomy (fun _ _ => .unlocked) overlapping 5
    hring (fun _ _ => by decide) (fun k ⟨seg, hseg, hk⟩ => ⟨7, hdevices seg hseg k hk⟩)
  have hend : (commitWrite Params.roomy (fun _ _ => .unlocked) overlapping 5).map
      (fun o' => (o'.io, o'.lookupIpu Params.roomy 13))
      = some ([.bh 7 10, .bh 7 11, .bh 7 12], some ⟨13, 23, 0⟩) := by decide +kernel
  rw [h, Option.map_some] at hend
  obtain ⟨hio, hkept⟩ := Prod.mk.inj (Option.some.inj hend)
  exact ⟨o', h, htouch, hio, hkept⟩

/-! ### Calls with their traces -/

/-- What `commit_write_entry_per_stream` does besides changing the index. -/
inductive WritebackEvent where
  /-- `down_write(&olayer->ipu_tree_locks[t])` -/
  | down (t : ℕ)
  /-- `up_write(&olayer->ipu_tree_locks[t])` -/
  | up (t : ℕ)
  /-- `sb_getblk(sb, lba)` -/
  | getblk (lba : ℕ)
  deriving DecidableEq

/-- The state and the return value of the block loop, with its trace. -/
abbrev Traced := (Olayer × ℤ) × List WritebackEvent

/-- The events `pre`, and then those of `r`. -/
def Traced.after (pre : List WritebackEvent) (r : Traced) : Traced := (r.1, pre ++ r.2)

/-- `commitWriteBlocks`, with the lock operations and the buffer lookups it makes. -/
def commitWriteBlocksTraced (P : Params) (bc : BufferCache) (sb txid : ℕ) :
    ℕ → ℕ → Olayer → Traced
  | 0, _, o => ((o, 0), [])
  | n + 1, lba, o =>
      let t := (ipuKey P o.blocksPerGroup lba).1
      let o' := o.setIpu P lba none
      let rest := commitWriteBlocksTraced P bc sb txid n (lba + 1)
      match o.lookupIpu P lba with
      | none => (rest o').after [.down t, .up t]
      | some e =>
          if e.txid ≠ txid then (rest o').after [.down t, .up t]
          else
            match bc sb lba with
            -- the lock has been released already
            | .noMem => ((o', -12), [.down t, .up t, .getblk lba, .up t])
            | .locked => (rest o').after [.down t, .up t, .getblk lba]
            | .unlocked =>
                (rest { o' with io := o'.io ++ [.bh sb lba] }).after
                  [.down t, .up t, .getblk lba]

theorem commitWriteBlocksTraced_fst (bc : BufferCache) (sb txid n lba : ℕ) (o : Olayer) :
    (commitWriteBlocksTraced P bc sb txid n lba o).1 = commitWriteBlocks P bc sb txid n lba o := by
  induction n generalizing lba o with
  | zero => rfl
  | succ n ih =>
      rw [commitWriteBlocksTraced, commitWriteBlocks]
      rcases o.lookupIpu P lba with - | e
      · exact ih _ _
      · dsimp only
        split_ifs
        · exact ih _ _
        · rcases bc sb lba with - | - | -
          · rfl
          · exact ih _ _
          · exact ih _ _

/-- The loop went through: no lookup failed, and each lock was released as often as taken. -/
structure Completed (bc : BufferCache) (sb : ℕ) (r : Traced) : Prop where
  ret : r.1.2 = 0
  found : ∀ x, .getblk x ∈ r.2 → bc sb x ≠ .noMem
  locks : ∀ t, r.2.count (.down t) = r.2.count (.up t)

/-- The loop, begun in `o`, ended at block `x`, for which there was no buffer: the block had
an index entry and has it no more, and the lock of its tree was released once too often. -/
structure LostAt (P : Params) (bc : BufferCache) (sb : ℕ) (o : Olayer) (r : Traced) (x : ℕ) :
    Prop where
  ret : r.1.2 = -12
  looked : .getblk x ∈ r.2
  noMem : bc sb x = .noMem
  only : ∀ y, .getblk y ∈ r.2 → bc sb y = .noMem → y = x
  was : Indexed P o x
  gone : ¬ Indexed P r.1.1 x
  locks : ∀ t, r.2.count (.up t)
    = r.2.count (.down t) + if t = (ipuKey P o.blocksPerGroup x).1 then 1 else 0

/-- A round of the loop that goes on to the next block. -/
structure Round (P : Params) (bc : BufferCache) (sb : ℕ) (pre : List WritebackEvent)
    (o o₁ : Olayer) : Prop where
  found : ∀ x, .getblk x ∈ pre → bc sb x ≠ .noMem
  locks : ∀ t, pre.count (.down t) = pre.count (.up t)
  group : o₁.blocksPerGroup = o.blocksPerGroup
  indexed : ∀ x, Indexed P o₁ x → Indexed P o x

section Round

variable {bc : BufferCache} {sb : ℕ} {pre : List WritebackEvent} {o o₁ : Olayer} {r : Traced}

theorem Round.completed (h : Round P bc sb pre o o₁) (hr : Completed bc sb r) :
    Completed bc sb (r.after pre) where
  ret := hr.ret
  found x hx := (List.mem_append.mp hx).elim (h.found x) (hr.found x)
  locks t := by
    show (pre ++ r.2).count _ = (pre ++ r.2).count _
    rw [List.count_append, List.count_append, h.locks, hr.locks]

theorem Round.lostAt (h : Round P bc sb pre o o₁) {x : ℕ} (hr : LostAt P bc sb o₁ r x) :
    LostAt P bc sb o (r.after pre) x where
  ret := hr.ret
  looked := List.mem_append_right _ hr.looked
  noMem := hr.noMem
  only y hy hmem := (List.mem_append.mp hy).elim (fun hy => absurd hmem (h.found y hy))
    fun hy => hr.only y hy hmem
  was := h.indexed x hr.was
  gone := hr.gone
  locks t := by
    show (pre ++ r.2).count _ = (pre ++ r.2).count _ + _
    rw [List.count_append, List.count_append, h.locks, hr.locks, h.group, Nat.add_assoc]

/-- A block whose entry is taken out and whose buffer, if looked up, is found. -/
theorem Round.of_setIpu {lba t : ℕ} (hindex : o₁.ipuTree = (o.setIpu P lba none).ipuTree)
    (hgroup : o₁.blocksPerGroup = o.blocksPerGroup)
    (hpre : pre = [.down t, .up t] ∨
      pre = [.down t, .up t, .getblk lba] ∧ bc sb lba ≠ .noMem) : Round P bc sb pre o o₁ where
  found x hx := by
    rcases hpre with rfl | ⟨rfl, hfound⟩
    · simp at hx
    · obtain rfl : x = lba := by simpa using hx
      exact hfound
  locks t' := by
    rcases hpre with rfl | ⟨rfl, -⟩ <;> simp [List.count_cons]
  group := hgroup
  indexed x hx := by
    unfold Indexed Olayer.lookupIpu at hx ⊢
    rw [hgroup, hindex, ipuTree_setIpu] at hx
    split_ifs at hx
    · exact absurd rfl hx
    · exact hx

end Round

/-- **One call**: it goes through, or it loses one block. -/
theorem commitWriteBlocksTraced_cases (bc : BufferCache) (sb txid n lba : ℕ) (o : Olayer) :
    Completed bc sb (commitWriteBlocksTraced P bc sb txid n lba o) ∨
      ∃ x, lba ≤ x ∧ x < lba + n ∧
        LostAt P bc sb o (commitWriteBlocksTraced P bc sb txid n lba o) x := by
  induction n generalizing lba o with
  | zero => exact Or.inl ⟨rfl, by simp [commitWriteBlocksTraced], fun _ => rfl⟩
  | succ n ih =>
      have hnext : ∀ pre o₁, Round P bc sb pre o o₁ →
          Completed bc sb ((commitWriteBlocksTraced P bc sb txid n (lba + 1) o₁).after pre) ∨
            ∃ x, lba ≤ x ∧ x < lba + (n + 1) ∧ LostAt P bc sb o
              ((commitWriteBlocksTraced P bc sb txid n (lba + 1) o₁).after pre) x := by
        intro pre o₁ hround
        rcases ih (lba + 1) o₁ with hdone | ⟨x, hlo, hhi, hlost⟩
        · exact Or.inl (hround.completed hdone)
        · exact Or.inr ⟨x, by omega, by omega, hround.lostAt hlost⟩
      rw [commitWriteBlocksTraced]
      rcases e : o.lookupIpu P lba with - | entry
      · exact hnext _ _ (.of_setIpu rfl rfl (Or.inl rfl))
      · dsimp only
        split_ifs
        · exact hnext _ _ (.of_setIpu rfl rfl (Or.inl rfl))
        · rcases hbuf : bc sb lba with - | - | -
          · -- the entry is gone, and the lock is released a second time
            refine Or.inr ⟨lba, le_rfl, by omega, rfl, by simp, hbuf, by simp, ?_, ?_, fun t => ?_⟩
            · simp [Indexed, e]
            · simp [Indexed, lookupIpu_setIpu]
            · by_cases ht : t = (ipuKey P o.blocksPerGroup lba).1
              · simp [ht]
              · simp [ht, Ne.symm ht]
          · exact hnext _ _ (.of_setIpu rfl rfl (Or.inr ⟨rfl, by simp [hbuf]⟩))
          · exact hnext _ _ (.of_setIpu rfl rfl (Or.inr ⟨rfl, by simp [hbuf]⟩))

/-- One call of `commit_write_entry_per_stream`: the slot of its entry, its other arguments, and
the state it is made in. -/
structure WritebackCall where
  slot : ℕ
  sb : Option ℕ
  txid : ℕ
  before : Olayer

namespace WritebackCall

variable (P : Params) (bc : BufferCache) (s : Stream)

/-- The call on an entry of the ring of `s`. -/
def run (c : WritebackCall) : Traced :=
  match c.sb with
  | none => ((c.before, 0), [])
  | some sb => commitWriteBlocksTraced P bc sb c.txid (s.ometa c.slot).length
      (s.ometa c.slot).lba c.before

/-- The call looks up the buffer of block `x` and gets none. -/
def FailsAt (c : WritebackCall) (x : ℕ) : Prop :=
  .getblk x ∈ (c.run P bc s).2 ∧ ∃ sb, c.sb = some sb ∧ bc sb x = .noMem

end WritebackCall

/-- The slots that `commit_write` hands over, with the transaction id of each. -/
def handedSlots (segs : List Segment) : List (ℕ × ℕ) :=
  segs.flatMap fun seg => seg.handed.map fun k => (k, seg.txid)

/-- The calls `commit_write` makes for these slots. -/
def commitWriteCalls (P : Params) (bc : BufferCache) (s : Stream) :
    List (ℕ × ℕ) → Olayer → List WritebackCall
  | [], _ => []
  | (k, txid) :: ks, o =>
      let c : WritebackCall := ⟨k, getSbByDevid o (s.ometa k).deviceId, txid, o⟩
      c :: commitWriteCalls P bc s ks (c.run P bc s).1.1

theorem WritebackCall.run_fst (bc : BufferCache) (s : Stream) (c : WritebackCall) :
    (c.run P bc s).1 = commitWriteEntryPerStream P bc c.before (s.ometa c.slot) c.sb c.txid := by
  unfold run commitWriteEntryPerStream
  rcases c.sb with - | sb
  · rfl
  · exact commitWriteBlocksTraced_fst bc sb c.txid _ _ c.before

/-- `commit_write` ends in the state its last call leaves. -/
theorem commitWrite_eq_calls (bc : BufferCache) (s : Stream) (segs : List Segment) (o : Olayer) :
    segs.foldl (commitSegment P bc s) o
      = (commitWriteCalls P bc s (handedSlots segs) o).foldl
          (fun _ c => (c.run P bc s).1.1) o := by
  have hslots : segs.foldl (commitSegment P bc s) o = (handedSlots segs).foldl
      (fun o p => (commitWriteEntryPerStream P bc o (s.ometa p.1)
        (getSbByDevid o (s.ometa p.1).deviceId) p.2).1) o := by
    rw [handedSlots, List.foldl_flatMap]
    congr 1
    funext o seg
    rw [List.foldl_map]
    rfl
  rw [hslots]
  clear hslots
  generalize handedSlots segs = ks
  induction ks generalizing o with
  | nil => rfl
  | cons p ks ih =>
      rw [List.foldl_cons, ih, commitWriteCalls, List.foldl_cons, WritebackCall.run_fst]

/-! ### A failing write-back -/

/-- What is asked of a call inside the wrap that led from `o` to `o'`: the locks balance; and
where a buffer lookup fails, that block and those behind it stay in the index, and the entry
stays in front of `head`. -/
structure LeftForLater (P : Params) (bc : BufferCache) (sid : ℕ) (o o' : Olayer)
    (c : WritebackCall) : Prop where
  balanced : ∀ t, (c.run P bc (o.stream sid)).2.count (.down t)
    = (c.run P bc (o.stream sid)).2.count (.up t)
  kept : ∀ x, c.FailsAt P bc (o.stream sid) x → ∀ y, x ≤ y →
    y < ((o.stream sid).ometa c.slot).lba + ((o.stream sid).ometa c.slot).length →
    (c.run P bc (o.stream sid)).1.1.lookupIpu P y = c.before.lookupIpu P y
  head : ∀ x, c.FailsAt P bc (o.stream sid) x →
    c.slot ∈ slotsOf P (o'.stream sid).head (o.stream sid).flushed

/-- The calls of `commit_write(stream)` in state `o`. -/
def Olayer.writebackCalls (P : Params) (bc : BufferCache) (sid : ℕ) (o : Olayer) :
    List WritebackCall :=
  commitWriteCalls P bc (o.stream sid) (handedSlots ((o.stream sid).delimited P)) o

/-- A call whose lookup fails loses that block. -/
theorem WritebackCall.lostAt {bc : BufferCache} {s : Stream} {c : WritebackCall} {x : ℕ}
    (h : c.FailsAt P bc s x) :
    ∃ sb, c.sb = some sb ∧ x < (s.ometa c.slot).lba + (s.ometa c.slot).length ∧
      LostAt P bc sb c.before (c.run P bc s) x := by
  obtain ⟨hlooked, sb, hsb, hmem⟩ := h
  have hrun : c.run P bc s = commitWriteBlocksTraced P bc sb c.txid (s.ometa c.slot).length
      (s.ometa c.slot).lba c.before := by rw [run, hsb]
  rw [hrun] at hlooked ⊢
  rcases commitWriteBlocksTraced_cases (P := P) bc sb c.txid (s.ometa c.slot).length
    (s.ometa c.slot).lba c.before with hdone | ⟨y, -, hhi, hlost⟩
  · exact absurd hmem (hdone.found x hlooked)
  · obtain rfl := hlost.only x hlooked hmem
    exact ⟨sb, hsb, hhi, hlost⟩

/-- A call none of whose lookups fails releases what it takes. -/
theorem WritebackCall.balanced {bc : BufferCache} {s : Stream} {c : WritebackCall}
    (h : ∀ x, ¬ c.FailsAt P bc s x) (t : ℕ) :
    (c.run P bc s).2.count (.down t) = (c.run P bc s).2.count (.up t) := by
  rcases hsb : c.sb with - | sb
  · simp [run, hsb]
  · have hrun : c.run P bc s = commitWriteBlocksTraced P bc sb c.txid (s.ometa c.slot).length
        (s.ometa c.slot).lba c.before := by rw [run, hsb]
    rcases commitWriteBlocksTraced_cases (P := P) bc sb c.txid (s.ometa c.slot).length
      (s.ometa c.slot).lba c.before with hdone | ⟨x, -, -, hlost⟩
    · rw [hrun]
      exact hdone.locks t
    · exact absurd ⟨hrun ▸ hlost.looked, sb, hsb, hlost.noMem⟩ (h x)

/-- **A failing write-back.**  The three statements with which entries are retired are safe
against a failing `sb_getblk` exactly when there is none: where a lookup fails, the block has
lost its index entry, its tree lock is released once too often, and `head` has moved to
`flushed` all the same. -/
theorem failed_writeback_iff (P : Params) (bc : BufferCache) (o : Olayer) (sid : ℕ)
    (hring : (o.stream sid).InRing P) :
    ∃ o', journalWrap P bc o sid = some o' ∧
      o' = ((o.writebackCalls P bc sid).foldl (fun _ c => (c.run P bc (o.stream sid)).1.1)
        o).setStream sid ((o.stream sid).retire P sid) ∧
      ((∀ c ∈ o.writebackCalls P bc sid, LeftForLater P bc sid o o' c) ↔
        ∀ c ∈ o.writebackCalls P bc sid, ∀ x, ¬ c.FailsAt P bc (o.stream sid) x) ∧
      ∀ c ∈ o.writebackCalls P bc sid, ∀ x, c.FailsAt P bc (o.stream sid) x →
        c.slot ∉ slotsOf P (o'.stream sid).head (o.stream sid).flushed ∧
          ∃ sb, c.sb = some sb ∧ LostAt P bc sb c.before (c.run P bc (o.stream sid)) x := by
  obtain ⟨o₁, h₁, -, hwrap⟩ := journalWrap_spec bc hring.head_lt hring.flushed_lt
  have hcalls : o₁ = (o.writebackCalls P bc sid).foldl
      (fun _ c => (c.run P bc (o.stream sid)).1.1) o := by
    rw [commitWrite, commitWriteScan_eq hring.head_lt hring.flushed_lt, Option.map_some] at h₁
    rw [← Option.some.inj h₁, commitWrite_eq_calls]
    rfl
  refine ⟨_, hwrap, by rw [hcalls], ⟨fun hsafe c hc x hfails => ?_, fun hnone c hc => ?_⟩,
    fun c _ x hfails => ?_⟩
  · -- the failing block is not kept
    obtain ⟨sb, -, hhi, hlost⟩ := WritebackCall.lostAt hfails
    have hkept := (hsafe c hc).kept x hfails x le_rfl hhi
    exact hlost.gone (by rw [Indexed, hkept]; exact hlost.was)
  · exact ⟨WritebackCall.balanced (hnone c hc), fun x hx => absurd hx (hnone c hc x),
      fun x hx => absurd hx (hnone c hc x)⟩
  · obtain ⟨sb, hsb, -, hlost⟩ := WritebackCall.lostAt hfails
    refine ⟨?_, sb, hsb, hlost⟩
    rw [Olayer.setStream_self]
    show c.slot ∉ slotsOf P (o.stream sid).flushed (o.stream sid).flushed
    rw [slotsOf_self]
    exact List.not_mem_nil

/-- A transaction of one journaled write of two blocks. -/
def twoBlocks : Olayer :=
  let ring : ℕ → Ometa
    | 0 => ⟨0, 1, 0, HoraeFlag.txBegin.bit, 0, 0⟩
    | 1 => ⟨10, 2, 0, HoraeFlag.tx.bit, 0, 20⟩
    | 2 => ⟨0, 1, 0, HoraeFlag.txEnd.bit, 0, 0⟩
    | _ => Ometa.zero
  indexBlocks Params.tiny 0 2 10 20
    { tinyMounted.setStream 5 { tinyMounted.stream 5 with
        tail := 3, tailWatermark := 3, flushed := 3, ometa := ring } with blocksPerGroup := 128 }

/-- There is a buffer for every block but 10. -/
def noBufferForTen : BufferCache := fun _ lba => if lba = 10 then .noMem else .unlocked

theorem failed_writeback_iff_found :
    ∃ o', journalWrap Params.tiny (fun _ _ => .unlocked) twoBlocks 5 = some o' ∧
      twoBlocks.writebackCalls Params.tiny (fun _ _ => .unlocked) 5 ≠ [] ∧
      ∀ c ∈ twoBlocks.writebackCalls Params.tiny (fun _ _ => .unlocked) 5,
        LeftForLater Params.tiny (fun _ _ => .unlocked) 5 twoBlocks o' c := by
  have hring : (twoBlocks.stream 5).InRing Params.tiny :=
    ⟨by decide +kernel, by decide +kernel, by decide +kernel, by decide +kernel⟩
  have hslots : (twoBlocks.writebackCalls Params.tiny (fun _ _ => .unlocked) 5).map (·.slot)
      = [1] := by decide +kernel
  obtain ⟨o', hwrap, -, hiff, -⟩ :=
    failed_writeback_iff Params.tiny (fun _ _ => .unlocked) twoBlocks 5 hring
  refine ⟨o', hwrap, fun hnil => ?_, hiff.mpr ?_⟩
  · rw [hnil] at hslots
    cases hslots
  · rintro c - x ⟨-, sb, -, hmem⟩
    cases hmem

/-- For block 10 there is no buffer: it has left the index and was not sent, the lock of its
tree has been released twice, and `head` has passed the entry. -/
theorem failed_block_lost :
    (twoBlocks.writebackCalls Params.tiny noBufferForTen 5).map
        (fun c => (c.slot, c.run Params.tiny noBufferForTen (twoBlocks.stream 5) |>.2))
      = [(1, [.down 0, .up 0, .getblk 10, .up 0])] ∧
    twoBlocks.lookupIpu Params.tiny 10 = some ⟨10, 20, 0⟩ ∧
    (journalWrap Params.tiny noBufferForTen twoBlocks 5).map
        (fun o' => ((o'.stream 5).head, o'.lookupIpu Params.tiny 10, o'.lookupIpu Params.tiny 11,
          o'.io))
      = some (3, none, some ⟨11, 21, 0⟩, []) ∧
    ∃ c ∈ twoBlocks.writebackCalls Params.tiny noBufferForTen 5, ∀ o',
      ¬ LeftForLater Params.tiny noBufferForTen 5 twoBlocks o' c := by
  have hruns : (twoBlocks.writebackCalls Params.tiny noBufferForTen 5).map
      (fun c => (c.slot, c.run Params.tiny noBufferForTen (twoBlocks.stream 5) |>.2))
      = [(1, [.down 0, .up 0, .getblk 10, .up 0])] := by decide +kernel
  refine ⟨hruns, by decide +kernel, by decide +kernel, ?_⟩
  obtain ⟨c, hc, hrun⟩ := List.mem_map.mp (hruns ▸ List.mem_singleton_self _)
  refine ⟨c, hc, fun o' hleft => ?_⟩
  have hlocks := hleft.balanced 0
  rw [(Prod.mk.inj hrun).2] at hlocks
  exact absurd hlocks (by decide)

end CcNvme

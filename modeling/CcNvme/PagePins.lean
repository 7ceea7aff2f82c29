/-
CcNvme/PagePins.lean

The pages that the index keeps in memory.  `journal_write_alloc` pins the page of the bio when
it makes an index entry, unless `version_consistency` is set; `commit_write` unpins the page of
the buffer it finds for the block, under the same condition; `graceful_shutdown` does so under
no condition.

The ghost `held` of the machine lists the index entries that have pinned a page, with the page;
`pins` counts the calls of `get_page` and `put_page`.  `page_pins_balance` says when the two
agree over whole runs: with `version_consistency` a shutdown must find no index entry, and
without it a write-back must find each block under its transaction id, with a buffer, and the
buffer in the page that was pinned.  The first fails for a block rewritten by a later
transaction, the last for a buffer that was copied out.
-/
import CcNvme.CommitWrite
import CcNvme.Recovery
import CcNvme.Lib.Holders
import CcNvme.Lib.Run

namespace CcNvme

open Holders (kept Tracks Releases)

/-! ### The machine -/

/-- Pages by their frame number. -/
abbrev Page := ℕ

/-- `sb_getblk(sb, lba)->b_page`, for the buffers that exist. -/
abbrev BufferPages := ℕ → ℕ → Page

structure PinState where
  o : Olayer
  /-- the calls of `get_page` less those of `put_page` -/
  pins : Page → ℤ
  /-- the keys of the index entries that have pinned a page, with the page -/
  held : List ((ℕ × ℕ) × Page)

inductive PinOp where
  /-- `journal_write_alloc` on a bio whose `bi_io_vec` has the pages `vec` -/
  | alloc (i : ℕ) (bc : BufferCache) (pages : BufferPages) (b : Bio) (vec : ℕ → Page)
  /-- `commit_write` -/
  | commitWrite (i : ℕ) (bc : BufferCache) (pages : BufferPages)
  /-- `graceful_shutdown` -/
  | shutdown (bc : BufferCache) (pages : BufferPages) (sids : List ℕ) (sb : ℕ)
  /-- anything that leaves the index alone -/
  | other (o : Olayer)

/-- The keys under which there is an index entry. -/
def Olayer.liveKeys (o : Olayer) (k : ℕ × ℕ) : Bool := (o.ipuTree k.1 k.2).isSome

/-- `put_page` on each of the pages. -/
def putPages (pins : Page → ℤ) (ps : List Page) : Page → ℤ := fun p => pins p - ps.count p

variable (P : Params)

/-- The indexing loop of `journal_write_alloc`; `j` is the position in `bi_io_vec`. -/
def indexBlocksPinned (lastTxid : ℕ) (vec : ℕ → Page) : ℕ → ℕ → ℕ → ℕ → PinState → PinState
  | 0, _, _, _, st => st
  | n + 1, j, lba, plba, st =>
      let new : IpuEntry := ⟨lba % 2 ^ 32, plba % 2 ^ 32, lastTxid⟩
      let st' :=
        match st.o.lookupIpu P lba with
        | none =>
            let o' := st.o.setIpu P lba (some new)
            if P.versionConsistency then { st with o := o' }
            else ⟨o', Function.update st.pins (vec j) (st.pins (vec j) + 1),
              st.held ++ [(ipuKey P st.o.blocksPerGroup lba, vec j)]⟩
        -- an entry that is updated keeps the page it was made with
        | some e => if lastTxid > e.txid then { st with o := st.o.setIpu P lba (some new) } else st
      indexBlocksPinned lastTxid vec n (j + 1) (lba + 1) (plba + 1) st'

/-- The blocks whose buffers a call of `commit_write_entry_per_stream` adds to `bh_list`. -/
def waitedBlocks (bc : BufferCache) (sb : ℕ) (trace : List WritebackEvent) : List ℕ :=
  trace.filterMap fun
    | .getblk x => if bc sb x = .noMem then none else some x
    | _ => none

/-- The pages a call leaves to be unpinned. -/
def WritebackCall.unpins (bc : BufferCache) (pages : BufferPages) (s : Stream)
    (c : WritebackCall) : List Page :=
  match c.sb with
  | none => []
  | some sb => (waitedBlocks bc sb (c.run P bc s).2).map (pages sb)

/-- What `commit_write` calls `put_page` on, in its loop over `bh_list`. -/
def commitWritePuts (bc : BufferCache) (pages : BufferPages) (i : ℕ) (o : Olayer) : List Page :=
  if P.versionConsistency then []
  else
    let segs := (commitWriteScan P (o.stream i)).getD []
    (commitWriteCalls P bc (o.stream i) (handedSlots segs) o).flatMap
      (·.unpins P bc pages (o.stream i))

/-- `commit_write_entry` on the blocks of an entry, with those it calls `put_page` for. -/
def commitWriteEntryTraced (bc : BufferCache) (sb : ℕ) :
    ℕ → ℕ → Olayer → Option (Olayer × List ℕ)
  | 0, _, o => some (o, [])
  | n + 1, lba, o =>
      let o' := o.setIpu P lba none
      match o.lookupIpu P lba with
      | none => commitWriteEntryTraced bc sb n (lba + 1) o'
      | some _ =>
          match bc sb lba with
          | .noMem => none
          | .locked =>
              (commitWriteEntryTraced bc sb n (lba + 1) o').map fun r => (r.1, lba :: r.2)
          | .unlocked =>
              (commitWriteEntryTraced bc sb n (lba + 1)
                { o' with io := o'.io ++ [.bh sb lba] }).map fun r => (r.1, lba :: r.2)

/-- `graceful_shutdown` on the entries of its plan, with the blocks it unpins. -/
def shutdownEntries (bc : BufferCache) (sb : ℕ) : List Ometa → Olayer → Option (Olayer × List ℕ)
  | [], o => some (o, [])
  | e :: es, o =>
      (commitWriteEntryTraced P bc sb e.length e.lba o).bind fun r₁ =>
        (shutdownEntries bc sb es r₁.1).map fun r => (r.1, r₁.2 ++ r.2)

/-- `commit_write` has led to `o'`. -/
def PinState.committed (bc : BufferCache) (pages : BufferPages) (i : ℕ) (st : PinState)
    (o' : Olayer) : PinState :=
  ⟨o', putPages st.pins (commitWritePuts P bc pages i st.o), kept o'.liveKeys st.held⟩

def PinState.step (st : PinState) : PinOp → Option PinState
  | .alloc i bc pages b vec =>
      let nr := horaeGetSecs b
      if nr > P.nrJournalBlock then some st
      else
        (allocSpace P bc st.o i nr).map fun r =>
          let st₁ := if needsWrap P i nr (st.o.stream i) then st.committed P bc pages i r.1
            else { st with o := r.1 }
          indexBlocksPinned P (r.1.stream i).lastTxid vec nr 0 (horaeGetLba b) r.2 st₁
  | .commitWrite i bc pages =>
      (commitWrite P bc st.o i).map fun o' => st.committed P bc pages i o'
  | .shutdown bc pages sids sb =>
      (gracefulPlan P st.o sids).bind fun plan =>
        (shutdownEntries P bc sb ((entriesOf plan).map fun p => (st.o.stream p.1).ometa p.2)
          st.o).map fun r =>
            ⟨r.1, putPages st.pins (r.2.map (pages sb)), kept r.1.liveKeys st.held⟩
  | .other o => some { st with o := { o with ipuTree := st.o.ipuTree } }

/-- **The property.**  No page is unpinned more often than pinned; a page is pinned as often as
there are index entries that have pinned it; and none is when the index is empty. -/
structure PinsBalanced (st : PinState) : Prop where
  nonneg : ∀ p, 0 ≤ st.pins p
  count : ∀ p, st.pins p = st.held.countP fun h => h.2 = p
  indexed : ∀ h ∈ st.held, st.o.liveKeys h.1 = true
  empty : (∀ k, st.o.liveKeys k = false) → ∀ p, st.pins p = 0

/-! ### The machine is the model -/

variable {P}

theorem indexBlocksPinned_o (lastTxid : ℕ) (vec : ℕ → Page) (n j lba plba : ℕ) (st : PinState) :
    (indexBlocksPinned P lastTxid vec n j lba plba st).o
      = indexBlocks P lastTxid n lba plba st.o := by
  induction n generalizing j lba plba st with
  | zero => rfl
  | succ n ih =>
      rw [indexBlocksPinned, indexBlocks, ih]
      congr 1
      rcases st.o.lookupIpu P lba with - | e
      · dsimp only
        split_ifs <;> rfl
      · dsimp only
        split_ifs <;> rfl

theorem commitWriteEntryTraced_fst (bc : BufferCache) (sb n lba : ℕ) (o : Olayer) :
    (commitWriteEntryTraced P bc sb n lba o).map (·.1)
      = commitWriteEntryBlocks P bc sb n lba o := by
  induction n generalizing lba o with
  | zero => rfl
  | succ n ih =>
      rw [commitWriteEntryTraced, commitWriteEntryBlocks]
      rcases o.lookupIpu P lba with - | e
      · exact ih _ _
      · rcases bc sb lba with - | - | -
        · rfl
        · exact (Option.map_map ..).trans (ih _ _)
        · exact (Option.map_map ..).trans (ih _ _)

theorem shutdownEntries_fst (bc : BufferCache) (sb : ℕ) (es : List Ometa) (o : Olayer) :
    (shutdownEntries P bc sb es o).map (·.1)
      = es.foldlM (fun o e => commitWriteEntry P bc o e sb) o := by
  induction es generalizing o with
  | nil => rfl
  | cons e es ih =>
      rw [shutdownEntries, List.foldlM_cons, commitWriteEntry, ← commitWriteEntryTraced_fst]
      rcases commitWriteEntryTraced P bc sb e.length e.lba o with - | r₁
      · rfl
      · rw [Option.bind_some, Option.map_map]
        exact ih r₁.1

/-- The state of the module goes through the three functions as they are. -/
theorem PinState.step_o (st : PinState) (op : PinOp) :
    (st.step P op).map (·.o) = match op with
      | .alloc i bc _ b _ => (journalWriteAlloc P bc st.o i b).map (·.1)
      | .commitWrite i bc _ => commitWrite P bc st.o i
      | .shutdown bc _ sids sb => gracefulShutdown P bc st.o sids sb
      | .other o => some { o with ipuTree := st.o.ipuTree } := by
  cases op with
  | alloc i bc pages b vec =>
      simp only [PinState.step, journalWriteAlloc]
      by_cases hnr : horaeGetSecs b > P.nrJournalBlock
      · rw [if_pos hnr, if_pos hnr]
        rfl
      · rw [if_neg hnr, if_neg hnr, Option.map_map, Option.map_map]
        congr 1
        funext r
        simp only [Function.comp_apply, indexBlocksPinned_o]
        split_ifs <;> rfl
  | commitWrite i bc pages =>
      simp only [PinState.step, Option.map_map]
      exact Option.map_id' ..
  | shutdown bc pages sids sb =>
      simp only [PinState.step, gracefulShutdown]
      rcases gracefulPlan P st.o sids with - | plan
      · rfl
      · rw [Option.bind_some, Option.bind_some, Option.map_map]
        have := shutdownEntries_fst (P := P) bc sb
          ((entriesOf plan).map fun p => (st.o.stream p.1).ometa p.2) st.o
        rw [List.foldlM_map] at this
        exact this
  | other o => rfl

/-! ### Entries that go with their page -/

section Keys

variable {bc : BufferCache} {pages : BufferPages} {o o₁ : Olayer} {held : List ((ℕ × ℕ) × Page)}

theorem indexed_iff_liveKeys (o : Olayer) (x : ℕ) :
    Indexed P o x ↔ o.liveKeys (ipuKey P o.blocksPerGroup x) = true :=
  Option.isSome_iff_ne_none.symm

theorem liveKeys_setIpu (o : Olayer) (lba : ℕ) (e : Option IpuEntry) (k : ℕ × ℕ) :
    (o.setIpu P lba e).liveKeys k
      = if k = ipuKey P o.blocksPerGroup lba then e.isSome else o.liveKeys k := by
  unfold Olayer.liveKeys
  rw [ipuTree_setIpu]
  by_cases hk : k = ipuKey P o.blocksPerGroup lba
  · rw [if_pos hk.symm, if_pos hk]
  · rw [if_neg fun h => hk h.symm, if_neg hk]

/-- Index entries have gone, and none has changed. -/
structure Shrinks (o o₁ : Olayer) : Prop where
  group : o₁.blocksPerGroup = o.blocksPerGroup
  tree : ∀ t off, o₁.ipuTree t off = o.ipuTree t off ∨ o₁.ipuTree t off = none

theorem Shrinks.refl (o : Olayer) : Shrinks o o := ⟨rfl, fun _ _ => Or.inl rfl⟩

theorem Shrinks.trans {o₂ : Olayer} (h₁ : Shrinks o o₁) (h₂ : Shrinks o₁ o₂) : Shrinks o o₂ := by
  refine ⟨h₂.group.trans h₁.group, fun t off => ?_⟩
  rcases h₂.tree t off with h | h
  · rw [h]
    exact h₁.tree t off
  · exact Or.inr h

theorem Shrinks.setIpu {lba : ℕ} (hindex : o₁.ipuTree = (o.setIpu P lba none).ipuTree)
    (hgroup : o₁.blocksPerGroup = o.blocksPerGroup) : Shrinks o o₁ := by
  refine ⟨hgroup, fun t off => ?_⟩
  rw [hindex, ipuTree_setIpu]
  split_ifs
  · exact Or.inr rfl
  · exact Or.inl rfl

theorem Shrinks.lookup (h : Shrinks o o₁) {x : ℕ} {e : IpuEntry}
    (hx : o₁.lookupIpu P x = some e) : o.lookupIpu P x = some e := by
  unfold Olayer.lookupIpu at hx ⊢
  rw [h.group] at hx
  rcases h.tree (ipuKey P o.blocksPerGroup x).1 (ipuKey P o.blocksPerGroup x).2 with hkey | hkey
  · rw [← hkey, hx]
  · rw [hkey] at hx
    cases hx

variable (P pages) in
/-- If block `x` is indexed, its entry has pinned the page its buffer is in. -/
def PinnedAt (o : Olayer) (held : List ((ℕ × ℕ) × Page)) (sb x : ℕ) : Prop :=
  Indexed P o x → (ipuKey P o.blocksPerGroup x, pages sb x) ∈ held

/-- It still has when other entries have gone. -/
theorem PinnedAt.kept {sb x : ℕ} (h : PinnedAt P pages o held sb x) (hs : Shrinks o o₁) :
    PinnedAt P pages o₁ (kept o₁.liveKeys held) sb x := by
  intro hx
  obtain ⟨e, he⟩ := Option.ne_none_iff_exists'.mp hx
  have hmem := h (Option.ne_none_iff_exists'.mpr ⟨e, hs.lookup he⟩)
  rw [← hs.group] at hmem
  exact List.mem_filter.mpr ⟨hmem, (indexed_iff_liveKeys o₁ x).mp hx⟩

/-- One block leaves the index, and its page is unpinned if it had an entry. -/
theorem releases_setIpu {sb lba : ℕ} (h : Tracks o.liveKeys held)
    (hpinned : PinnedAt P pages o held sb lba)
    (hindex : o₁.ipuTree = (o.setIpu P lba none).ipuTree) :
    Releases o.liveKeys o₁.liveKeys held
      (if (o.lookupIpu P lba).isSome then [pages sb lba] else []) := by
  have hkeys : ∀ k, o₁.liveKeys k
      = if k = ipuKey P o.blocksPerGroup lba then false else o.liveKeys k := by
    intro k
    rw [← Option.isSome_none (α := IpuEntry), ← liveKeys_setIpu]
    unfold Olayer.liveKeys
    rw [hindex]
  by_cases hx : (o.lookupIpu P lba).isSome = true
  · rw [if_pos hx]
    exact Releases.one h (hpinned (Option.isSome_iff_ne_none.mp hx)) hkeys
  · rw [if_neg hx]
    exact Releases.none h (Bool.eq_false_of_not_eq_true hx) hkeys

/-- A round of a block loop that takes block `lba` out, and the rounds behind it. -/
theorem releases_round {o₂ : Olayer} {sb lba : ℕ} {ps : List Page} (h : Tracks o.liveKeys held)
    (hpinned : PinnedAt P pages o held sb lba)
    (hindex : o₁.ipuTree = (o.setIpu P lba none).ipuTree)
    (hgroup : o₁.blocksPerGroup = o.blocksPerGroup)
    (hrest : Shrinks o o₁ → Tracks o₁.liveKeys (kept o₁.liveKeys held) →
      Shrinks o₁ o₂ ∧ Releases o₁.liveKeys o₂.liveKeys (kept o₁.liveKeys held) ps) :
    Shrinks o o₂ ∧ Releases o.liveKeys o₂.liveKeys held
      ((if (o.lookupIpu P lba).isSome then [pages sb lba] else []) ++ ps) := by
  have hshrinks : Shrinks o o₁ := .setIpu hindex hgroup
  have hout := releases_setIpu h hpinned hindex
  obtain ⟨hs, hreleases⟩ := hrest hshrinks hout.tracks
  exact ⟨hshrinks.trans hs, hout.trans hreleases⟩

variable (P bc pages) in
/-- Block `x` can be written back: its entry, if it has one, carries the transaction id, there
is a buffer, and the buffer is in the page that was pinned. -/
structure SafeBlock (o : Olayer) (held : List ((ℕ × ℕ) × Page)) (sb txid x : ℕ) : Prop where
  pinned : PinnedAt P pages o held sb x
  txid_eq : ∀ e, o.lookupIpu P x = some e → e.txid = txid
  found : Indexed P o x → bc sb x ≠ .noMem

theorem SafeBlock.kept {sb txid x : ℕ} (h : SafeBlock P bc pages o held sb txid x)
    (hs : Shrinks o o₁) : SafeBlock P bc pages o₁ (kept o₁.liveKeys held) sb txid x where
  pinned := h.pinned.kept hs
  txid_eq e he := h.txid_eq e (hs.lookup he)
  found hx := by
    obtain ⟨e, he⟩ := Option.ne_none_iff_exists'.mp hx
    exact h.found (Option.ne_none_iff_exists'.mpr ⟨e, hs.lookup he⟩)

/-- The block loop of `commit_write_entry_per_stream`. -/
theorem releases_commitWriteBlocks {sb txid : ℕ} (n lba : ℕ) (h : Tracks o.liveKeys held)
    (hsafe : ∀ x, lba ≤ x → x < lba + n → SafeBlock P bc pages o held sb txid x) :
    Shrinks o (commitWriteBlocksTraced P bc sb txid n lba o).1.1 ∧
      Releases o.liveKeys (commitWriteBlocksTraced P bc sb txid n lba o).1.1.liveKeys held
        ((waitedBlocks bc sb (commitWriteBlocksTraced P bc sb txid n lba o).2).map
          (pages sb)) := by
  induction n generalizing lba o held with
  | zero => exact ⟨.refl o, .refl h⟩
  | succ n ih =>
      have hfirst := hsafe lba le_rfl (by omega)
      -- a round that takes block `lba` out and goes on from `o₁`
      have hround : ∀ pre o₁, o₁.ipuTree = (o.setIpu P lba none).ipuTree →
          o₁.blocksPerGroup = o.blocksPerGroup →
          waitedBlocks bc sb pre = (if (o.lookupIpu P lba).isSome then [lba] else []) →
          Shrinks o ((commitWriteBlocksTraced P bc sb txid n (lba + 1) o₁).after pre).1.1 ∧
            Releases o.liveKeys
              ((commitWriteBlocksTraced P bc sb txid n (lba + 1) o₁).after pre).1.1.liveKeys held
              ((waitedBlocks bc sb
                ((commitWriteBlocksTraced P bc sb txid n (lba + 1) o₁).after pre).2).map
                  (pages sb)) := by
        intro pre o₁ hindex hgroup hpre
        have hwaited : (waitedBlocks bc sb
            ((commitWriteBlocksTraced P bc sb txid n (lba + 1) o₁).after pre).2).map (pages sb)
            = (if (o.lookupIpu P lba).isSome then [pages sb lba] else []) ++
              (waitedBlocks bc sb (commitWriteBlocksTraced P bc sb txid n (lba + 1) o₁).2).map
                (pages sb) := by
          rw [Traced.after, waitedBlocks, List.filterMap_append, List.map_append]
          refine congrArg (· ++ _) ?_
          show (waitedBlocks bc sb pre).map (pages sb) = _
          rw [hpre]
          split_ifs <;> rfl
        rw [hwaited]
        refine releases_round h hfirst.pinned hindex hgroup fun hshrinks htracks => ?_
        exact ih (lba + 1) htracks fun x hlo hhi =>
          (hsafe x (by omega) (by omega)).kept hshrinks
      rw [commitWriteBlocksTraced]
      rcases e : o.lookupIpu P lba with - | entry
      · exact hround _ _ rfl rfl (by simp [waitedBlocks, e])
      · have hmem := hfirst.found (by simp [Indexed, e])
        simp only [hfirst.txid_eq entry e, ne_eq, not_true, if_false]
        rcases hbuf : bc sb lba with - | - | -
        · exact absurd hbuf hmem
        · exact hround _ _ rfl rfl (by simp [waitedBlocks, e, hmem])
        · exact hround _ _ rfl rfl (by simp [waitedBlocks, e, hmem])

/-- The block loop of `commit_write_entry`. -/
theorem releases_commitWriteEntry {sb : ℕ} (n lba : ℕ) {r : Olayer × List ℕ}
    (h : Tracks o.liveKeys held)
    (hpinned : ∀ x, lba ≤ x → x < lba + n → PinnedAt P pages o held sb x)
    (hrun : commitWriteEntryTraced P bc sb n lba o = some r) :
    Shrinks o r.1 ∧ Releases o.liveKeys r.1.liveKeys held (r.2.map (pages sb)) := by
  induction n generalizing lba o held r with
  | zero =>
      obtain rfl := Option.some.inj hrun
      exact ⟨.refl o, .refl h⟩
  | succ n ih =>
      have hround : ∀ o₁ r₁, commitWriteEntryTraced P bc sb n (lba + 1) o₁ = some r₁ →
          o₁.ipuTree = (o.setIpu P lba none).ipuTree → o₁.blocksPerGroup = o.blocksPerGroup →
          Shrinks o r₁.1 ∧ Releases o.liveKeys r₁.1.liveKeys held
            ((if (o.lookupIpu P lba).isSome then [pages sb lba] else []) ++
              r₁.2.map (pages sb)) := by
        intro o₁ r₁ hr₁ hindex hgroup
        have hfirst := hpinned lba le_rfl (by omega)
        refine releases_round h hfirst hindex hgroup fun hshrinks htracks => ?_
        exact ih (lba + 1) htracks
          (fun x hlo hhi => (hpinned x (by omega) (by omega)).kept hshrinks) hr₁
      rw [commitWriteEntryTraced] at hrun
      rcases e : o.lookupIpu P lba with - | entry
      · rw [e] at hrun hround
        exact hround _ _ hrun rfl rfl
      · rw [e] at hrun hround
        dsimp only at hrun
        rcases hbuf : bc sb lba with - | - | -
        · rw [hbuf] at hrun
          cases hrun
        · rw [hbuf] at hrun
          obtain ⟨r₁, hr₁, rfl⟩ := Option.map_eq_some_iff.mp hrun
          exact hround _ _ hr₁ rfl rfl
        · rw [hbuf] at hrun
          obtain ⟨r₁, hr₁, rfl⟩ := Option.map_eq_some_iff.mp hrun
          exact hround _ _ hr₁ rfl rfl

/-- One call of `commit_write_entry_per_stream`. -/
theorem releases_writebackCall (s : Stream) (c : WritebackCall)
    (h : Tracks c.before.liveKeys held)
    (hsafe : ∀ sb, c.sb = some sb → ∀ x, (s.ometa c.slot).lba ≤ x →
      x < (s.ometa c.slot).lba + (s.ometa c.slot).length →
        SafeBlock P bc pages c.before held sb c.txid x) :
    Shrinks c.before (c.run P bc s).1.1 ∧
      Releases c.before.liveKeys (c.run P bc s).1.1.liveKeys held (c.unpins P bc pages s) := by
  rcases c with ⟨slot, - | sb, txid, o⟩
  · exact ⟨.refl o, .refl h⟩
  · exact releases_commitWriteBlocks _ _ h (hsafe sb rfl)

/-- The calls of `commit_write`: what is safe before the first is safe before each. -/
theorem releases_commitWriteCalls {s : Stream} (ks : List (ℕ × ℕ)) (h : Tracks o.liveKeys held)
    (hsafe : ∀ p ∈ ks, ∀ sb, getSbByDevid o (s.ometa p.1).deviceId = some sb →
      ∀ x, (s.ometa p.1).lba ≤ x → x < (s.ometa p.1).lba + (s.ometa p.1).length →
        SafeBlock P bc pages o held sb p.2 x) :
    Releases o.liveKeys
      ((commitWriteCalls P bc s ks o).foldl (fun _ c => (c.run P bc s).1.1) o).liveKeys held
      ((commitWriteCalls P bc s ks o).flatMap (·.unpins P bc pages s)) := by
  induction ks generalizing o held with
  | nil => exact .refl h
  | cons p ks ih =>
      rw [commitWriteCalls, List.foldl_cons, List.flatMap_cons]
      generalize hc : (⟨p.1, getSbByDevid o (s.ometa p.1).deviceId, p.2, o⟩ : WritebackCall) = c
      obtain ⟨hshrinks, hcall⟩ : Shrinks o (c.run P bc s).1.1 ∧
          Releases o.liveKeys (c.run P bc s).1.1.liveKeys held (c.unpins P bc pages s) := by
        subst hc
        exact releases_writebackCall s ⟨p.1, _, p.2, o⟩ h (hsafe p (.head ks))
      have hqueues : SameQueues o (c.run P bc s).1.1 := by
        subst hc
        rw [WritebackCall.run_fst]
        exact sameQueues_commitWriteEntryPerStream bc o _ _ _
      refine hcall.trans (ih hcall.tracks fun q hq sb hsb x hlo hhi => ?_)
      rw [getSbByDevid_congr hqueues] at hsb
      exact (hsafe q (.tail p hq) sb hsb x hlo hhi).kept hshrinks

/-- The calls of `graceful_shutdown`. -/
theorem releases_shutdownEntries {sb : ℕ} (es : List Ometa) {r : Olayer × List ℕ}
    (h : Tracks o.liveKeys held)
    (hpinned : ∀ e ∈ es, ∀ x, e.lba ≤ x → x < e.lba + e.length →
      PinnedAt P pages o held sb x)
    (hrun : shutdownEntries P bc sb es o = some r) :
    Releases o.liveKeys r.1.liveKeys held (r.2.map (pages sb)) := by
  induction es generalizing o held r with
  | nil =>
      obtain rfl := Option.some.inj hrun
      exact .refl h
  | cons e es ih =>
      obtain ⟨r₁, hr₁, hrest⟩ := Option.bind_eq_some_iff.mp hrun
      obtain ⟨r₂, hr₂, rfl⟩ := Option.map_eq_some_iff.mp hrest
      obtain ⟨hshrinks, hcall⟩ := releases_commitWriteEntry _ _ h (hpinned e (.head es)) hr₁
      rw [List.map_append]
      refine hcall.trans (ih hcall.tracks (fun e' he' x hlo hhi => ?_) hr₂)
      exact (hpinned e' (.tail e he') x hlo hhi).kept hshrinks

end Keys

/-! ### What a run keeps -/

variable (P) in
/-- The pins count the holders, which are index entries; with `version_consistency` there are
none. -/
structure PinInv (st : PinState) : Prop where
  count : ∀ p, st.pins p = st.held.countP fun h => h.2 = p
  tracks : Tracks st.o.liveKeys st.held
  nothing : P.versionConsistency = true → st.held = []

variable (P) in
/-- No block that `commit_write` on stream `i` comes to has a pin that it would miss. -/
def SafeCommit (bc : BufferCache) (pages : BufferPages) (i : ℕ) (st : PinState) : Prop :=
  P.versionConsistency = false → ∀ segs, commitWriteScan P (st.o.stream i) = some segs →
    ∀ p ∈ handedSlots segs, ∀ sb,
      getSbByDevid st.o ((st.o.stream i).ometa p.1).deviceId = some sb →
      ∀ x, ((st.o.stream i).ometa p.1).lba ≤ x →
        x < ((st.o.stream i).ometa p.1).lba + ((st.o.stream i).ometa p.1).length →
          SafeBlock P bc pages st.o st.held sb p.2 x

variable (P) in
/-- What is asked of the state an operation is started in. -/
def SafePins (st : PinState) : PinOp → Prop
  | .alloc i bc pages b _ =>
      needsWrap P i (horaeGetSecs b) (st.o.stream i) = true → SafeCommit P bc pages i st
  | .commitWrite i bc pages => SafeCommit P bc pages i st
  | .shutdown _ pages sids sb => ∀ plan, gracefulPlan P st.o sids = some plan →
      ∀ p ∈ entriesOf plan, ∀ x, ((st.o.stream p.1).ometa p.2).lba ≤ x →
        x < ((st.o.stream p.1).ometa p.2).lba + ((st.o.stream p.1).ometa p.2).length →
          PinnedAt P pages st.o st.held sb x
  | .other _ => True

theorem liveKeys_congr {o o' : Olayer} (h : o'.ipuTree = o.ipuTree) : o'.liveKeys = o.liveKeys := by
  unfold Olayer.liveKeys
  rw [h]

namespace PinInv

variable {st : PinState}

theorem balanced (h : PinInv P st) : PinsBalanced st where
  nonneg p := by
    rw [h.count]
    exact Int.natCast_nonneg _
  count := h.count
  indexed := h.tracks.live
  empty hempty p := by
    have hnil : st.held = [] := List.eq_nil_iff_forall_not_mem.mpr fun x hx => by
      have hlive := h.tracks.live x hx
      rw [hempty x.1] at hlive
      cases hlive
    rw [h.count, hnil]
    rfl

/-- The index changes and the keys stay. -/
theorem of_liveKeys (h : PinInv P st) {o : Olayer} (ho : o.liveKeys = st.o.liveKeys) :
    PinInv P { st with o := o } :=
  ⟨h.count, ho.symm ▸ h.tracks, h.nothing⟩

/-- Entries go, and their pages are unpinned. -/
theorem release (h : PinInv P st) {o' : Olayer} {ps : List Page}
    (hr : Releases st.o.liveKeys o'.liveKeys st.held ps) :
    PinInv P ⟨o', putPages st.pins ps, kept o'.liveKeys st.held⟩ where
  count p := by
    have hcount := hr.count p
    show st.pins p - ps.count p = ((kept o'.liveKeys st.held).countP fun x => x.2 = p : ℕ)
    rw [h.count, hcount]
    omega
  tracks := hr.tracks
  nothing hvc := by
    show kept o'.liveKeys st.held = []
    rw [h.nothing hvc]
    rfl

/-- Where nothing is pinned and nothing is unpinned, the index may change. -/
theorem unpinned (h : PinInv P st) (hvc : P.versionConsistency = true) (o' : Olayer) :
    PinInv P ⟨o', putPages st.pins [], kept o'.liveKeys st.held⟩ := by
  have hnil : st.held = [] := h.nothing hvc
  have hkept : kept o'.liveKeys st.held = [] := by
    rw [hnil]
    rfl
  rw [hkept]
  refine ⟨fun p => ?_, .nil _, fun _ => rfl⟩
  show st.pins p - ([] : List Page).count p = _
  rw [h.count, hnil]
  rfl

/-- `commit_write`, followed by anything that leaves the index alone. -/
theorem committed (h : PinInv P st) {bc : BufferCache} {pages : BufferPages} {i : ℕ}
    {o₁ o' : Olayer} (hsafe : SafeCommit P bc pages i st)
    (hrun : commitWrite P bc st.o i = some o₁) (hindex : o'.ipuTree = o₁.ipuTree) :
    PinInv P (st.committed P bc pages i o') := by
  obtain ⟨segs, hsegs, rfl⟩ := Option.map_eq_some_iff.mp hrun
  rcases hvc : P.versionConsistency with - | -
  · have hputs : commitWritePuts P bc pages i st.o
        = (commitWriteCalls P bc (st.o.stream i) (handedSlots segs) st.o).flatMap
            (·.unpins P bc pages (st.o.stream i)) := by
      rw [commitWritePuts, hvc, hsegs]
      rfl
    have hreleases := releases_commitWriteCalls (handedSlots segs) h.tracks (hsafe hvc segs hsegs)
    rw [← commitWrite_eq_calls, ← liveKeys_congr hindex, ← hputs] at hreleases
    exact h.release hreleases
  · have hputs : commitWritePuts P bc pages i st.o = [] := by
      rw [commitWritePuts, hvc]
      rfl
    rw [PinState.committed, hputs]
    exact h.unpinned hvc o'

/-- The indexing loop of `journal_write_alloc`. -/
theorem indexBlocks (h : PinInv P st) (lastTxid : ℕ) (vec : ℕ → Page) (n j lba plba : ℕ) :
    PinInv P (indexBlocksPinned P lastTxid vec n j lba plba st) := by
  induction n generalizing j lba plba st with
  | zero => exact h
  | succ n ih =>
      rw [indexBlocksPinned]
      refine ih ?_ _ _ _
      have hkeys := liveKeys_setIpu (P := P) st.o lba (some ⟨lba % 2 ^ 32, plba % 2 ^ 32, lastTxid⟩)
      generalize (⟨lba % 2 ^ 32, plba % 2 ^ 32, lastTxid⟩ : IpuEntry) = new at hkeys ⊢
      rcases e : st.o.lookupIpu P lba with - | entry
      · -- a new entry: it comes with a page unless `version_consistency` is set
        rcases hvc : P.versionConsistency with - | -
        · refine ⟨fun p => ?_, h.tracks.add (congrArg Option.isSome e) _ hkeys, ?_⟩
          · show Function.update st.pins (vec j) (st.pins (vec j) + 1) p
              = ((st.held ++ [(ipuKey P st.o.blocksPerGroup lba, vec j)]).countP
                  fun x => x.2 = p : ℕ)
            rw [List.countP_append, List.countP_singleton]
            by_cases hp : vec j = p
            · subst hp
              simp [h.count]
            · rw [Function.update_of_ne fun hp' => hp hp'.symm, h.count]
              simp [hp]
          · intro hvc'
            rw [hvc] at hvc'
            cases hvc'
        · have hnil : st.held = [] := h.nothing hvc
          refine ⟨h.count, ?_, h.nothing⟩
          show Tracks _ st.held
          rw [hnil]
          exact .nil _
      · -- an entry that is there keeps its key
        dsimp only
        split_ifs with htxid
        · refine h.of_liveKeys (funext fun k => ?_)
          rw [hkeys]
          split_ifs with hk
          · rw [hk]
            exact (congrArg Option.isSome e).symm
          · rfl
        · exact h

/-- The critical section of `journal_write_alloc`, with the write-back when it wraps. -/
theorem allocated (h : PinInv P st) {bc : BufferCache} {pages : BufferPages} {i nr : ℕ}
    {r : Olayer × ℕ} (hnr : ¬ nr > P.nrJournalBlock)
    (hsafe : needsWrap P i nr (st.o.stream i) = true → SafeCommit P bc pages i st)
    (hr : allocSpace P bc st.o i nr = some r) :
    PinInv P (if needsWrap P i nr (st.o.stream i) then st.committed P bc pages i r.1
      else { st with o := r.1 }) := by
  obtain ⟨o₁, ho₁, rfl⟩ := Option.map_eq_some_iff.mp hr
  by_cases hroom : nr + (st.o.stream i).jWritePtr
      > (P.offInJournal i + P.nrJournalBlock) % 2 ^ 32
  · have hwrap : needsWrap P i nr (st.o.stream i) = true :=
      decide_eq_true ⟨not_lt.mp hnr, hroom⟩
    rw [if_pos hroom] at ho₁
    obtain ⟨o₂, ho₂, rfl⟩ := Option.map_eq_some_iff.mp ho₁
    rw [if_pos hwrap]
    exact h.committed (hsafe hwrap) ho₂ rfl
  · have hwrap : ¬ needsWrap P i nr (st.o.stream i) = true :=
      fun hwrap => hroom (of_decide_eq_true hwrap).2
    rw [if_neg hroom] at ho₁
    obtain rfl := Option.some.inj ho₁
    rw [if_neg hwrap]
    exact h.of_liveKeys (liveKeys_congr rfl)

theorem step (h : PinInv P st) {op : PinOp} {st' : PinState} (hsafe : SafePins P st op)
    (hstep : st.step P op = some st') : PinInv P st' := by
  cases op with
  | alloc i bc pages b vec =>
      simp only [PinState.step] at hstep
      by_cases hnr : horaeGetSecs b > P.nrJournalBlock
      · rw [if_pos hnr] at hstep
        exact Option.some.inj hstep ▸ h
      · rw [if_neg hnr] at hstep
        obtain ⟨r, hr, rfl⟩ := Option.map_eq_some_iff.mp hstep
        exact indexBlocks (h.allocated hnr hsafe hr) _ _ _ _ _ _
  | commitWrite i bc pages =>
      obtain ⟨o₁, ho₁, rfl⟩ := Option.map_eq_some_iff.mp hstep
      exact h.committed hsafe ho₁ rfl
  | shutdown bc pages sids sb =>
      obtain ⟨plan, hplan, hrest⟩ := Option.bind_eq_some_iff.mp hstep
      obtain ⟨r, hr, rfl⟩ := Option.map_eq_some_iff.mp hrest
      refine h.release (releases_shutdownEntries _ h.tracks (fun e he => ?_) hr)
      obtain ⟨p, hp, rfl⟩ := List.mem_map.mp he
      exact hsafe plan hplan p hp
  | other o =>
      obtain rfl := Option.some.inj hstep
      exact h.of_liveKeys (liveKeys_congr rfl)

end PinInv

/-! ### Safe runs can be checked -/

section Decidable

instance (o : Olayer) (x : ℕ) : Decidable (Indexed P o x) :=
  inferInstanceAs (Decidable (_ ≠ none))

instance (pages : BufferPages) (o : Olayer) (held : List ((ℕ × ℕ) × Page)) (sb x : ℕ) :
    Decidable (PinnedAt P pages o held sb x) :=
  inferInstanceAs (Decidable (_ → _))

instance (bc : BufferCache) (pages : BufferPages) (o : Olayer) (held : List ((ℕ × ℕ) × Page))
    (sb txid x : ℕ) : Decidable (SafeBlock P bc pages o held sb txid x) :=
  decidable_of_iff (PinnedAt P pages o held sb x ∧
      (∀ e ∈ o.lookupIpu P x, e.txid = txid) ∧ (Indexed P o x → bc sb x ≠ .noMem))
    ⟨fun h => ⟨h.1, h.2.1, h.2.2⟩, fun h => ⟨h.pinned, h.txid_eq, h.found⟩⟩

instance (bc : BufferCache) (pages : BufferPages) (i : ℕ) (st : PinState) :
    Decidable (SafeCommit P bc pages i st) :=
  decidable_of_iff (P.versionConsistency = false →
      ∀ segs ∈ commitWriteScan P (st.o.stream i), ∀ p ∈ handedSlots segs,
        ∀ sb ∈ getSbByDevid st.o ((st.o.stream i).ometa p.1).deviceId,
          ∀ x, ((st.o.stream i).ometa p.1).lba ≤ x →
            x < ((st.o.stream i).ometa p.1).lba + ((st.o.stream i).ometa p.1).length →
              SafeBlock P bc pages st.o st.held sb p.2 x) Iff.rfl

instance (st : PinState) (op : PinOp) : Decidable (SafePins P st op) :=
  match op with
  | .alloc .. => inferInstanceAs (Decidable (_ → SafeCommit ..))
  | .commitWrite .. => inferInstanceAs (Decidable (SafeCommit ..))
  | .shutdown _ pages sids sb =>
      decidable_of_iff (∀ plan ∈ gracefulPlan P st.o sids, ∀ p ∈ entriesOf plan,
        ∀ x, ((st.o.stream p.1).ometa p.2).lba ≤ x →
          x < ((st.o.stream p.1).ometa p.2).lba + ((st.o.stream p.1).ometa p.2).length →
            PinnedAt P pages st.o st.held sb x) Iff.rfl
  | .other _ => inferInstanceAs (Decidable True)

end Decidable

/-! ### Page pins -/

/-- The module before its first allocation. -/
def PinState.start (o : Olayer) : PinState := ⟨o, fun _ => 0, []⟩

/-- **When the page pins balance.**  Whatever index the run starts with has pinned nothing.
Each write-back of the run finds the blocks it comes to as `SafePins` asks. -/
theorem page_pins_balance (P : Params) (o : Olayer) (ops : List PinOp) (st : PinState)
    (hsafe : Run.Along (PinState.step P) (SafePins P) (.start o) ops)
    (hrun : Run.run (PinState.step P) (.start o) ops = some st) : PinsBalanced st := by
  have hstart : PinInv P (.start o) := ⟨fun _ => rfl, .nil _, fun _ => rfl⟩
  exact (Run.run_preserves (fun _ _ _ h hC hs => h.step hC hs) hstart hsafe hrun).balanced

/-- The small controller without `version_consistency`. -/
def Params.tinyPinning : Params := { Params.tiny with versionConsistency := false }

/-- Block `x` is in page `x` of the buffer cache. -/
def ownPages : BufferPages := fun _ x => x

/-- A write of blocks 10 and 11 on stream `i` from the pages `vec`. -/
def allocTwoBlocks (i : ℕ) (vec : ℕ → Page) : PinOp :=
  .alloc i (fun _ _ => .unlocked) ownPages
    ⟨⟨0, 0⟩, 80, 8192, ⟨false, false, true, false, false, false, 0⟩⟩ vec

/-- The write on stream 5, and its write-back. -/
def writtenBack (vec : ℕ → Page) : List PinOp :=
  [allocTwoBlocks 5 vec, .other twoBlocks, .commitWrite 5 (fun _ _ => .unlocked) ownPages]

def twoBlocksStart : PinState := .start { tinyMounted with blocksPerGroup := 128 }

/-- From the pages of the buffer cache. -/
theorem page_pins_balance_bufferCache :
    ∃ st, Run.run (PinState.step .tinyPinning) twoBlocksStart (writtenBack (10 + ·)) = some st ∧
      st.o.lookupIpu .tinyPinning 10 = none ∧ PinsBalanced st := by
  have hsafe : Run.Along (PinState.step .tinyPinning) (SafePins .tinyPinning) twoBlocksStart
      (writtenBack (10 + ·)) := by decide +kernel
  have hend : (Run.run (PinState.step .tinyPinning) twoBlocksStart (writtenBack (10 + ·))).map
      (fun st => st.o.lookupIpu .tinyPinning 10) = some none := by decide +kernel
  obtain ⟨st, hrun, hout⟩ := Option.map_eq_some_iff.mp hend
  exact ⟨st, hrun, hout, page_pins_balance _ _ _ st hsafe hrun⟩

/-- The run ends with no index entry that has pinned a page, and `n` pins on page `p`. -/
def EndsUnbalanced (r : Option PinState) (p : Page) (n : ℤ) : Prop :=
  ∃ st, r = some st ∧ st.held = [] ∧ st.pins p = n ∧ ¬ PinsBalanced st

theorem endsUnbalanced_of {r : Option PinState} {p : Page} {n : ℤ} (hn : n ≠ 0)
    (h : r.map (fun st => (st.held, st.pins p)) = some ([], n)) : EndsUnbalanced r p n := by
  obtain ⟨st, rfl, hst⟩ := Option.map_eq_some_iff.mp h
  obtain ⟨hheld, hpin⟩ := Prod.mk.inj hst
  refine ⟨st, rfl, hheld, hpin, fun hbalanced => hn ?_⟩
  rw [← hpin, hbalanced.count, hheld]
  rfl

/-- The write from copied-out pages leaves these pinned and unpins those of the buffer cache;
a block rewritten by a later transaction leaves the index with its page pinned; and with
`version_consistency` a shutdown unpins pages that nobody has pinned. -/
theorem page_pins_unbalanced :
    EndsUnbalanced (Run.run (PinState.step .tinyPinning) twoBlocksStart (writtenBack (100 + ·)))
      100 1 ∧
    EndsUnbalanced (Run.run (PinState.step .tinyPinning) twoBlocksStart (writtenBack (100 + ·)))
      10 (-1) ∧
    EndsUnbalanced (Run.run (PinState.step .tinyPinning) twoBlocksStart
      [allocTwoBlocks 5 (10 + ·),
        .other (twoBlocks.setStream 6 { twoBlocks.stream 6 with lastTxid := 1 }),
        allocTwoBlocks 6 (10 + ·), .commitWrite 5 (fun _ _ => .unlocked) ownPages]) 10 1 ∧
    EndsUnbalanced (Run.run (PinState.step .tiny) twoBlocksStart
      [allocTwoBlocks 5 (10 + ·), .other twoBlocks,
        .shutdown (fun _ _ => .unlocked) ownPages [5] 7]) 10 (-1) := by
  refine ⟨endsUnbalanced_of (by decide) ?_, endsUnbalanced_of (by decide) ?_,
    endsUnbalanced_of (by decide) ?_, endsUnbalanced_of (by decide) ?_⟩ <;> decide +kernel

end CcNvme

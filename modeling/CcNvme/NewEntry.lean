/-
CcNvme/NewEntry.lean

`EXT4_STATE_NEWENTRY` under concurrent renames.  `ext4_add_entry` sets the flag on an inode
whose entry is new; `ext4_sync_file` on a file goes up from it as long as it finds the flag
(`mqfs_atomic_write_parent_submit`), submits each directory it reads as a parent, and clears
the flags of these directories in a second pass (`mqfs_atomic_write_parent_wait`).  Renames
of the directories may come between any two steps.

A directory renamed between the two passes loses its flag while nothing has submitted its
new parent.  And `mqfs_submit_mapping_buffers` takes only what is on `private_list`: a block
that is on `fsmeta_pending_list` when the entry is added to it stays there and is not
submitted (`rename_between_passes`).  `new_entries_synced` says what must not come when.
-/
import CcNvme.EntryBlocks
import CcNvme.Lib.Run

namespace CcNvme

/-! ### The directories -/

/-- Who holds the entry of an inode, in which blocks and since when; and what of a directory
has been submitted. -/
structure EntryTree where
  clock : ℕ
  /-- `d_parent` of an alias -/
  parent : ℕ → Option ℕ
  /-- the blocks of the parent that were changed when the entry was added -/
  blocks : ℕ → List EntryBlock
  addedAt : ℕ → ℕ
  /-- `EXT4_STATE_NEWENTRY` -/
  newEntry : ℕ → Bool
  /-- the buffers of a directory, with the two lists -/
  dirs : ℕ → AtomicFile
  inodeAt : ℕ → ℕ
  added_lt : ∀ x, addedAt x < clock

namespace EntryTree

/-- `ext4_add_entry` for a rename of `x` into `p` changes the blocks `bs`. -/
def addEntry (t : EntryTree) (x p : ℕ) (bs : List ℕ) : EntryTree :=
  let m := (t.dirs p).bufs.markDirtyAll bs
  { clock := t.clock + 1
    parent := Function.update t.parent x (some p)
    blocks := Function.update t.blocks x (bs.map fun b => ⟨b, m.version b⟩)
    addedAt := Function.update t.addedAt x t.clock
    newEntry := Function.update t.newEntry x true
    dirs := Function.update t.dirs p { t.dirs p with bufs := m }
    inodeAt := t.inodeAt
    added_lt := (Function.forall_update_iff t.addedAt fun _ a => a < t.clock + 1).mpr
      ⟨Nat.lt_succ_self _, fun y _ => Nat.lt_succ_of_lt (t.added_lt y)⟩ }

def clearNewEntry (t : EntryTree) (x : ℕ) : EntryTree :=
  { t with newEntry := Function.update t.newEntry x false }

def setDir (t : EntryTree) (d : ℕ) (f : AtomicFile) : EntryTree :=
  { t with dirs := Function.update t.dirs d f }

/-- `tx_write_inode_metadata` -/
def submitInode (t : EntryTree) (d : ℕ) : EntryTree :=
  { t with
    clock := t.clock + 1
    inodeAt := Function.update t.inodeAt d t.clock
    added_lt := fun x => Nat.lt_succ_of_lt (t.added_lt x) }

end EntryTree

/-! ### The call -/

/-- Where the call is. -/
inductive ParentPc where
  /-- before the test at the head of `mqfs_atomic_write_parent_submit` -/
  | enter (inode : ℕ)
  /-- before the test of the loop -/
  | test (inode : ℕ) (leaf : Bool)
  /-- before the flag of the file is cleared -/
  | clearLeaf (inode : ℕ)
  /-- before `d_find_any_alias` and the read of `d_parent` -/
  | readParent (inode : ℕ) (leaf : Bool)
  /-- before the test of `list_empty` in `mqfs_submit_mapping_buffers`, for the directory read
  as a parent -/
  | buffers (next : ℕ)
  /-- in the loop of `mqfs_submit_buffers_list` -/
  | submitLoop (next : ℕ)
  /-- before `lock_buffer`, with a block that was taken -/
  | submitSend (next b : ℕ)
  /-- before its inode is submitted -/
  | inode (next : ℕ)
  /-- in the loop of `mqfs_atomic_write_parent_wait` -/
  | wait (rest : List ℕ) (ret : ℤ)
  /-- in the loop of `mqfs_wait_buffers_list`, for the directory whose flag was cleared -/
  | waitLoop (x : ℕ) (rest : List ℕ)
  /-- before `wait_on_buffer` -/
  | waitBuffer (x b : ℕ) (rest : List ℕ)
  | done (ret : ℤ)
  deriving DecidableEq

/-- A flag that was set and is cleared: the entry, its holder at that time, its blocks and its
age. -/
structure ClearedEntry where
  inode : ℕ
  holder : ℕ
  blocks : List EntryBlock
  added : ℕ

structure ParentSync where
  tree : EntryTree
  pc : ParentPc
  waiting : List ℕ
  cleared : List ClearedEntry

inductive ParentOp where
  /-- the next step of the call; `result` is that of `tx_write_inode_metadata` and of
  `tx_write_wait_inode_buffer` -/
  | sync (result : ℤ)
  /-- `x` is renamed into `p`, with a change to the blocks `bs` of `p` -/
  | rename (x p : ℕ) (bs : List ℕ)
  /-- the write of a block of `d` completes -/
  | complete (d b : ℕ) (uptodate : Bool)

/-- The entry whose flag is set. -/
def EntryTree.flagged (t : EntryTree) (x : ℕ) : List ClearedEntry :=
  if t.newEntry x then (t.parent x).toList.map fun p => ⟨x, p, t.blocks x, t.addedAt x⟩ else []

/-- `ext4_clear_inode_state` -/
def ParentSync.clear (st : ParentSync) (x : ℕ) : ParentSync :=
  { st with tree := st.tree.clearNewEntry x, cleared := st.cleared ++ st.tree.flagged x }

def ParentSync.sync (st : ParentSync) (result : ℤ) : Option ParentSync :=
  match st.pc with
  | .enter inode =>
      some { st with pc := if st.tree.newEntry inode then .test inode true else .wait st.waiting 0 }
  | .test inode leaf =>
      some { st with
        pc :=
          if st.tree.newEntry inode then
            if leaf then .clearLeaf inode else .readParent inode false
          else .wait st.waiting 0 }
  | .clearLeaf inode => some { st.clear inode with pc := .readParent inode true }
  | .readParent inode _ =>
      some { st with
        pc := match st.tree.parent inode with
          | some next => .buffers next
          | none => .wait st.waiting 0 }
  | .buffers next =>
      some { st with
        pc := if (st.tree.dirs next).bufs.privateList = [] then .inode next else .submitLoop next }
  | .submitLoop next =>
      match (st.tree.dirs next).bufs.privateList with
      | [] => some { st with pc := .inode next }
      | b :: _ =>
          let taken := (st.tree.dirs next).takePrivate b
          some { st with
            tree := st.tree.setDir next taken.1
            pc := if taken.2 then .submitSend next b else .submitLoop next }
  | .submitSend next b =>
      if (st.tree.dirs next).bufs.locked b then none
      else some { st with
        tree := st.tree.setDir next ((st.tree.dirs next).send b)
        pc := .submitLoop next }
  | .inode next =>
      if result ≠ 0 then some { st with pc := .wait st.waiting 0 }
      else some { st with
        tree := st.tree.submitInode next
        pc := .test next false
        waiting := st.waiting ++ [next] }
  | .wait (x :: xs) _ => some { st.clear x with pc := .waitLoop x xs }
  | .wait [] ret => some { st with pc := .done ret }
  | .waitLoop x xs =>
      match (st.tree.dirs x).bufs.pendingList.getLast? with
      -- `osync_buffers_list` only waits, and what the pass returns is not looked at
      | none => some { st with pc := .wait xs result }
      | some b => some { st with
          tree := st.tree.setDir x
            { st.tree.dirs x with bufs := (st.tree.dirs x).bufs.takePending b }
          pc := .waitBuffer x b xs }
  | .waitBuffer x b xs =>
      if (st.tree.dirs x).bufs.locked b then none else some { st with pc := .waitLoop x xs }
  | .done _ => none

def ParentSync.step (st : ParentSync) : ParentOp → Option ParentSync
  | .sync result => st.sync result
  | .rename x p bs => some { st with tree := st.tree.addEntry x p bs }
  | .complete d b uptodate =>
      if (st.tree.dirs d).bufs.lock b = .inFlight then
        some { st with
          tree := st.tree.setDir d
            { st.tree.dirs d with bufs := (st.tree.dirs d).bufs.endWrite b uptodate } }
      else none

def ParentSync.init (t : EntryTree) (file : ℕ) : ParentSync := ⟨t, .enter file, [], []⟩

/-! ### The property -/

/-- The blocks of directory `p` have been submitted with the entry in them. -/
def EntryTree.Sent (t : EntryTree) (p : ℕ) (ks : List EntryBlock) : Prop :=
  ∀ k ∈ ks, k.version ≤ (t.dirs p).sent k.block

/-- The holder of the entry has been submitted since the entry was added: the blocks that hold
it, and the inode. -/
def EntryTree.SubmittedSince (t : EntryTree) (e : ClearedEntry) : Prop :=
  t.Sent e.holder e.blocks ∧ e.added < t.inodeAt e.holder

/-- When the call has returned success, the holder of each entry whose flag it has cleared
has been submitted since the entry was added. -/
def EntriesSynced (st : ParentSync) : Prop :=
  st.pc = .done 0 → ∀ e ∈ st.cleared, st.tree.SubmittedSince e

instance decidableSubmittedSince (t : EntryTree) (e : ClearedEntry) :
    Decidable (t.SubmittedSince e) :=
  inferInstanceAs (Decidable ((∀ k ∈ e.blocks, k.version ≤ (t.dirs e.holder).sent k.block) ∧ _))

instance decidableEntriesSynced (st : ParentSync) : Decidable (EntriesSynced st) :=
  inferInstanceAs (Decidable (_ → _))

/-- The inodes whose flag the call is going to clear, or has cleared, and whose parent it does
not read again. -/
def ParentPc.window (waiting : List ℕ) : ParentPc → List ℕ
  | .enter _ | .buffers _ | .submitLoop _ | .submitSend _ _ | .inode _ => waiting
  | .test x _ | .clearLeaf x | .readParent x false => waiting.filter (· ≠ x)
  | .readParent x true => x :: waiting.filter (· ≠ x)
  | .wait rest _ => rest
  | .waitLoop _ rest | .waitBuffer _ _ rest => rest
  | .done _ => []

def ParentSync.window (st : ParentSync) : List ℕ := st.pc.window st.waiting

/-- The next step submits an inode. -/
def ParentPc.submits : ParentPc → Bool
  | .inode _ => true
  | _ => false

/-- The block of directory `d` that the call is about to submit. -/
def ParentPc.hand (d : ℕ) : ParentPc → Option ℕ
  | .submitSend next b => if next = d then some b else none
  | _ => none

/-- No inode is renamed in its window or into a block that is on `fsmeta_pending_list`, if it is
not the one about to be submitted; and no inode fails to be submitted. -/
def OutsideWindow (st : ParentSync) : ParentOp → Prop
  | .rename x p bs =>
      x ∉ st.window ∧ ∀ b ∈ bs, (st.tree.dirs p).bufs.Free b ∨ st.pc.hand p = some b
  | .sync result => st.pc.submits → result = 0
  | _ => True

instance decidableOutsideWindow (st : ParentSync) :
    (op : ParentOp) → Decidable (OutsideWindow st op)
  | .rename x p bs =>
      inferInstanceAs (Decidable (x ∉ st.window ∧
        ∀ b ∈ bs, (st.tree.dirs p).bufs.Free b ∨ st.pc.hand p = some b))
  | .sync result => inferInstanceAs (Decidable (st.pc.submits → result = 0))
  | .complete _ _ _ => isTrue trivial

/-- The blocks with an entry whose flag is set are kept; none is left on
`fsmeta_pending_list`. -/
def EntryTree.Queued (t : EntryTree) (hand : ℕ → Option ℕ) : Prop :=
  ∀ x, t.newEntry x = true → ∀ p, t.parent x = some p →
    ∀ k ∈ t.blocks x, (t.dirs p).Keeps (hand p) k

/-! ### The invariant -/

/-- The directory whose blocks are being submitted. -/
def ParentPc.submitting : ParentPc → Option ℕ
  | .buffers p | .submitLoop p | .submitSend p _ => some p
  | _ => none

/-- The directory that is being submitted. -/
def ParentPc.reaching : ParentPc → Option ℕ
  | .buffers p | .submitLoop p | .submitSend p _ | .inode p => some p
  | _ => none

/-- Directory `p` has been submitted with the blocks of an entry of time `a`, or is the one
about to be. -/
def ParentSync.Covered (st : ParentSync) (p : ℕ) (ks : List EntryBlock) (a : ℕ) : Prop :=
  (st.tree.Sent p ks ∨ st.pc.submitting = some p) ∧
    (a < st.tree.inodeAt p ∨ st.pc.reaching = some p)

/-- No block of a new entry is left out; the entries of the inodes in the window are covered,
and so are those whose flag is cleared; that of the file is once its parent is read. -/
structure ParentSyncInv (st : ParentSync) : Prop where
  queued : st.tree.Queued fun p => st.pc.hand p
  kept : ∀ e ∈ st.cleared, ∀ k ∈ e.blocks, (st.tree.dirs e.holder).Keeps (st.pc.hand e.holder) k
  window : ∀ x ∈ st.window, st.tree.newEntry x = true → ∀ p, st.tree.parent x = some p →
    st.Covered p (st.tree.blocks x) (st.tree.addedAt x)
  cleared : ∀ e ∈ st.cleared, st.Covered e.holder e.blocks e.added ∨
    st.pc = .readParent e.inode true ∧ st.tree.parent e.inode = some e.holder
  past : ∀ e ∈ st.cleared, e.added < st.tree.clock

variable {f : AtomicFile} {st st' : ParentSync}

theorem EntryTree.mem_flagged_iff {t : EntryTree} {x : ℕ} {e : ClearedEntry} :
    e ∈ t.flagged x ↔
      t.newEntry x = true ∧ ∃ p, t.parent x = some p ∧ e = ⟨x, p, t.blocks x, t.addedAt x⟩ := by
  unfold EntryTree.flagged
  split_ifs with h
  · simp [h, eq_comm]
  · simp [h]

/-- The call is not submitting a directory. -/
def ParentPc.between (q : ParentPc) : Prop := q.reaching = none

theorem ParentPc.submitting_of_between {q : ParentPc} (h : q.between) : q.submitting = none := by
  cases q with
  | buffers | submitLoop | submitSend => cases h
  | _ => rfl

theorem ParentPc.hand_of_between {q : ParentPc} (h : q.between) (d : ℕ) : q.hand d = none := by
  cases q with
  | submitSend => cases h
  | _ => rfl

theorem ParentSync.Covered.since {p a : ℕ} {ks : List EntryBlock} (h : st.Covered p ks a)
    (hpc : st.pc.between) : st.tree.Sent p ks ∧ a < st.tree.inodeAt p := by
  obtain ⟨hsent, hinode⟩ := h
  rw [ParentPc.submitting_of_between hpc] at hsent
  rw [show st.pc.reaching = none from hpc] at hinode
  refine ⟨hsent.resolve_right fun he => ?_, hinode.resolve_right fun he => ?_⟩
  · cases he
  · cases he

theorem ParentSync.covered_of_since (st : ParentSync) {p a : ℕ} {ks : List EntryBlock}
    (h : st.tree.Sent p ks ∧ a < st.tree.inodeAt p) : st.Covered p ks a :=
  ⟨Or.inl h.1, Or.inl h.2⟩

/-- What is kept in a directory with an empty `private_list` has been submitted, if nothing is
in the hand. -/
theorem EntryTree.sent_of_empty {t : EntryTree} {p : ℕ} {ks : List EntryBlock}
    (hks : ∀ k ∈ ks, (t.dirs p).Keeps none k) (hempty : (t.dirs p).bufs.privateList = []) :
    t.Sent p ks := by
  intro k hk
  refine (hks k hk).2.resolve_right ?_
  rintro ⟨-, hmem | hhand⟩
  · rw [hempty] at hmem
    cases hmem
  · cases hhand

/-- Two places with the same window, with the same directory being submitted. -/
structure SamePlace (q q' : ParentPc) : Prop where
  submitting : q.submitting = q'.submitting
  reaching : q.reaching = q'.reaching
  window : ∀ w, q'.window w = q.window w
  leaf : ∀ y, q = .readParent y true → q' = .readParent y true

theorem samePlace_refl (q : ParentPc) : SamePlace q q := ⟨rfl, rfl, fun _ => rfl, fun _ => id⟩

/-- One directory goes on. -/
theorem carries_update {q q' : ParentPc} {dirs : ℕ → AtomicFile} {d : ℕ}
    (hf : Carries (dirs d) (q.hand d) f (q'.hand d)) (hhand : ∀ p ≠ d, q.hand p = q'.hand p)
    (p : ℕ) : Carries (dirs p) (q.hand p) (Function.update dirs d f p) (q'.hand p) := by
  by_cases hp : p = d
  · subst hp
    rwa [Function.update_self]
  · rw [Function.update_of_ne hp, hhand p hp]
    exact carries_refl _

namespace ParentSyncInv

/-- The passes go on in the directories. -/
theorem move (h : ParentSyncInv st) {D : ℕ → AtomicFile} {q : ParentPc}
    (hplace : SamePlace st.pc q)
    (hcarries : ∀ p, Carries (st.tree.dirs p) (st.pc.hand p) (D p) (q.hand p)) :
    ParentSyncInv { st with tree := { st.tree with dirs := D }, pc := q } := by
  have hcovered {p a : ℕ} {ks : List EntryBlock}
      (hks : ∀ k ∈ ks, (st.tree.dirs p).Keeps (st.pc.hand p) k) (hold : st.Covered p ks a) :
      ParentSync.Covered { st with tree := { st.tree with dirs := D }, pc := q } p ks a := by
    unfold ParentSync.Covered at hold ⊢
    rw [hplace.submitting, hplace.reaching] at hold
    exact hold.imp_left fun hsent =>
      hsent.imp_left fun hsent k hk => (hcarries p k (hks k hk)).2 (hsent k hk)
  refine ⟨fun x hx p hp k hk => (hcarries p k (h.queued x hx p hp k hk)).1,
    fun e he k hk => (hcarries e.holder k (h.kept e he k hk)).1,
    fun x hx hnew p hp => hcovered (h.queued x hnew p hp) (h.window x ?_ hnew p hp),
    fun e he => (h.cleared e he).imp (hcovered (h.kept e he)) ?_, h.past⟩
  · exact Eq.mp (congrArg (x ∈ ·) (hplace.window st.waiting)) hx
  · exact And.imp_left (hplace.leaf e.inode)

/-- The call goes on without a change to the directories. -/
theorem goto (h : ParentSyncInv st) {q : ParentPc} (hpc : st.pc.between)
    (hwindow : ∀ x ∈ ParentSync.window { st with pc := q }, st.tree.newEntry x = true →
      ∀ p, st.tree.parent x = some p → x ∈ st.window ∨ q = .buffers p)
    (hleaf : ∀ x p, st.pc = .readParent x true → st.tree.parent x = some p → q = .buffers p) :
    ParentSyncInv { st with pc := q } := by
  have hhand := fun p => ParentPc.hand_of_between hpc p
  refine ⟨fun x hnew p hp k hk => ?_, fun e he k hk => ?_, fun x hx hnew p hp => ?_,
    fun e he => Or.inl ?_, h.past⟩
  · exact AtomicFile.Keeps.of_none (hhand p ▸ h.queued x hnew p hp k hk)
  · exact AtomicFile.Keeps.of_none (hhand e.holder ▸ h.kept e he k hk)
  · rcases hwindow x hx hnew p hp with hold | rfl
    · exact ParentSync.covered_of_since _ ((h.window x hold hnew p hp).since hpc)
    · exact ⟨Or.inr rfl, Or.inr rfl⟩
  · rcases h.cleared e he with hold | ⟨hread, hparent⟩
    · exact ParentSync.covered_of_since _ (hold.since hpc)
    · obtain rfl := hleaf _ _ hread hparent
      exact ⟨Or.inr rfl, Or.inr rfl⟩

/-- The blocks of the new entry are kept. -/
theorem keeps_addEntry {x p : ℕ} {bs : List ℕ}
    (hbs : ∀ b ∈ bs, (st.tree.dirs p).bufs.Free b ∨ st.pc.hand p = some b) {k : EntryBlock}
    (hk : k ∈ (st.tree.addEntry x p bs).blocks x) :
    ((st.tree.addEntry x p bs).dirs p).Keeps (st.pc.hand p) k := by
  have hk' : k ∈ bs.map fun b =>
      (⟨b, ((st.tree.dirs p).bufs.markDirtyAll bs).version b⟩ : EntryBlock) := by
    refine Eq.mp (congrArg (k ∈ ·) ?_) hk
    exact Function.update_self ..
  obtain ⟨b, hb, rfl⟩ := List.mem_map.mp hk'
  have hdir : (st.tree.addEntry x p bs).dirs p
      = { st.tree.dirs p with bufs := (st.tree.dirs p).bufs.markDirtyAll bs } :=
    Function.update_self ..
  rw [hdir]
  refine ⟨Nat.le_refl _, Or.inr ⟨MappingBuffers.dirty_markDirtyAll bs (Or.inl hb), ?_⟩⟩
  exact (hbs b hb).imp_left fun hfree => hfree.markDirtyAll bs (Or.inl hb)

/-- A rename outside the window, into blocks that are free or about to be submitted. -/
theorem rename (h : ParentSyncInv st) {x p : ℕ} {bs : List ℕ} (hx : x ∉ st.window)
    (hbs : ∀ b ∈ bs, (st.tree.dirs p).bufs.Free b ∨ st.pc.hand p = some b) :
    ParentSyncInv { st with tree := st.tree.addEntry x p bs } := by
  have hcarries (d : ℕ) : Carries (st.tree.dirs d) (st.pc.hand d)
      ((st.tree.addEntry x p bs).dirs d) (st.pc.hand d) :=
    carries_update (carries_markDirtyAll (st.tree.dirs p) bs) (fun _ _ => rfl) d
  have hparent {y : ℕ} (hne : y ≠ x) : (st.tree.addEntry x p bs).parent y = st.tree.parent y :=
    Function.update_of_ne hne _ _
  have hflag {y : ℕ} (hne : y ≠ x) :
      (st.tree.addEntry x p bs).newEntry y = st.tree.newEntry y :=
    Function.update_of_ne hne _ _
  have hblocks {y : ℕ} (hne : y ≠ x) : (st.tree.addEntry x p bs).blocks y = st.tree.blocks y :=
    Function.update_of_ne hne _ _
  have hcovered {d a : ℕ} {ks : List EntryBlock}
      (hks : ∀ k ∈ ks, (st.tree.dirs d).Keeps (st.pc.hand d) k) (hold : st.Covered d ks a) :
      ParentSync.Covered { st with tree := st.tree.addEntry x p bs } d ks a :=
    hold.imp_left fun hsent =>
      hsent.imp_left fun hsent k hk => (hcarries d k (hks k hk)).2 (hsent k hk)
  refine ⟨fun y hnew d hd k hk => ?_, fun e he k hk => (hcarries e.holder k (h.kept e he k hk)).1,
    fun y hy hnew d hd => ?_, fun e he => ?_, fun e he => Nat.lt_succ_of_lt (h.past e he)⟩
  · by_cases hne : y = x
    · subst hne
      have hself : (st.tree.addEntry y p bs).parent y = some p := Function.update_self ..
      obtain rfl := Option.some.inj (hself.symm.trans hd)
      exact keeps_addEntry hbs hk
    · rw [hflag hne] at hnew
      rw [hparent hne] at hd
      rw [hblocks hne] at hk
      exact (hcarries d k (h.queued y hnew d hd k hk)).1
  · have hne : y ≠ x := by
      rintro rfl
      exact hx hy
    have hadded : (st.tree.addEntry x p bs).addedAt y = st.tree.addedAt y :=
      Function.update_of_ne hne _ _
    rw [hflag hne] at hnew
    rw [hparent hne] at hd
    rw [hadded, hblocks hne]
    exact hcovered (h.queued y hnew d hd) (h.window y hy hnew d hd)
  · refine (h.cleared e he).imp (hcovered (h.kept e he)) fun ⟨hread, hholder⟩ => ⟨hread, ?_⟩
    have hne : e.inode ≠ x := by
      rintro rfl
      refine hx ?_
      rw [ParentSync.window, hread]
      exact List.mem_cons_self
    rw [← hholder]
    exact hparent hne

/-- The flag of `x` is cleared; the entry is covered, or will be when the parent is read. -/
theorem clear (h : ParentSyncInv st) {x : ℕ} {q : ParentPc} (hpc : st.pc.between)
    (hread : ∀ y, st.pc ≠ .readParent y true)
    (hwindow : ∀ y ∈ ParentSync.window { st.clear x with pc := q }, y ≠ x → y ∈ st.window)
    (hx : x ∈ st.window ∨ q = .readParent x true) :
    ParentSyncInv { st.clear x with pc := q } := by
  have hadded := st.tree.added_lt x
  have hhand := fun p => ParentPc.hand_of_between hpc p
  have hflag {y : ℕ} (hnew : (st.tree.clearNewEntry x).newEntry y = true) :
      y ≠ x ∧ st.tree.newEntry y = true := by
    have hne : y ≠ x := by
      rintro rfl
      have hself : (st.tree.clearNewEntry y).newEntry y = false := Function.update_self ..
      exact Bool.false_ne_true (hself.symm.trans hnew)
    have hsame : (st.tree.clearNewEntry x).newEntry y = st.tree.newEntry y :=
      Function.update_of_ne hne _ _
    exact ⟨hne, hsame.symm.trans hnew⟩
  refine ⟨fun y hnew p hp k hk => ?_, fun e he k hk => AtomicFile.Keeps.of_none ?_,
    fun y hy hnew p hp => ?_, fun e he => ?_, fun e he => ?_⟩
  · exact AtomicFile.Keeps.of_none (hhand p ▸ h.queued y (hflag hnew).2 p hp k hk)
  · rcases List.mem_append.mp he with hold | hnew
    · exact hhand e.holder ▸ h.kept e hold k hk
    · obtain ⟨hflag, p, hp, rfl⟩ := EntryTree.mem_flagged_iff.mp hnew
      exact hhand p ▸ h.queued x hflag p hp k hk
  · obtain ⟨hne, hnew'⟩ := hflag hnew
    exact ParentSync.covered_of_since _
      ((h.window y (hwindow y hy hne) hnew' p hp).since hpc)
  · rcases List.mem_append.mp he with hold | hnew
    · rcases h.cleared e hold with hcov | ⟨hpending, -⟩
      · exact Or.inl (ParentSync.covered_of_since _ (hcov.since hpc))
      · exact absurd hpending (hread _)
    · obtain ⟨hflag, p, hp, rfl⟩ := EntryTree.mem_flagged_iff.mp hnew
      rcases hx with hwin | rfl
      · exact Or.inl (ParentSync.covered_of_since _ ((h.window x hwin hflag p hp).since hpc))
      · exact Or.inr ⟨rfl, hp⟩
  · rcases List.mem_append.mp he with hold | hnew
    · exact h.past e hold
    · obtain ⟨-, p, -, rfl⟩ := EntryTree.mem_flagged_iff.mp hnew
      exact hadded

/-- While a directory is being submitted the window is what is waited for. -/
theorem reaching_window {next : ℕ} (hpc : st.pc.reaching = some next) :
    st.window = st.waiting ∧ ∀ y, st.pc ≠ .readParent y true := by
  unfold ParentSync.window
  cases hq : st.pc with
  | buffers | submitLoop | submitSend | inode => exact ⟨rfl, fun y h => by cases h⟩
  | _ =>
      rw [hq] at hpc
      cases hpc

/-- **The blocks have been submitted** when `private_list` is empty and nothing is in the
hand. -/
theorem submitted (h : ParentSyncInv st) {next : ℕ} (hpc : st.pc.submitting = some next)
    (hreach : st.pc.reaching = some next) (hhand : ∀ p, st.pc.hand p = none)
    (hempty : (st.tree.dirs next).bufs.privateList = []) :
    ParentSyncInv { st with pc := .inode next } := by
  have hcovered {p a : ℕ} {ks : List EntryBlock}
      (hks : ∀ k ∈ ks, (st.tree.dirs p).Keeps (st.pc.hand p) k) (hold : st.Covered p ks a) :
      ParentSync.Covered { st with pc := .inode next } p ks a := by
    obtain ⟨hsent, hinode⟩ := hold
    rw [hpc] at hsent
    rw [hreach] at hinode
    refine ⟨Or.inl (hsent.elim id fun hp => ?_), hinode⟩
    obtain rfl := Option.some.inj hp
    exact EntryTree.sent_of_empty (fun k hk => hhand next ▸ hks k hk) hempty
  obtain ⟨hwindow, hread⟩ := reaching_window hreach
  refine ⟨fun x hnew p hp k hk => AtomicFile.Keeps.of_none (hhand p ▸ h.queued x hnew p hp k hk),
    fun e he k hk => AtomicFile.Keeps.of_none (hhand e.holder ▸ h.kept e he k hk),
    fun x hx hnew p hp => hcovered (h.queued x hnew p hp) (h.window x (hwindow ▸ hx) hnew p hp),
    fun e he => Or.inl (hcovered (h.kept e he) ?_), h.past⟩
  exact (h.cleared e he).resolve_right fun hpending => hread _ hpending.1

theorem inode (h : ParentSyncInv st) {next : ℕ} (hpc : st.pc = .inode next) :
    ParentSyncInv { st with
      tree := st.tree.submitInode next
      pc := .test next false
      waiting := st.waiting ++ [next] } := by
  have hhand (p : ℕ) : st.pc.hand p = none := by
    rw [hpc]
    rfl
  have hcov {p a : ℕ} {ks : List EntryBlock} (ha : a < st.tree.clock)
      (hold : st.Covered p ks a) : ParentSync.Covered
      { st with
        tree := st.tree.submitInode next
        pc := .test next false
        waiting := st.waiting ++ [next] } p ks a := by
    unfold ParentSync.Covered at *
    rw [hpc] at hold
    obtain ⟨hsent, hinode⟩ := hold
    refine ⟨Or.inl (hsent.resolve_right fun hc => by cases hc), Or.inl ?_⟩
    show a < Function.update st.tree.inodeAt next st.tree.clock p
    by_cases hp : p = next
    · rw [hp, Function.update_self]
      exact ha
    · rw [Function.update_of_ne hp]
      refine hinode.resolve_right fun hc => hp ?_
      exact (Option.some.inj hc).symm
  have hreach : st.pc.reaching = some next := by
    rw [hpc]
    rfl
  obtain ⟨hwindow, hread⟩ := reaching_window hreach
  refine ⟨fun x hnew p hp k hk => AtomicFile.Keeps.of_none (hhand p ▸ h.queued x hnew p hp k hk),
    fun e he k hk => AtomicFile.Keeps.of_none (hhand e.holder ▸ h.kept e he k hk),
    fun x hx hnew p hp => hcov (st.tree.added_lt x) (h.window x ?_ hnew p hp),
    fun e he => Or.inl ?_, fun e he => Nat.lt_succ_of_lt (h.past e he)⟩
  · rw [hwindow]
    simp only [ParentSync.window, ParentPc.window, List.mem_filter, List.mem_append,
      List.mem_singleton, decide_eq_true_eq] at hx
    exact hx.1.resolve_right hx.2
  · exact hcov (h.past e he) ((h.cleared e he).resolve_right fun hpending =>
      hread _ hpending.1)

/-- The submit pass of a directory. -/
theorem submitPass (h : ParentSyncInv st) {next : ℕ} {result : ℤ}
    (hpc : st.pc.submitting = some next) (hs : st.sync result = some st') :
    ParentSyncInv st' := by
  unfold ParentSync.sync at hs
  cases e : st.pc with
  | buffers p =>
      rw [e] at hs
      obtain rfl := Option.some.inj hs
      split_ifs with hempty
      · refine h.submitted (by rw [e]; rfl) (by rw [e]; rfl) (fun _ => ?_) hempty
        rw [e]
        rfl
      · refine h.move (D := st.tree.dirs) ?_ fun p => ?_
        · rw [e]
          exact ⟨rfl, rfl, fun _ => rfl, fun _ he => by cases he⟩
        · rw [e]
          exact carries_refl _
  | submitLoop p =>
      rw [e] at hs
      dsimp only at hs
      split at hs
      · rename_i hempty
        obtain rfl := Option.some.inj hs
        refine h.submitted (by rw [e]; rfl) (by rw [e]; rfl) (fun _ => ?_) hempty
        rw [e]
        rfl
      · rename_i b _ _
        obtain rfl := Option.some.inj hs
        have htake := carries_takePrivate (st.tree.dirs p) b
        split_ifs with htaken
        · rw [if_pos htaken] at htake
          refine h.move ?_ (carries_update ?_ fun d hd => ?_)
          · rw [e]
            exact ⟨rfl, rfl, fun _ => rfl, fun _ he => by cases he⟩
          · rw [e, show (ParentPc.submitSend p b).hand p = some b from if_pos rfl]
            exact htake
          · rw [e]
            exact (if_neg (Ne.symm hd)).symm
        · rw [if_neg htaken] at htake
          refine h.move ?_ (carries_update ?_ fun d _ => ?_)
          · rw [e]
            exact samePlace_refl _
          · rw [e]
            exact htake
          · rw [e]
  | submitSend p b =>
      rw [e] at hs
      dsimp only at hs
      split_ifs at hs
      obtain rfl := Option.some.inj hs
      refine h.move ?_ (carries_update ?_ fun d hd => ?_)
      · rw [e]
        exact ⟨rfl, rfl, fun _ => rfl, fun _ he => by cases he⟩
      · rw [e, show (ParentPc.submitSend p b).hand p = some b from if_pos rfl]
        exact carries_send _ b
      · rw [e]
        exact if_neg (Ne.symm hd)
  | _ =>
      rw [e] at hpc
      cases hpc

/-- The wait pass of a directory. -/
theorem waitPass (h : ParentSyncInv st) {x : ℕ} {xs : List ℕ} {result : ℤ}
    (hpc : st.pc = .waitLoop x xs) (hs : st.sync result = some st') : ParentSyncInv st' := by
  have hwindow : st.window = xs := by
    rw [ParentSync.window, hpc]
    rfl
  unfold ParentSync.sync at hs
  rw [hpc] at hs
  dsimp only at hs
  split at hs
  · obtain rfl := Option.some.inj hs
    exact h.goto (by rw [hpc]; rfl) (fun y hy _ _ _ => Or.inl (hwindow ▸ hy)) (by simp [hpc])
  · rename_i b _
    obtain rfl := Option.some.inj hs
    refine h.move ?_ (carries_update ?_ fun d _ => ?_)
    · rw [hpc]
      exact ⟨rfl, rfl, fun _ => rfl, fun _ he => by cases he⟩
    · rw [hpc]
      exact carries_takePending _ b
    · rw [hpc]
      rfl

/-- The parent is read: what was waiting on `inode` alone is now about to be submitted. -/
theorem readParent (h : ParentSyncInv st) {inode : ℕ} {leaf : Bool} {result : ℤ}
    (hpc : st.pc = .readParent inode leaf) (hs : st.sync result = some st') :
    ParentSyncInv st' := by
  have hwindow : st.window = (ParentPc.readParent inode leaf).window st.waiting := by
    rw [ParentSync.window, hpc]
  unfold ParentSync.sync at hs
  rw [hpc] at hs
  obtain rfl := Option.some.inj hs
  refine h.goto (by rw [hpc]; rfl) (fun x hx hnew p hp => ?_) fun x p hx hp => ?_
  · by_cases hne : x = inode
    · subst hne
      rw [hp]
      exact Or.inr rfl
    · have hmem : x ∈ st.waiting := by
        rcases hparent : st.tree.parent inode with - | next <;> rw [hparent] at hx <;> exact hx
      have hfilter : x ∈ st.waiting.filter (· ≠ inode) :=
        List.mem_filter.mpr ⟨hmem, decide_eq_true hne⟩
      refine Or.inl (hwindow ▸ ?_)
      cases leaf
      · exact hfilter
      · exact List.mem_cons_of_mem _ hfilter
  · obtain ⟨rfl, -⟩ := ParentPc.readParent.inj (hpc.symm.trans hx)
    rw [hp]

/-- A step of the call. -/
theorem sync (h : ParentSyncInv st) {result : ℤ}
    (hresult : st.pc.submits → result = 0) (hs : st.sync result = some st') :
    ParentSyncInv st' := by
  have hsync := hs
  have hwindow : st.window = st.pc.window st.waiting := rfl
  unfold ParentSync.sync at hs
  rcases e : st.pc with inode | ⟨inode, leaf⟩ | inode | ⟨inode, leaf⟩ | next | next | ⟨next, b⟩ |
    next | ⟨rest, ret⟩ | ⟨x, rest⟩ | ⟨x, b, rest⟩ | ret <;> rw [e] at hs hwindow
  case enter =>
    obtain rfl := Option.some.inj hs
    refine h.goto (by rw [e]; rfl) (fun x hx _ _ _ => Or.inl (hwindow ▸ ?_)) (by simp [e])
    split_ifs at hx
    · exact List.mem_of_mem_filter hx
    · exact hx
  case test =>
    obtain rfl := Option.some.inj hs
    refine h.goto (by rw [e]; rfl) (fun x hx hnew _ _ => Or.inl (hwindow ▸ ?_)) (by simp [e])
    split_ifs at hx with hflag hleaf
    · exact hx
    · exact hx
    · refine List.mem_filter.mpr ⟨hx, decide_eq_true ?_⟩
      rintro rfl
      exact hflag hnew
  case clearLeaf =>
    obtain rfl := Option.some.inj hs
    refine h.clear (by rw [e]; rfl) (by simp [e]) (fun y hy hne => hwindow ▸ ?_) (Or.inr rfl)
    exact (List.mem_cons.mp hy).resolve_left hne
  case readParent => exact h.readParent e hsync
  case buffers => exact h.submitPass (by rw [e]; rfl) hsync
  case submitLoop => exact h.submitPass (by rw [e]; rfl) hsync
  case submitSend => exact h.submitPass (by rw [e]; rfl) hsync
  case inode =>
    dsimp only at hs
    rw [if_neg (not_not.mpr (hresult (by rw [e]; rfl)))] at hs
    obtain rfl := Option.some.inj hs
    exact h.inode e
  case wait =>
    rcases rest with - | ⟨x, xs⟩
    · obtain rfl := Option.some.inj hs
      exact h.goto (by rw [e]; rfl) (fun x hx => absurd hx List.not_mem_nil) (by simp [e])
    · obtain rfl := Option.some.inj hs
      refine h.clear (by rw [e]; rfl) (by simp [e]) (fun y hy _ => hwindow ▸ ?_)
        (Or.inl (hwindow ▸ List.mem_cons_self))
      exact List.mem_cons_of_mem _ hy
  case waitLoop => exact h.waitPass e hsync
  case waitBuffer =>
    dsimp only at hs
    split_ifs at hs
    obtain rfl := Option.some.inj hs
    exact h.goto (by rw [e]; rfl) (fun y hy _ _ _ => Or.inl (hwindow ▸ hy)) (by simp [e])
  case done => cases hs

theorem step (h : ParentSyncInv st) {op : ParentOp} (hop : OutsideWindow st op)
    (hs : st.step op = some st') : ParentSyncInv st' := by
  cases op with
  | sync result => exact h.sync hop hs
  | rename x p bs =>
      obtain rfl := Option.some.inj hs
      exact h.rename hop.1 hop.2
  | complete d b uptodate =>
      simp only [ParentSync.step] at hs
      split_ifs at hs
      obtain rfl := Option.some.inj hs
      exact h.move (samePlace_refl _)
        (carries_update (carries_endWrite _ b uptodate) fun _ _ => rfl)

theorem init {t : EntryTree} (ht : t.Queued fun _ => none) (file : ℕ) :
    ParentSyncInv (ParentSync.init t file) :=
  ⟨ht, fun _ h => absurd h List.not_mem_nil, fun _ h => absurd h List.not_mem_nil,
    fun _ h => absurd h List.not_mem_nil, fun _ h => absurd h List.not_mem_nil⟩

end ParentSyncInv

end CcNvme

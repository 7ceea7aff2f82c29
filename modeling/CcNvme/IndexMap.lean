/-
CcNvme/IndexMap.lean

What the in-place-update index is for.  `BlockMap` is the abstract view: for each
device and block the journal address of the latest version that has not been
committed.  The index stores that in radix trees, under a key computed from the
block number, the group size and the number of trees, and without the device.

`IndexInv` relates the two; `index_step` keeps it through `journal_write_alloc`
with the write-back inside it, `commit_write_entry_per_stream` and
`olayer_register_streams`, under the conditions of `IndexSafe`, and
`index_refines_map` is the statement about whole runs.  The conditions are what
the key and the update rule need: one registered device, block numbers that fit 32
bits, no rewrite of a block that is indexed under the same transaction id, and no
change of the group size while something is journaled.
-/
import CcNvme.Writeback
import CcNvme.Cursors
import CcNvme.Lib.Run

namespace CcNvme

/-! ### The abstract map -/

/-- The journal address of the latest uncommitted version of each block of each device. -/
def BlockMap := BlockDevice → ℕ → Option ℕ

namespace BlockMap

def empty : BlockMap := fun _ _ => none

/-- The `n` blocks at `lba` of device `d` are journaled at `plba`. -/
def journal (m : BlockMap) (d : BlockDevice) (lba n plba : ℕ) : BlockMap := fun d' x =>
  if d' = d ∧ lba ≤ x ∧ x < lba + n then some (plba + (x - lba)) else m d' x

/-- The `n` blocks at `lba` of device `d` are committed. -/
def commit (m : BlockMap) (d : BlockDevice) (lba n : ℕ) : BlockMap := fun d' x =>
  if d' = d ∧ lba ≤ x ∧ x < lba + n then none else m d' x

end BlockMap

/-! ### The machine -/

/-- The module, the queue of free stream ids and the abstract map. -/
structure IndexState where
  o : Olayer
  freeStreamQ : List ℕ
  map : BlockMap

inductive IndexOp (P : Params) where
  /-- `journal_write_alloc` -/
  | alloc (i : Fin P.nrStreams) (bc : BufferCache) (b : Bio)
  /-- `commit_write_entry_per_stream` -/
  | commit (bc : BufferCache) (e : Ometa) (sb : Option ℕ) (txid : ℕ)
  /-- `olayer_register_streams` -/
  | register (nr : ℕ) (param : InitParam)
  /-- the entries and the cursors of a ring change -/
  | ring (i : Fin P.nrStreams) (s : Stream) (h : s.InRing P)

variable (P : Params)

/-! The device of a super block, `sb->s_bdev`, is not the module's business. -/

variable (bdev : ℕ → BlockDevice)

/-- One entry is written back, if its device has a super block. -/
def commitEntry (m : BlockMap) (e : Ometa) : Option ℕ → BlockMap
  | none => m
  | some sb => m.commit (bdev sb) e.lba e.length

/-- The entries of one transaction are written back. -/
def commitHanded (o : Olayer) (s : Stream) (m : BlockMap) (seg : Segment) : BlockMap :=
  seg.handed.foldl
    (fun m k => commitEntry bdev m (s.ometa k) (getSbByDevid o (s.ometa k).deviceId)) m

/-- The map after the write-back that an allocation of `nr` blocks may cause. -/
def mapAfterWrap (o : Olayer) (i nr : ℕ) (m : BlockMap) : BlockMap :=
  if needsWrap P i nr (o.stream i) then
    ((o.stream i).delimited P).foldl (commitHanded bdev o (o.stream i)) m
  else m

def IndexState.step (st : IndexState) : IndexOp P → Option IndexState
  | .alloc i bc b =>
      (journalWriteAlloc P bc st.o i b).map fun r =>
        { st with
          o := r.1
          map :=
            if horaeGetSecs b > P.nrJournalBlock then st.map
            else (mapAfterWrap P bdev st.o i (horaeGetSecs b) st.map).journal b.dev
              (horaeGetLba b) (horaeGetSecs b) r.2.2 }
  | .commit bc e sb txid =>
      some { st with
        o := (commitWriteEntryPerStream P bc st.o e sb txid).1
        map := commitEntry bdev st.map e sb }
  | .register nr param =>
      let r := olayerRegisterStreams P st.o st.freeStreamQ nr param
      some { st with o := r.1, freeStreamQ := r.2.1 }
  | .ring i s _ =>
      let old := st.o.stream i
      let new := { s with jWritePtr := old.jWritePtr, lastTxid := old.lastTxid }
      some { st with o := st.o.setStream i new }

/-- **The property.**  A lookup for a block of a registered device finds an entry exactly if
the block is journaled, and then its number and its journal address. -/
def IndexRefines (o : Olayer) (m : BlockMap) : Prop :=
  ∀ r ∈ o.registeredList, ∀ x < 2 ^ 32,
    (o.lookupIpu P x).map (fun e => (e.lba, e.plba)) = (m (bdev r.sb) x).map fun p => (x, p)

/-! ### The condition -/

/-- No other device than that of the entry is registered, its blocks have 32-bit numbers,
and `sb_getblk` has memory for their buffers. -/
structure EntrySafe (bc : BufferCache) (o : Olayer) (e : Ometa) (sb : ℕ) : Prop where
  only : ∀ r ∈ o.registeredList, bdev r.sb = bdev sb
  below : e.lba + e.length ≤ 2 ^ 32
  memory : ∀ x, e.lba ≤ x → x < e.lba + e.length → bc sb x ≠ .noMem

/-- The request goes to the only registered device, its blocks have 32-bit numbers, those
that are indexed have an older transaction id, and the entries that have to be written
back for it are safe. -/
structure AllocSafe (bc : BufferCache) (o : Olayer) (i : ℕ) (b : Bio) : Prop where
  only : ∃ r, o.registeredList = [r] ∧ bdev r.sb = b.dev
  below : horaeGetLba b + horaeGetSecs b ≤ 2 ^ 32
  newer : ∀ x, horaeGetLba b ≤ x → x < horaeGetLba b + horaeGetSecs b →
    ∀ e, o.lookupIpu P x = some e → e.txid < (o.stream i).lastTxid
  wrap : needsWrap P i (horaeGetSecs b) (o.stream i) = true →
    ∀ seg ∈ (o.stream i).delimited P, ∀ k ∈ seg.handed, ∀ sb,
      getSbByDevid o ((o.stream i).ometa k).deviceId = some sb →
        EntrySafe bdev bc o ((o.stream i).ometa k) sb

/-- What a step needs in the state it is taken in.  A registration needs a group size, and
while something is journaled the same one and no further device. -/
def IndexSafe (st : IndexState) : IndexOp P → Prop
  | .alloc i bc b => horaeGetSecs b ≤ P.nrJournalBlock → AllocSafe P bdev bc st.o i b
  | .commit bc e sb _ => ∀ s, sb = some s → EntrySafe bdev bc st.o e s
  | .register _ param =>
      param.pareaPartitionHint % 2 ^ 32 ≠ 0 ∧
        ((∀ d x, st.map d x = none) ∨
          param.pareaPartitionHint % 2 ^ 32 = st.o.blocksPerGroup ∧
            ∀ d ∈ param.devs, ∃ r ∈ st.o.registeredList, r.devId = d.devId)
  | .ring _ _ _ => True

/-! ### The key -/

variable {P} {bdev : ℕ → BlockDevice}

/-- Below `2 ^ 32` none of the 32-bit variables of the key overflows. -/
theorem ipuKey_eq {n x : ℕ} (hx : x < 2 ^ 32) :
    ipuKey P n x = (x / n % P.nrIpuTree, x / n / P.nrIpuTree * n + x % n) := by
  have hgroup : groupIdx x n = x / n :=
    Nat.mod_eq_of_lt ((Nat.div_le_self x n).trans_lt hx)
  have hle : x / n / P.nrIpuTree * n + x % n ≤ x :=
    calc x / n / P.nrIpuTree * n + x % n
        ≤ x / n * n + x % n :=
          Nat.add_le_add_right (Nat.mul_le_mul_right _ (Nat.div_le_self _ _)) _
      _ = x := Nat.div_add_mod' x n
  have hmul : x / n / P.nrIpuTree * n % 2 ^ 32 = x / n / P.nrIpuTree * n :=
    Nat.mod_eq_of_lt (by omega)
  unfold ipuKey treeIdx treeOff
  rw [hgroup, hmul, Nat.mod_eq_of_lt (b := 2 ^ 32) (by omega)]

/-- **Below `2 ^ 32` the key determines the block**, whatever the group size. -/
theorem ipuKey_inj {n x y : ℕ} (hn : 0 < n) (hx : x < 2 ^ 32) (hy : y < 2 ^ 32)
    (h : ipuKey P n x = ipuKey P n y) : x = y := by
  rw [ipuKey_eq hx, ipuKey_eq hy, Prod.mk.injEq] at h
  obtain ⟨htree, hoff⟩ := h
  have hdiv : x / n / P.nrIpuTree = y / n / P.nrIpuTree := by
    have := congrArg (· / n) hoff
    simpa [Nat.add_comm, Nat.add_mul_div_right _ _ hn, Nat.div_eq_of_lt (Nat.mod_lt _ hn)]
      using this
  have hmod : x % n = y % n := by
    rw [hdiv] at hoff
    exact Nat.add_left_cancel hoff
  have hgroup : x / n = y / n := by
    rw [← Nat.div_add_mod (x / n) P.nrIpuTree, ← Nat.div_add_mod (y / n) P.nrIpuTree, hdiv, htree]
  rw [← Nat.div_add_mod x n, ← Nat.div_add_mod y n, hgroup, hmod]

/-- **Index keys are injective.**  Below `2 ^ 32` no intermediate `u32` wraps, and different
blocks have different keys. -/
theorem index_keys_exact_and_injective (P : Params) {n : ℕ} (hn : 0 < n) :
    (∀ x < 2 ^ 32, ipuKey P n x = (x / n % P.nrIpuTree, x / n / P.nrIpuTree * n + x % n)) ∧
      ∀ x < 2 ^ 32, ∀ y < 2 ^ 32, x ≠ y → ipuKey P n x ≠ ipuKey P n y := by
  refine ⟨fun x hx => ipuKey_eq hx, fun x hx y hy hne hkey => ?_⟩
  exact hne (ipuKey_inj hn hx hy hkey)

/-- Four blocks per group, two trees. -/
theorem index_keys_tiny :
    0 < 4 ∧ ipuKey Params.tiny 4 13 = (1, 5) ∧ ipuKey Params.tiny 4 13 ≠ ipuKey Params.tiny 4 5 :=
  ⟨by decide, (index_keys_exact_and_injective Params.tiny (by decide)).1 13 (by decide),
    (index_keys_exact_and_injective Params.tiny (by decide)).2 13 (by decide) 5 (by decide)
      (by decide)⟩

/-! ### What the two loops do to the index -/

/-- The trees hold entries at most where `o` does and at the keys of the blocks `Q`. -/
def OnlyAt (P : Params) (Q : ℕ → Prop) (o o' : Olayer) : Prop :=
  ∀ t off, o'.ipuTree t off ≠ none →
    o.ipuTree t off ≠ none ∨ ∃ x, Q x ∧ ipuKey P o.blocksPerGroup x = (t, off)

theorem ipuTree_setIpu (o : Olayer) (lba t off : ℕ) (e : Option IpuEntry) :
    (o.setIpu P lba e).ipuTree t off
      = if ipuKey P o.blocksPerGroup lba = (t, off) then e else o.ipuTree t off := by
  unfold Olayer.setIpu
  dsimp only
  split_ifs with hkey
  · rw [hkey, Function.update_self, Function.update_self]
  · by_cases ht : t = (ipuKey P o.blocksPerGroup lba).1
    · have hoff : off ≠ (ipuKey P o.blocksPerGroup lba).2 :=
        fun hoff => hkey (Prod.ext ht.symm hoff.symm)
      rw [ht, Function.update_self, Function.update_of_ne hoff]
    · rw [Function.update_of_ne ht]

theorem onlyAt_setIpu (o : Olayer) {lba : ℕ} {Q : ℕ → Prop} (h : Q lba) (e : Option IpuEntry) :
    OnlyAt P Q o (o.setIpu P lba e) := by
  intro t off hne
  rw [ipuTree_setIpu] at hne
  split_ifs at hne with hkey
  · exact Or.inr ⟨lba, h, hkey⟩
  · exact Or.inl hne

theorem OnlyAt.trans {Q : ℕ → Prop} {o o₁ o₂ : Olayer} (h₁ : OnlyAt P Q o o₁)
    (h₂ : OnlyAt P Q o₁ o₂) (hn : o₁.blocksPerGroup = o.blocksPerGroup) : OnlyAt P Q o o₂ := by
  intro t off hne
  rcases h₂ t off hne with h | ⟨x, hx, hkey⟩
  · exact h₁ t off h
  · exact Or.inr ⟨x, hx, hn ▸ hkey⟩

theorem OnlyAt.mono {Q R : ℕ → Prop} {o o' : Olayer} (h : OnlyAt P Q o o') (hQR : ∀ x, Q x → R x) :
    OnlyAt P R o o' :=
  fun t off hne => (h t off hne).imp_right fun ⟨x, hx, hkey⟩ => ⟨x, hQR x hx, hkey⟩

/-- An update at a block with a 32-bit number is seen by that block only. -/
theorem lookupIpu_setIpu_of_lt {o : Olayer} (hn : 0 < o.blocksPerGroup) {lba x : ℕ}
    (hlba : lba < 2 ^ 32) (hx : x < 2 ^ 32) (e : Option IpuEntry) :
    (o.setIpu P lba e).lookupIpu P x = if x = lba then e else o.lookupIpu P x := by
  rw [lookupIpu_setIpu]
  by_cases h : x = lba
  · rw [h, if_pos rfl, if_pos rfl]
  · rw [if_neg h, if_neg fun hkey => h (ipuKey_inj hn hx hlba hkey)]

/-- A block that is not indexed under the same or a later transaction id gets its entry. -/
theorem indexBlocks_succ {txid n lba plba : ℕ} {o : Olayer}
    (hnewer : ∀ e, o.lookupIpu P lba = some e → e.txid < txid) :
    indexBlocks P txid (n + 1) lba plba o
      = indexBlocks P txid n (lba + 1) (plba + 1)
          (o.setIpu P lba (some ⟨lba % 2 ^ 32, plba % 2 ^ 32, txid⟩)) := by
  rw [indexBlocks]
  rcases e : o.lookupIpu P lba with - | ie
  · rfl
  · dsimp only
    rw [if_pos (hnewer ie e)]

/-- **Indexing.**  When no block of the write is indexed under the same or a later
transaction id, each of them gets the new address, and nothing else changes. -/
theorem lookupIpu_indexBlocks {txid n : ℕ} (lba plba : ℕ) {o : Olayer}
    (hn : 0 < o.blocksPerGroup) (hbelow : lba + n ≤ 2 ^ 32)
    (hnewer : ∀ x, lba ≤ x → x < lba + n → ∀ e, o.lookupIpu P x = some e → e.txid < txid) :
    (∀ x < 2 ^ 32, (indexBlocks P txid n lba plba o).lookupIpu P x
      = if lba ≤ x ∧ x < lba + n then some ⟨x, (plba + (x - lba)) % 2 ^ 32, txid⟩
        else o.lookupIpu P x) ∧
      OnlyAt P (fun x => lba ≤ x ∧ x < lba + n) o (indexBlocks P txid n lba plba o) := by
  induction n generalizing lba plba o with
  | zero =>
      refine ⟨fun x _ => ?_, fun t off hne => Or.inl hne⟩
      rw [if_neg (by omega)]
      rfl
  | succ n ih =>
      rw [indexBlocks_succ (hnewer lba le_rfl (by omega))]
      set new : IpuEntry := ⟨lba % 2 ^ 32, plba % 2 ^ 32, txid⟩ with hnew
      have hlook : ∀ x < 2 ^ 32, (o.setIpu P lba (some new)).lookupIpu P x
          = if x = lba then some new else o.lookupIpu P x :=
        fun x hx => lookupIpu_setIpu_of_lt hn (by omega) hx _
      obtain ⟨hrest, honly⟩ := ih (lba + 1) (plba + 1) (o := o.setIpu P lba (some new)) hn
        (by omega) fun x hlo hhi e he => by
          rw [hlook x (by omega), if_neg (by omega)] at he
          exact hnewer x (by omega) (by omega) e he
      refine ⟨fun x hx => ?_, ?_⟩
      · rw [hrest x hx, hlook x hx]
        by_cases hfirst : x = lba
        · subst hfirst
          rw [if_neg (by omega), if_pos rfl, if_pos (by omega), hnew, Nat.sub_self, Nat.add_zero,
            Nat.mod_eq_of_lt hx]
        · rw [if_neg hfirst]
          by_cases hin : lba + 1 ≤ x ∧ x < lba + 1 + n
          · rw [if_pos hin, if_pos (by omega),
              show plba + 1 + (x - (lba + 1)) = plba + (x - lba) by omega]
          · rw [if_neg hin, if_neg (by omega)]
      · exact (onlyAt_setIpu o ⟨le_rfl, by omega⟩ _).trans
          (honly.mono fun x hx => ⟨by omega, by omega⟩) rfl

/-- One block is taken out of the index, whatever becomes of its buffer, unless there is
no memory for that. -/
theorem commitWriteBlocks_succ {bc : BufferCache} {sb lba : ℕ} (txid n : ℕ) (o : Olayer)
    (hmem : bc sb lba ≠ .noMem) :
    ∃ io, (commitWriteBlocks P bc sb txid (n + 1) lba o).1
      = (commitWriteBlocks P bc sb txid n (lba + 1) { o.setIpu P lba none with io := io }).1 := by
  rw [commitWriteBlocks]
  rcases o.lookupIpu P lba with - | e
  · exact ⟨o.io, rfl⟩
  · dsimp only
    split_ifs
    · exact ⟨o.io, rfl⟩
    · rcases e : bc sb lba with - | - | -
      · exact absurd e hmem
      · exact ⟨o.io, rfl⟩
      · exact ⟨_, rfl⟩

/-- **Writing back.**  The blocks of the entry leave the index, and nothing else changes. -/
theorem lookupIpu_commitWriteBlocks {bc : BufferCache} {sb n : ℕ} (txid lba : ℕ) {o : Olayer}
    (hn : 0 < o.blocksPerGroup) (hbelow : lba + n ≤ 2 ^ 32)
    (hmem : ∀ x, lba ≤ x → x < lba + n → bc sb x ≠ .noMem) :
    (∀ x < 2 ^ 32, (commitWriteBlocks P bc sb txid n lba o).1.lookupIpu P x
      = if lba ≤ x ∧ x < lba + n then none else o.lookupIpu P x) ∧
      OnlyAt P (fun x => lba ≤ x ∧ x < lba + n) o (commitWriteBlocks P bc sb txid n lba o).1 := by
  induction n generalizing lba o with
  | zero =>
      refine ⟨fun x _ => ?_, fun t off hne => Or.inl hne⟩
      rw [if_neg (by omega)]
      rfl
  | succ n ih =>
      obtain ⟨io, heq⟩ := commitWriteBlocks_succ (P := P) txid n o (hmem lba le_rfl (by omega))
      have hlook : ∀ x < 2 ^ 32, ({ o.setIpu P lba none with io := io } : Olayer).lookupIpu P x
          = if x = lba then none else o.lookupIpu P x :=
        fun x hx => lookupIpu_setIpu_of_lt hn (by omega) hx none
      obtain ⟨hrest, honly⟩ := ih (lba + 1) (o := { o.setIpu P lba none with io := io }) hn
        (by omega) fun x hlo hhi => hmem x (by omega) (by omega)
      rw [heq]
      refine ⟨fun x hx => ?_, ?_⟩
      · rw [hrest x hx, hlook x hx]
        by_cases hfirst : x = lba
        · rw [if_pos hfirst, ite_self, if_pos (by omega)]
        · rw [if_neg hfirst]
          by_cases hin : lba + 1 ≤ x ∧ x < lba + 1 + n
          · rw [if_pos hin, if_pos (by omega)]
          · rw [if_neg hin, if_neg (by omega)]
      · have hset : OnlyAt P (fun x => lba ≤ x ∧ x < lba + (n + 1)) o
            { o.setIpu P lba none with io := io } := onlyAt_setIpu o ⟨le_rfl, by omega⟩ none
        exact hset.trans (honly.mono fun x hx => ⟨by omega, by omega⟩) rfl

/-! ### The invariant -/

/-- The index and the map agree: as soon as something is journaled there is one registered
device, which owns it; a lookup finds what the map has; and the trees hold nothing that
no lookup finds. -/
structure IndexContent (P : Params) (bdev : ℕ → BlockDevice) (o : Olayer) (m : BlockMap) :
    Prop where
  group_pos : 0 < o.blocksPerGroup
  below : ∀ d x, m d x ≠ none → x < 2 ^ 32
  only : ∀ d x, m d x ≠ none → ∃ r, o.registeredList = [r] ∧ bdev r.sb = d
  refines : IndexRefines P bdev o m
  trees : ∀ t off, o.ipuTree t off ≠ none →
    ∃ d x, m d x ≠ none ∧ ipuKey P o.blocksPerGroup x = (t, off)

namespace IndexContent

variable {o o' : Olayer} {m m' : BlockMap}

/-- Only the index, the group size and the registered devices matter. -/
theorem congr (h : IndexContent P bdev o m) (htree : o'.ipuTree = o.ipuTree)
    (hn : o'.blocksPerGroup = o.blocksPerGroup) (hreg : o'.registeredList = o.registeredList) :
    IndexContent P bdev o' m := by
  have hlook : o'.lookupIpu P = o.lookupIpu P := by
    unfold Olayer.lookupIpu
    rw [htree, hn]
  refine ⟨hn ▸ h.group_pos, h.below, hreg ▸ h.only, ?_, ?_⟩
  · unfold IndexRefines
    rw [hlook, hreg]
    exact h.refines
  · rw [htree, hn]
    exact h.trees

/-- What a lookup finds is journaled, on some device. -/
theorem journaled_of_lookup (h : IndexContent P bdev o m) {x : ℕ} (hx : x < 2 ^ 32)
    (hne : o.lookupIpu P x ≠ none) : ∃ d, m d x ≠ none := by
  obtain ⟨d, y, hy, hkey⟩ := h.trees _ _ hne
  obtain rfl := ipuKey_inj h.group_pos (h.below d y hy) hx hkey
  exact ⟨d, hy⟩

/-- Where entries appear at most at the keys of 32-bit block numbers, the trees are known
from the lookups. -/
theorem trees_of_onlyAt {Q : ℕ → Prop} (h : IndexContent P bdev o m) (hsame : SameQueues o o')
    (honly : OnlyAt P Q o o') (hQ : ∀ x, Q x → x < 2 ^ 32)
    (hlook : ∀ x < 2 ^ 32, o'.lookupIpu P x ≠ none → ∃ d, m' d x ≠ none) (t off : ℕ)
    (hne : o'.ipuTree t off ≠ none) :
    ∃ d x, m' d x ≠ none ∧ ipuKey P o'.blocksPerGroup x = (t, off) := by
  have hkey : ∃ x < 2 ^ 32, ipuKey P o.blocksPerGroup x = (t, off) := by
    rcases honly t off hne with hold | ⟨x, hx, hkey⟩
    · obtain ⟨d, x, hx, hkey⟩ := h.trees t off hold
      exact ⟨x, h.below d x hx, hkey⟩
    · exact ⟨x, hQ x hx, hkey⟩
  obtain ⟨x, hx, hkey⟩ := hkey
  rw [← hsame.blocksPerGroup] at hkey
  have hfound : o'.lookupIpu P x = o'.ipuTree t off := by rw [Olayer.lookupIpu, hkey]
  obtain ⟨d, hd⟩ := hlook x hx (hfound ▸ hne)
  exact ⟨d, x, hd, hkey⟩

/-- **`commit_write_entry_per_stream`** on the index and on the map. -/
theorem commitEntry {bc : BufferCache} {e : Ometa} {sb : Option ℕ} (h : IndexContent P bdev o m)
    (hsafe : ∀ s, sb = some s → EntrySafe bdev bc o e s) (txid : ℕ) :
    IndexContent P bdev (commitWriteEntryPerStream P bc o e sb txid).1
      (commitEntry bdev m e sb) := by
  rcases sb with - | sb
  · exact h
  show IndexContent P bdev (commitWriteBlocks P bc sb txid e.length e.lba o).1
    (m.commit (bdev sb) e.lba e.length)
  have hs := hsafe sb rfl
  obtain ⟨hlook, honly⟩ := lookupIpu_commitWriteBlocks txid e.lba h.group_pos hs.below hs.memory
  have hsame := sameQueues_commitWriteBlocks (P := P) bc sb txid e.length e.lba o
  have hle : ∀ d x, m.commit (bdev sb) e.lba e.length d x ≠ none → m d x ≠ none := by
    intro d x hne
    unfold BlockMap.commit at hne
    split_ifs at hne with hin
    · exact absurd rfl hne
    · exact hne
  refine ⟨?_, fun d x hne => h.below d x (hle d x hne), ?_, ?_, ?_⟩
  · exact hsame.blocksPerGroup ▸ h.group_pos
  · exact hsame.registeredList ▸ fun d x hne => h.only d x (hle d x hne)
  · intro r hr x hx
    rw [hsame.registeredList] at hr
    rw [hlook x hx, BlockMap.commit, hs.only r hr]
    by_cases hin : e.lba ≤ x ∧ x < e.lba + e.length
    · rw [if_pos hin, if_pos ⟨rfl, hin⟩]
      rfl
    · rw [if_neg hin, if_neg fun hc => hin hc.2, ← hs.only r hr]
      exact h.refines r hr x hx
  · refine h.trees_of_onlyAt hsame honly (fun x hx => by have := hs.below; omega) ?_
    intro x hx hne
    rw [hlook x hx] at hne
    split_ifs at hne with hin
    · exact absurd rfl hne
    · obtain ⟨d, hd⟩ := h.journaled_of_lookup hx hne
      exact ⟨d, by rwa [BlockMap.commit, if_neg fun hc => hin hc.2]⟩

/-- **Indexing a write** to the only registered device. -/
theorem journal {d : BlockDevice} {lba n plba txid : ℕ} (h : IndexContent P bdev o m)
    (honly : ∃ r, o.registeredList = [r] ∧ bdev r.sb = d) (hbelow : lba + n ≤ 2 ^ 32)
    (hplba : plba + n ≤ 2 ^ 32)
    (hnewer : ∀ x, lba ≤ x → x < lba + n → ∀ e, o.lookupIpu P x = some e → e.txid < txid) :
    IndexContent P bdev (indexBlocks P txid n lba plba o) (m.journal d lba n plba) := by
  obtain ⟨hlook, hkeys⟩ := lookupIpu_indexBlocks lba plba h.group_pos hbelow hnewer
  have hsame := sameQueues_indexBlocks (P := P) txid n lba plba o
  -- what is in the new map is a block of the write, or was there before
  have hcases : ∀ d' x, m.journal d lba n plba d' x ≠ none →
      (d' = d ∧ x < 2 ^ 32) ∨ m d' x ≠ none := by
    intro d' x hne
    unfold BlockMap.journal at hne
    split_ifs at hne with hin
    · exact Or.inl ⟨hin.1, by omega⟩
    · exact Or.inr hne
  refine ⟨hsame.blocksPerGroup ▸ h.group_pos, fun d' x hne => ?_, ?_, ?_, ?_⟩
  · rcases hcases d' x hne with ⟨-, hx⟩ | hold
    · exact hx
    · exact h.below d' x hold
  · rw [hsame.registeredList]
    intro d' x hne
    rcases hcases d' x hne with ⟨rfl, -⟩ | hold
    · exact honly
    · exact h.only d' x hold
  · intro r hr x hx
    obtain ⟨r', hlist, hdev⟩ := honly
    rw [hsame.registeredList] at hr
    have hr' : bdev r.sb = d := by
      rw [hlist, List.mem_singleton] at hr
      rw [hr, hdev]
    rw [hlook x hx, BlockMap.journal, hr']
    by_cases hin : lba ≤ x ∧ x < lba + n
    · rw [if_pos hin, if_pos ⟨rfl, hin⟩, Nat.mod_eq_of_lt (by omega)]
      rfl
    · rw [if_neg hin, if_neg fun hc => hin hc.2, ← hr']
      exact h.refines r hr x hx
  · refine h.trees_of_onlyAt hsame hkeys (fun x hx => by omega) ?_
    intro x hx hne
    rw [hlook x hx] at hne
    by_cases hin : lba ≤ x ∧ x < lba + n
    · refine ⟨d, ?_⟩
      rw [BlockMap.journal, if_pos ⟨rfl, hin⟩]
      exact Option.some_ne_none _
    · rw [if_neg hin] at hne
      obtain ⟨d', hd'⟩ := h.journaled_of_lookup hx hne
      exact ⟨d', by rwa [BlockMap.journal, if_neg fun hc => hin hc.2]⟩

end IndexContent

/-! ### The write-back of an allocation -/

/-- Some entries have been written back since `o`: the index agrees with the map, and what
it still has was there. -/
structure WrittenBack (P : Params) (bdev : ℕ → BlockDevice) (o o₁ : Olayer) (m₁ : BlockMap) :
    Prop where
  same : SameQueues o o₁
  content : IndexContent P bdev o₁ m₁
  older : ∀ x < 2 ^ 32, ∀ e, o₁.lookupIpu P x = some e → o.lookupIpu P x = some e

theorem EntrySafe.of_same {bc : BufferCache} {o o₁ : Olayer} {e : Ometa} {sb : ℕ}
    (h : EntrySafe bdev bc o e sb) (hsame : SameQueues o o₁) : EntrySafe bdev bc o₁ e sb :=
  ⟨hsame.registeredList ▸ h.only, h.below, h.memory⟩

theorem WrittenBack.entry {bc : BufferCache} {o o₁ : Olayer} {m₁ : BlockMap} {e : Ometa}
    {sb : Option ℕ} (h : WrittenBack P bdev o o₁ m₁)
    (hsafe : ∀ s, sb = some s → EntrySafe bdev bc o e s) (txid : ℕ) :
    WrittenBack P bdev o (commitWriteEntryPerStream P bc o₁ e sb txid).1
      (commitEntry bdev m₁ e sb) := by
  have hsafe₁ : ∀ s, sb = some s → EntrySafe bdev bc o₁ e s :=
    fun s hs => (hsafe s hs).of_same h.same
  refine ⟨h.same.trans (sameQueues_commitWriteEntryPerStream bc o₁ e sb txid),
    h.content.commitEntry hsafe₁ txid, fun x hx ie hie => ?_⟩
  rcases sb with - | sb
  · exact h.older x hx ie hie
  have hs := hsafe₁ sb rfl
  obtain ⟨hlook, -⟩ :=
    lookupIpu_commitWriteBlocks (P := P) txid e.lba h.content.group_pos hs.below hs.memory
  have hie' : (commitWriteBlocks P bc sb txid e.length e.lba o₁).1.lookupIpu P x = some ie := hie
  rw [hlook x hx] at hie'
  split_ifs at hie'
  exact h.older x hx ie hie'

/-- **`commit_write`** hands over entry by entry. -/
theorem writtenBack_commitWrite (bc : BufferCache) {o : Olayer} {m : BlockMap} {i : ℕ}
    (h : IndexContent P bdev o m) (hring : (o.stream i).InRing P)
    (hsafe : ∀ seg ∈ (o.stream i).delimited P, ∀ k ∈ seg.handed, ∀ sb,
      getSbByDevid o ((o.stream i).ometa k).deviceId = some sb →
        EntrySafe bdev bc o ((o.stream i).ometa k) sb) :
    ∃ o₁, commitWrite P bc o i = some o₁ ∧ WrittenBack P bdev o o₁
      (((o.stream i).delimited P).foldl (commitHanded bdev o (o.stream i)) m) := by
  refine ⟨_, by rw [commitWrite, commitWriteScan_eq hring.head_lt hring.flushed_lt,
    Option.map_some], ?_⟩
  have hinit : WrittenBack P bdev o o m := ⟨.refl o, h, fun _ _ _ he => he⟩
  refine List.foldl_rel (r := WrittenBack P bdev o) hinit fun seg hseg o₁ m₁ h₁ => ?_
  refine List.foldl_rel (r := WrittenBack P bdev o) h₁ fun k hk o₂ m₂ h₂ => ?_
  dsimp only
  rw [getSbByDevid_congr h₂.same]
  exact h₂.entry (hsafe seg hseg k hk) seg.txid

/-- Whether an accepted request wraps is decided as in the source. -/
theorem needsWrap_iff {i nr : ℕ} {s : Stream} (hnr : nr ≤ P.nrJournalBlock) :
    needsWrap P i nr s = true
      ↔ nr + s.jWritePtr > (P.offInJournal i + P.nrJournalBlock) % 2 ^ 32 := by
  rw [needsWrap, decide_eq_true_iff]
  exact ⟨fun h => h.2, fun h => ⟨hnr, h⟩⟩

/-- The critical section of an accepted allocation. -/
theorem writtenBack_allocSpace {bc : BufferCache} {o : Olayer} {m : BlockMap} {i nr : ℕ}
    (h : IndexContent P bdev o m) (hring : (o.stream i).InRing P) (hnr : nr ≤ P.nrJournalBlock)
    (hwrap : needsWrap P i nr (o.stream i) = true →
      ∀ seg ∈ (o.stream i).delimited P, ∀ k ∈ seg.handed, ∀ sb,
        getSbByDevid o ((o.stream i).ometa k).deviceId = some sb →
          EntrySafe bdev bc o ((o.stream i).ometa k) sb) :
    ∃ o', allocSpace P bc o i nr = some (o', ((o.stream i).allocRoom P i nr).jWritePtr) ∧
      o'.stream = Function.update o.stream i ((o.stream i).alloc P i nr) ∧
      o'.registeredList = o.registeredList ∧ IndexContent P bdev o' (mapAfterWrap P bdev o i nr m) ∧
      ∀ x < 2 ^ 32, ∀ e, o'.lookupIpu P x = some e → o.lookupIpu P x = some e := by
  obtain ⟨o', h', hof⟩ :=
    allocSpace_spec bc hring.head_lt hring.flushed_lt (Nat.not_lt.mpr hnr)
  refine ⟨o', h', hof.stream, ?_⟩
  unfold mapAfterWrap
  unfold allocSpace at h'
  by_cases hw : needsWrap P i nr (o.stream i) = true
  · obtain ⟨o₁, h₁, hback⟩ := writtenBack_commitWrite bc h hring (hwrap hw)
    have hj : journalWrap P bc o i = some (o₁.setStream i ((o₁.stream i).retire P i)) := by
      rw [journalWrap, h₁, Option.map_some]
    simp only [if_pos ((needsWrap_iff hnr).mp hw), hj, Option.map_some, Option.some.injEq,
      Prod.mk.injEq] at h'
    rw [if_pos hw, ← h'.1]
    exact ⟨hback.same.registeredList, hback.content.congr rfl rfl rfl, hback.older⟩
  · simp only [if_neg (mt (needsWrap_iff hnr).mpr hw), Option.map_some, Option.some.injEq,
      Prod.mk.injEq] at h'
    rw [if_neg hw, ← h'.1]
    exact ⟨rfl, h.congr rfl rfl rfl, fun _ _ _ he => he⟩

/-! ### Steps and runs -/

/-- Devices that are registered already do not change the list. -/
theorem registerDevs_eq_self {list devs : List RegisterdDev}
    (h : ∀ d ∈ devs, ∃ r ∈ list, r.devId = d.devId) : registerDevs list devs = list := by
  unfold registerDevs
  induction devs with
  | nil => rfl
  | cons d devs ih =>
      obtain ⟨r, hr, hid⟩ := h d List.mem_cons_self
      have hany : list.any (·.devId = d.devId) = true :=
        List.any_eq_true.mpr ⟨r, hr, decide_eq_true hid⟩
      rw [List.foldl_cons, if_pos hany]
      exact ih fun d' hd' => h d' (List.mem_cons_of_mem _ hd')

/-- An index about nothing agrees with the empty map under any key. -/
theorem IndexContent.of_empty {o o' : Olayer} {m : BlockMap} (h : IndexContent P bdev o m)
    (hm : ∀ d x, m d x = none) (htree : o'.ipuTree = o.ipuTree) (hn : 0 < o'.blocksPerGroup) :
    IndexContent P bdev o' m := by
  have hnone : ∀ t off, o'.ipuTree t off = none := by
    intro t off
    by_contra hne
    obtain ⟨d, x, hx, -⟩ := h.trees t off (htree ▸ hne)
    exact hx (hm d x)
  refine ⟨hn, fun d x hne => absurd (hm d x) hne, fun d x hne => absurd (hm d x) hne, ?_,
    fun t off hne => absurd (hnone t off) hne⟩
  intro r _ x _
  rw [Olayer.lookupIpu, hnone, hm]
  rfl

/-- **`olayer_register_streams`** on the index and on the map. -/
theorem IndexContent.register {o : Olayer} {m : BlockMap} {param : InitParam}
    (h : IndexContent P bdev o m) (hhint : param.pareaPartitionHint % 2 ^ 32 ≠ 0)
    (hcase : (∀ d x, m d x = none) ∨ param.pareaPartitionHint % 2 ^ 32 = o.blocksPerGroup ∧
      ∀ d ∈ param.devs, ∃ r ∈ o.registeredList, r.devId = d.devId) (q : List ℕ) (nr : ℕ) :
    IndexContent P bdev (olayerRegisterStreams P o q nr param).1 m := by
  rcases hcase with hm | ⟨hsize, hdevs⟩
  · exact h.of_empty hm rfl (Nat.pos_of_ne_zero hhint)
  · exact h.congr rfl hsize (registerDevs_eq_self hdevs)

structure IndexInv (P : Params) (bdev : ℕ → BlockDevice) (st : IndexState) : Prop where
  rings : ∀ i < P.nrStreams, (st.o.stream i).InRing P
  content : IndexContent P bdev st.o st.map

theorem IndexInv.rings_update {st : IndexState} (h : IndexInv P bdev st) {o' : Olayer} {i : ℕ}
    {s : Stream} (ho' : o'.stream = Function.update st.o.stream i s) (hs : s.InRing P) :
    ∀ j < P.nrStreams, (o'.stream j).InRing P := by
  rw [ho', Function.forall_update_iff st.o.stream fun j s => j < P.nrStreams → s.InRing P]
  exact ⟨fun _ => hs, fun j _ => h.rings j⟩

/-- **`journal_write_alloc`.**  The write-back of a wrap comes before the indexing. -/
theorem IndexInv.alloc {st : IndexState} (h : IndexInv P bdev st) (i : Fin P.nrStreams)
    (bc : BufferCache) (b : Bio)
    (hsafe : horaeGetSecs b ≤ P.nrJournalBlock → AllocSafe P bdev bc st.o i b) :
    ∃ st', st.step P bdev (.alloc i bc b) = some st' ∧ IndexInv P bdev st' := by
  have hring := h.rings i i.isLt
  unfold IndexState.step journalWriteAlloc
  by_cases hnr : horaeGetSecs b > P.nrJournalBlock
  · -- refused
    simp only [if_pos hnr, Option.map_some]
    exact ⟨_, rfl, h.rings, h.content⟩
  have hle := Nat.not_lt.mp hnr
  obtain ⟨honly, hbelow, hnewer, hwrap⟩ := hsafe hle
  obtain ⟨o', h', hstream, hreg, hcontent, hold⟩ :=
    writtenBack_allocSpace h.content hring hle hwrap
  have hend := (st.o.stream i).allocRoom_add_le i.isLt hle
  have hlt := P.offInJournal_add_lt i.isLt
  simp only [if_neg hnr, h', Option.map_some]
  generalize ((st.o.stream i).allocRoom P i (horaeGetSecs b)).jWritePtr = ptr at hend
  have hidx := sameQueues_indexBlocks (P := P) (o'.stream i).lastTxid (horaeGetSecs b)
    (horaeGetLba b) ptr o'
  have hlast : (o'.stream i).lastTxid = (st.o.stream i).lastTxid := by
    rw [hstream, Function.update_self, Stream.alloc_lastTxid]
  refine ⟨_, rfl, ?_, ?_⟩
  · exact h.rings_update (hidx.stream.trans hstream) (hring.alloc i _)
  · show IndexContent P bdev _
      ((mapAfterWrap P bdev st.o i (horaeGetSecs b) st.map).journal b.dev (horaeGetLba b)
        (horaeGetSecs b) (ptr % 2 ^ 32))
    rw [Nat.mod_eq_of_lt (show ptr < 2 ^ 32 by omega)]
    refine hcontent.journal (hreg ▸ honly) hbelow (by omega) fun x hlo hhi e he => ?_
    rw [hlast]
    exact hnewer x hlo hhi e (hold x (by omega) e he)

/-- **One safe step** returns and keeps the invariant. -/
theorem index_step {st : IndexState} (h : IndexInv P bdev st) (op : IndexOp P)
    (hsafe : IndexSafe P bdev st op) :
    ∃ st', st.step P bdev op = some st' ∧ IndexInv P bdev st' := by
  cases op with
  | alloc i bc b => exact h.alloc i bc b hsafe
  | commit bc e sb txid =>
      have hsame := sameQueues_commitWriteEntryPerStream (P := P) bc st.o e sb txid
      refine ⟨_, rfl, ?_, h.content.commitEntry hsafe txid⟩
      show ∀ j < P.nrStreams, ((commitWriteEntryPerStream P bc st.o e sb txid).1.stream j).InRing P
      rw [hsame.stream]
      exact h.rings
  | register nr param =>
      exact ⟨_, rfl, h.rings, h.content.register hsafe.1 hsafe.2 st.freeStreamQ nr⟩
  | ring i s hs =>
      refine ⟨_, rfl, h.rings_update rfl ?_, h.content.congr rfl rfl rfl⟩
      exact ⟨hs.head_lt, hs.tail_lt, hs.tailWatermark_lt, hs.flushed_lt⟩

/-- The module just loaded: all streams are free and nothing is journaled. -/
def IndexState.init (P : Params) (mem : ℕ → ℕ → Ometa) (lastTxid : ℕ → ℕ) (cmb : ℕ → Ometa) :
    IndexState :=
  ⟨initStreams P mem lastTxid cmb, List.range P.nrStreams, BlockMap.empty⟩

theorem indexInv_init (mem : ℕ → ℕ → Ometa) (lastTxid : ℕ → ℕ) (cmb : ℕ → Ometa) :
    IndexInv P bdev (IndexState.init P mem lastTxid cmb) where
  rings := fun _ _ => ⟨nrOmeta_pos, nrOmeta_pos, nrOmeta_pos, nrOmeta_pos⟩
  content :=
    { group_pos := Nat.one_pos
      below := fun _ _ hne => absurd rfl hne
      only := fun _ _ hne => absurd rfl hne
      refines := fun _ _ _ _ => rfl
      trees := fun _ _ hne => absurd rfl hne }

/-- **The index refines the map**, along every run of safe steps: allocations by any stream
with the write-back they cause, write-backs of single entries, registrations, and any use
of the rings in between. -/
theorem index_refines_map (P : Params) (bdev : ℕ → BlockDevice) (mem : ℕ → ℕ → Ometa)
    (lastTxid : ℕ → ℕ) (cmb : ℕ → Ometa) (ops : List (IndexOp P))
    (hsafe : Run.Along (IndexState.step P bdev) (IndexSafe P bdev)
      (IndexState.init P mem lastTxid cmb) ops) :
    ∃ st, Run.run (IndexState.step P bdev) (IndexState.init P mem lastTxid cmb) ops = some st ∧
      IndexRefines P bdev st.o st.map := by
  obtain ⟨st, hrun, hinv⟩ := Run.run_invariant (I := IndexInv P bdev)
    (fun st op h hs => index_step h op hs) (indexInv_init mem lastTxid cmb) hsafe
  exact ⟨st, hrun, hinv.content.refines⟩

/-! ### Runs on the small controller -/

/-- Super block 7 is that of a file system on `pages`' device, 8 that of another one. -/
def tinyBdev (sb : ℕ) : BlockDevice := if sb = 7 then ⟨0, 1⟩ else ⟨1, 1⟩

/-- The file systems with super blocks `sbs` are mounted, with groups of `hint` blocks. -/
def tinyRegister (sbs : List ℕ) (hint : ℕ) : IndexOp Params.tiny :=
  .register 1 ⟨sbs.map fun sb => ⟨⟨259, sb⟩, sb⟩, hint⟩

/-- Stream `i` journals `n` blocks at `lba`. -/
def tinyJournal (i : Fin 64) (lba n : ℕ) : IndexOp Params.tiny :=
  .alloc i (fun _ _ => .unlocked) (pages lba n)

/-- The small controller with `last_txid` of stream `i` equal to `i`. -/
def tinyIndex : IndexState :=
  IndexState.init Params.tiny (fun _ _ => Ometa.zero) id fun _ => Ometa.zero

/-- What a lookup for block 10 finds, and what the map has for block 10 of `d`. -/
def tinyLookup (ops : List (IndexOp Params.tiny)) (d : BlockDevice) :
    Option (Option ℕ × Option ℕ) :=
  (Run.run (IndexState.step Params.tiny tinyBdev) tinyIndex ops).map fun st =>
    ((st.o.lookupIpu Params.tiny 10).map (·.plba), st.map d 10)

/-- A block journaled twice by one stream is found at its first copy; a block journaled on
one device is found for another; and after a mount with another group size a journaled
block is not found. -/
theorem rewritten_block_found_at_first_copy :
    tinyLookup [tinyRegister [7] 4, tinyJournal 0 10 1, tinyJournal 0 10 1] (tinyBdev 7)
        = some (some 0, some 1) ∧
      tinyLookup [tinyRegister [7, 8] 4, tinyJournal 0 10 1] (tinyBdev 8)
        = some (some 0, none) ∧
      tinyLookup [tinyRegister [7] 4, tinyJournal 0 10 1, tinyRegister [7] 8] (tinyBdev 7)
        = some (none, some 0) := by
  decide +kernel

/-- Two streams journal a block one after the other, it is written back, and journaled
again. -/
def tinyRewrite : List (IndexOp Params.tiny) :=
  [tinyRegister [7] 4, tinyJournal 0 10 2, tinyJournal 1 10 1,
    .commit (fun _ _ => .unlocked) { Ometa.zero with lba := 10, length := 2 } (some 7) 1,
    tinyJournal 0 11 1]

theorem index_refines_map_tinyRewrite :
    ∃ st, Run.run (IndexState.step Params.tiny tinyBdev) tinyIndex tinyRewrite = some st ∧
      IndexRefines Params.tiny tinyBdev st.o st.map := by
  refine index_refines_map Params.tiny tinyBdev _ _ _ tinyRewrite
    ⟨⟨by decide, Or.inl fun _ _ => rfl⟩, fun st₁ h₁ => ?_⟩
  obtain rfl := Option.some.inj h₁
  refine ⟨fun _ => ⟨⟨_, rfl, rfl⟩, by decide, by decide +kernel,
    fun hwrap => absurd hwrap (by decide +kernel)⟩, ?_⟩
  intro st₂ h₂
  obtain rfl := Option.some.inj h₂
  refine ⟨fun _ => ⟨⟨_, rfl, rfl⟩, by decide, by decide +kernel,
    fun hwrap => absurd hwrap (by decide +kernel)⟩, ?_⟩
  intro st₃ h₃
  obtain rfl := Option.some.inj h₃
  refine ⟨?_, fun st₄ h₄ => ?_⟩
  · intro sb hsb
    obtain rfl := Option.some.inj hsb
    exact ⟨by decide +kernel, by decide, fun _ _ _ => nofun⟩
  obtain rfl := Option.some.inj h₄
  exact ⟨fun _ => ⟨⟨_, rfl, rfl⟩, by decide, by decide +kernel,
    fun hwrap => absurd hwrap (by decide +kernel)⟩,
    fun _ _ => trivial⟩

end CcNvme

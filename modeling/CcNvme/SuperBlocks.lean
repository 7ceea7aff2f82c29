/-
CcNvme/SuperBlocks.lean

How write-back finds the file system of a queue entry.  An entry records eight bits of
the minor number of its disk; `get_sb_by_devid` looks for the first registered device
with that minor number.  The list of registered devices has one node per disk: a second
file system on a disk adds none, and the unmount of either removes it.

`super_block_found_iff`: along a run of mounts and unmounts every mounted file system is
found under the ids in its entries exactly when each mount is of a disk whose minor number
fits eight bits and is not that of a disk mounted at the time.
-/
import CcNvme.Leasing

namespace CcNvme

/-! ### Mounts and unmounts -/

/-- A mounted file system: its super block, and what `ext4_fill_super` has set up. -/
structure MountedFs where
  sb : ℕ
  mount : Mount

structure Mounts where
  o : Olayer
  freeStreamQ : List ℕ
  mounted : List MountedFs

inductive MountOp where
  /-- `ext4_fill_super` -/
  | mount (a : MountArgs)
  /-- `olayer_unregister_streams` in `ext4_put_super` of the `k`-th file system -/
  | unmount (k : ℕ)

/-- The super block is a new one. -/
def Mounts.isNew (st : Mounts) (sb : ℕ) : Bool := st.mounted.all (·.sb ≠ sb)

def Mounts.step (P : Params) (st : Mounts) : MountOp → Option Mounts
  | .mount a =>
      if st.isNew a.dev.sb then
        let r := ext4FillSuper P st.o st.freeStreamQ a
        some ⟨r.1, r.2.1, ⟨a.dev.sb, r.2.2⟩ :: st.mounted⟩
      else none
  | .unmount k =>
      (st.mounted[k]?).map fun f =>
        let r := olayerUnregisterStreams P st.o st.freeStreamQ f.mount.nrStreams f.mount.streams
          [f.mount.dev]
        ⟨r.1, r.2, st.mounted.eraseIdx k⟩

/-- The module just loaded. -/
def Mounts.init (P : Params) (mem : ℕ → ℕ → Ometa) (lastTxid : ℕ → ℕ) (cmb : ℕ → Ometa) : Mounts :=
  ⟨initStreams P mem lastTxid cmb, List.range P.nrStreams, []⟩

/-- **The property.**  For the id in an entry of a mounted file system, `get_sb_by_devid`
returns the super block of that file system. -/
def SbFound (st : Mounts) : Prop :=
  ∀ f ∈ st.mounted, ∀ old committed (a : SubmitArgs), a.deviceId = f.mount.dev.minor →
    getSbByDevid st.o (fillOmeta old committed a).deviceId = some f.sb

/-- The step leaves every mounted file system in reach of write-back. -/
def KeepsSbFound (P : Params) (st : Mounts) (op : MountOp) : Prop :=
  ∀ st', st.step P op = some st' → SbFound st'

/-- The minor number of a disk that is mounted fits the field of an entry, and no disk
mounted at the time has it. -/
def MinorFree (st : Mounts) : MountOp → Prop
  | .mount a => st.isNew a.dev.sb = true → a.dev.devId.minor < 2 ^ 8 ∧
      ∀ f ∈ st.mounted, f.mount.dev.minor ≠ a.dev.devId.minor
  | .unmount _ => True

/-! ### The list of registered devices -/

/-- The node of a mounted file system. -/
def MountedFs.node (f : MountedFs) : RegisterdDev := ⟨f.mount.dev, f.sb⟩

/-- The list has one node per file system, and minor numbers tell them apart. -/
structure MountsInv (st : Mounts) : Prop where
  list_eq : st.o.registeredList = st.mounted.map MountedFs.node
  minors : (st.mounted.map (·.mount.dev.minor)).Nodup
  fits : ∀ f ∈ st.mounted, f.mount.dev.minor < 2 ^ 8

variable {P : Params} {st : Mounts}

theorem find?_of_nodup_key {α κ : Type*} [DecidableEq κ] {key : α → κ} {xs : List α}
    (h : (xs.map key).Nodup) {x : α} (hx : x ∈ xs) :
    xs.find? (fun y => key y = key x) = some x := by
  induction xs with
  | nil => cases hx
  | cons y ys ih =>
      rw [List.map_cons, List.nodup_cons] at h
      rcases List.mem_cons.mp hx with rfl | hx
      · rw [List.find?_cons_of_pos (by simp)]
      · have hne : key y ≠ key x := fun he => h.1 (he ▸ List.mem_map_of_mem hx)
        rw [List.find?_cons_of_neg (by simpa using hne)]
        exact ih h.2 hx

theorem eraseP_of_nodup_key {α κ : Type*} [DecidableEq κ] {key : α → κ} {xs : List α}
    (h : (xs.map key).Nodup) {k : ℕ} {x : α} (hk : xs[k]? = some x) :
    xs.eraseP (fun y => key y = key x) = xs.eraseIdx k := by
  induction xs generalizing k with
  | nil => cases hk
  | cons y ys ih =>
      rw [List.map_cons, List.nodup_cons] at h
      rcases k with - | k
      · obtain rfl := Option.some.inj hk
        rw [List.eraseP_cons_of_pos (by simp), List.eraseIdx_cons_zero]
      · rw [List.getElem?_cons_succ] at hk
        have hne : key y ≠ key x := fun he =>
          h.1 (he ▸ List.mem_map_of_mem (List.mem_of_getElem? hk))
        rw [List.eraseP_cons_of_neg (by simpa using hne), List.eraseIdx_cons_succ, ih h.2 hk]

/-- `get_sb_by_devid` on the list. -/
theorem getSbByDevid_eq {st : Mounts} (h : st.o.registeredList = st.mounted.map MountedFs.node)
    (id : ℕ) :
    getSbByDevid st.o id = (st.mounted.find? fun f => f.mount.dev.minor = id).map (·.sb) := by
  rw [getSbByDevid, h, List.find?_map, Option.map_map]
  rfl

theorem MountsInv.sbFound (h : MountsInv st) : SbFound st := by
  intro f hf old committed a ha
  have hid : (fillOmeta old committed a).deviceId = f.mount.dev.minor := by
    show a.deviceId % 2 ^ 8 = _
    rw [ha, Nat.mod_eq_of_lt (h.fits f hf)]
  rw [hid, getSbByDevid_eq h.list_eq, find?_of_nodup_key h.minors hf, Option.map_some]

/-- The registered devices after a mount. -/
theorem mount_list (a : MountArgs) :
    (ext4FillSuper P st.o st.freeStreamQ a).1.registeredList
      = if st.o.registeredList.any (·.devId = a.dev.devId) then st.o.registeredList
        else a.dev :: st.o.registeredList := rfl

/-- The registered devices after an unmount. -/
theorem unmount_list (f : MountedFs) :
    (olayerUnregisterStreams P st.o st.freeStreamQ f.mount.nrStreams f.mount.streams
        [f.mount.dev]).1.registeredList
      = st.o.registeredList.eraseP (·.devId = f.mount.dev) := by
  have hreset : ∀ (xs : List ℕ) (o : Olayer),
      (xs.foldl (olayerResetStream P) o).registeredList = o.registeredList := by
    intro xs
    induction xs with
    | nil => exact fun _ => rfl
    | cons x xs ih => exact fun o => ih (olayerResetStream P o x)
  exact hreset _ _

theorem mem_of_getSbByDevid {o : Olayer} {id sb : ℕ} (h : getSbByDevid o id = some sb) :
    ∃ d ∈ o.registeredList, d.devId.minor = id ∧ d.sb = sb := by
  obtain ⟨d, hd, rfl⟩ := Option.map_eq_some_iff.mp h
  exact ⟨d, List.mem_of_find?_eq_some hd, by simpa using List.find?_some hd, rfl⟩

namespace MountsInv

/-- No node has the super block of a file system that is not mounted. -/
theorem sb_ne (h : MountsInv st) {sb : ℕ} (hnew : st.isNew sb = true) {d : RegisterdDev}
    (hd : d ∈ st.o.registeredList) : d.sb ≠ sb := by
  rw [h.list_eq] at hd
  obtain ⟨f, hf, rfl⟩ := List.mem_map.mp hd
  exact of_decide_eq_true (List.all_eq_true.mp hnew f hf)

/-- **A mount** of a disk whose minor number is free. -/
theorem mount (h : MountsInv st) {a : MountArgs} (hfits : a.dev.devId.minor < 2 ^ 8)
    (hfree : ∀ f ∈ st.mounted, f.mount.dev.minor ≠ a.dev.devId.minor) :
    MountsInv
      ⟨(ext4FillSuper P st.o st.freeStreamQ a).1, (ext4FillSuper P st.o st.freeStreamQ a).2.1,
        ⟨a.dev.sb, (ext4FillSuper P st.o st.freeStreamQ a).2.2⟩ :: st.mounted⟩ where
  list_eq := by
    have hnone : ¬ st.o.registeredList.any (·.devId = a.dev.devId) = true := by
      rw [h.list_eq, List.any_map, List.any_eq_true]
      rintro ⟨f, hf, he⟩
      exact hfree f hf (congrArg DevT.minor (of_decide_eq_true he))
    rw [mount_list, if_neg hnone, h.list_eq]
    rfl
  minors := by
    refine List.nodup_cons.mpr ⟨fun hmem => ?_, h.minors⟩
    obtain ⟨f, hf, he⟩ := List.mem_map.mp hmem
    exact hfree f hf he
  fits := List.forall_mem_cons.mpr ⟨hfits, h.fits⟩

/-- **An unmount** takes away the node of its own file system. -/
theorem unmount (h : MountsInv st) {k : ℕ} {f : MountedFs} (hk : st.mounted[k]? = some f) :
    MountsInv
      ⟨(olayerUnregisterStreams P st.o st.freeStreamQ f.mount.nrStreams f.mount.streams
          [f.mount.dev]).1,
        (olayerUnregisterStreams P st.o st.freeStreamQ f.mount.nrStreams f.mount.streams
          [f.mount.dev]).2, st.mounted.eraseIdx k⟩ where
  list_eq := by
    have hnodup : ((st.mounted.map MountedFs.node).map (·.devId)).Nodup := by
      refine List.Nodup.of_map DevT.minor ?_
      rw [List.map_map, List.map_map]
      exact h.minors
    have hnode : (st.mounted.map MountedFs.node)[k]? = some f.node := by
      rw [List.getElem?_map, hk, Option.map_some]
    rw [unmount_list, h.list_eq, ← List.eraseIdx_map, ← eraseP_of_nodup_key hnodup hnode]
    rfl
  minors := h.minors.sublist ((List.eraseIdx_sublist _ k).map _)
  fits := fun g hg => h.fits g (List.mem_of_mem_eraseIdx hg)

/-- Mounting a disk whose minor number is taken, or does not fit, puts a file system out of
reach: the new one, or the one whose number it is. -/
theorem minorFree (h : MountsInv st) {a : MountArgs} (hnew : st.isNew a.dev.sb = true)
    (hfound : SbFound
      ⟨(ext4FillSuper P st.o st.freeStreamQ a).1, (ext4FillSuper P st.o st.freeStreamQ a).2.1,
        ⟨a.dev.sb, (ext4FillSuper P st.o st.freeStreamQ a).2.2⟩ :: st.mounted⟩) :
    a.dev.devId.minor < 2 ^ 8 ∧ ∀ f ∈ st.mounted, f.mount.dev.minor ≠ a.dev.devId.minor := by
  have hlist := @mount_list P st a
  -- the node found for the new file system is its own
  obtain ⟨d, hd, hminor, hsb⟩ := mem_of_getSbByDevid
    (hfound _ List.mem_cons_self Ometa.zero false ⟨0, 0, a.dev.devId.minor, 0, .tx⟩ rfl)
  rw [hlist] at hd
  split_ifs at hd with hany
  · exact absurd hsb (h.sb_ne hnew hd)
  rcases List.mem_cons.mp hd with rfl | hd
  swap
  · exact absurd hsb (h.sb_ne hnew hd)
  have hfits : a.dev.devId.minor < 2 ^ 8 := hminor ▸ Nat.mod_lt _ (by decide)
  refine ⟨hfits, fun f hf he => ?_⟩
  -- its node stands before that of `f`
  have hother := hfound f (List.mem_cons_of_mem _ hf) Ometa.zero false
    ⟨0, 0, f.mount.dev.minor, 0, .tx⟩ rfl
  have hid : f.mount.dev.minor % 2 ^ 8 = a.dev.devId.minor := by
    rw [he, Nat.mod_eq_of_lt hfits]
  have hfirst : getSbByDevid (ext4FillSuper P st.o st.freeStreamQ a).1 (f.mount.dev.minor % 2 ^ 8)
      = some a.dev.sb := by
    rw [getSbByDevid, hlist, if_neg hany, hid, List.find?_cons_of_pos (by simp), Option.map_some]
  have hsame : a.dev.sb = f.sb := Option.some.inj (hfirst.symm.trans hother)
  refine h.sb_ne hnew (d := f.node) ?_ hsame.symm
  rw [h.list_eq]
  exact List.mem_map_of_mem hf

end MountsInv

/-- **One step** leaves every file system in reach exactly when the minor number is free. -/
theorem minorFree_iff (h : MountsInv st) (op : MountOp) :
    MinorFree st op ↔ KeepsSbFound P st op := by
  cases op with
  | mount a =>
      constructor
      · intro hfree st' hstep
        rw [Mounts.step] at hstep
        split_ifs at hstep with hnew
        obtain rfl := Option.some.inj hstep
        exact (h.mount (hfree hnew).1 (hfree hnew).2).sbFound
      · intro hkeeps hnew
        exact h.minorFree (P := P) hnew (hkeeps _ (if_pos hnew))
  | unmount k =>
      refine ⟨fun _ st' hstep => ?_, fun _ => trivial⟩
      obtain ⟨f, hk, rfl⟩ := Option.map_eq_some_iff.mp hstep
      exact (h.unmount hk).sbFound

theorem mounts_step {st' : Mounts} {op : MountOp} (h : MountsInv st) (hfree : MinorFree st op)
    (hstep : st.step P op = some st') : MountsInv st' := by
  cases op with
  | mount a =>
      rw [Mounts.step] at hstep
      split_ifs at hstep with hnew
      obtain rfl := Option.some.inj hstep
      exact h.mount (hfree hnew).1 (hfree hnew).2
  | unmount k =>
      obtain ⟨f, hk, rfl⟩ := Option.map_eq_some_iff.mp hstep
      exact h.unmount hk

/-- **A mounted file system can be written back**, after every step of a run of mounts and
unmounts, exactly when every mount is of a disk whose minor number is free. -/
theorem super_block_found_iff (P : Params) (mem : ℕ → ℕ → Ometa) (lastTxid : ℕ → ℕ)
    (cmb : ℕ → Ometa) (ops : List MountOp) :
    Run.Along (Mounts.step P) (KeepsSbFound P) (Mounts.init P mem lastTxid cmb) ops ↔
      Run.Along (Mounts.step P) MinorFree (Mounts.init P mem lastTxid cmb) ops := by
  have hinit : MountsInv (Mounts.init P mem lastTxid cmb) :=
    ⟨rfl, List.nodup_nil, fun _ hf => nomatch hf⟩
  exact (Run.along_iff (fun _ op h => minorFree_iff h op)
    (fun _ _ _ h hfree hstep => mounts_step h hfree hstep) hinit ops).symm

/-- A mount of the file system with super block `sb` on a disk, for two streams. -/
def tinyMountOn (dev : DevT) (sb : ℕ) : MountOp := .mount { tinyMount 2 with dev := ⟨dev, sb⟩ }

def tinyMounts : Mounts :=
  Mounts.init Params.tiny (fun _ _ => Ometa.zero) (fun _ => 0) fun _ => Ometa.zero

/-- What `get_sb_by_devid` returns for the ids in the entries of each mounted file system. -/
def Mounts.lookups (st : Mounts) : List (ℕ × Option ℕ) :=
  st.mounted.map fun f => (f.sb, getSbByDevid st.o (f.mount.dev.minor % 2 ^ 8))

/-- With two partitions of one disk mounted, the entries of the second go through the first,
and once that is unmounted they are dropped; disks with minor number 0 of two majors get
mixed up; and a disk with minor number 256 is not found. -/
theorem partitions_share_node :
    (∃ st, Run.run (Mounts.step Params.tiny) tinyMounts
        [tinyMountOn ⟨259, 0⟩ 7, tinyMountOn ⟨259, 0⟩ 8] = some st ∧
      st.lookups = [(8, some 7), (7, some 7)]) ∧
    (∃ st, Run.run (Mounts.step Params.tiny) tinyMounts
        [tinyMountOn ⟨259, 0⟩ 7, tinyMountOn ⟨259, 0⟩ 8, .unmount 1] = some st ∧
      st.lookups = [(8, none)]) ∧
    (∃ st, Run.run (Mounts.step Params.tiny) tinyMounts
        [tinyMountOn ⟨259, 0⟩ 7, tinyMountOn ⟨8, 0⟩ 8] = some st ∧
      st.lookups = [(8, some 8), (7, some 8)]) ∧
    ∃ st, Run.run (Mounts.step Params.tiny) tinyMounts [tinyMountOn ⟨259, 256⟩ 7] = some st ∧
      st.lookups = [(7, none)] := by
  decide +kernel

instance (st : Mounts) : (op : MountOp) → Decidable (MinorFree st op)
  | .mount a => inferInstanceAs (Decidable (st.isNew a.dev.sb = true → a.dev.devId.minor < 2 ^ 8 ∧
      ∀ f ∈ st.mounted, f.mount.dev.minor ≠ a.dev.devId.minor))
  | .unmount _ => isTrue trivial

/-- Two disks, one of which is mounted again after an unmount. -/
def twoDisks : List MountOp :=
  [tinyMountOn ⟨259, 0⟩ 7, tinyMountOn ⟨259, 1⟩ 8, .unmount 1, tinyMountOn ⟨8, 0⟩ 9]

theorem super_block_found_iff_twoDisks :
    (∃ st, Run.run (Mounts.step Params.tiny) tinyMounts twoDisks = some st ∧
      st.lookups = [(9, some 9), (8, some 8)]) ∧
      Run.Along (Mounts.step Params.tiny) (KeepsSbFound Params.tiny) tinyMounts twoDisks :=
  ⟨by decide +kernel, (super_block_found_iff Params.tiny _ _ _ twoDisks).mpr (by decide +kernel)⟩

end CcNvme

/-
CcNvme/ExtentStatus/Model.lean

The extent status tree of an inode (`mqfs/extents_status.c`): a cache of what is known about the
blocks of a file, kept as extents in a red-black tree.

The tree is any binary tree.  The functions of `lib/rbtree.c` that rebalance it are a parameter
(`Balancer`), of which only the order of the nodes is known.  A node has an address, and
`cache_es` is the address of one; a function that follows a pointer to a node that was freed, or
that hits a `BUG_ON`, gives `none`.

An allocation fails when the caller says so.  `__es_shrink` then frees extents of other inodes,
and of this one if that gave nothing; what the other inodes gave is an argument as well
(`Others`), one for every allocation that fails.

* `Tree`: the nodes of a tree in order, and what searching, replacing and erasing do to them.
* `Insert`, `Remove`: the list of extents after these is that of `Lib/IntervalMap`.
* `Cache`: every run of the operations on an inode.
-/
import CcNvme.Lib.SearchTree
import CcNvme.ExtentStatus.Extent

namespace CcNvme.ExtentStatus

open SearchTree

/-- An `extent_status` in the tree. -/
structure Node where
  addr : ℕ
  es : Extent
  deriving DecidableEq, Repr

/-- The node with other fields. -/
def Node.withEs (n : Node) (es : Extent) : Node := { n with es := es }

@[simp] theorem Node.withEs_addr (n : Node) (es : Extent) : (n.withEs es).addr = n.addr := rfl

@[simp] theorem Node.withEs_es (n : Node) (es : Extent) : (n.withEs es).es = es := rfl

/-- `struct ext4_es_tree` and the fields of `struct ext4_inode_info` that belong to it.
`listed`: the inode is on `s_es_list`; `fresh` is the next address. -/
structure Inode where
  root : BinaryTree Node
  cache : Option ℕ
  allNr : ℕ
  shkNr : ℕ
  listed : Bool
  shrinkLblk : ℕ
  fresh : ℕ
  deriving DecidableEq, Repr

/-- What `__es_shrink` has got from other inodes, and how much of `nr_to_scan` it has left. -/
structure Others where
  shrunk : ℕ
  left : ℕ
  deriving DecidableEq, Repr

inductive Ret where
  | ok
  /-- `-ENOMEM` -/
  | nomem
  deriving DecidableEq, Repr

def isAt (addr : ℕ) (n : Node) : Bool := decide (n.addr = addr)

namespace Inode

variable (i : Inode)

/-- The nodes in order. -/
def nodes : List Node := inorder i.root

/-- What a pointer points to. -/
def nodeAt (addr : ℕ) : Option Node := i.nodes.find? (isAt addr)

/-- The fields of a node are changed. -/
def put (n : Node) : Inode :=
  { i with root := i.root.map fun m => if m.addr = n.addr then n else m }

/-- The counters in `ext4_es_alloc_extent`, with `ext4_es_list_add`. -/
def countNew (es : Extent) : Inode :=
  if es.isDelayed then { i with allNr := i.allNr + 1 }
  else
    { i with
      allNr := i.allNr + 1
      shkNr := i.shkNr + 1
      listed := i.listed || decide (i.shkNr = 0) }

/-- `ext4_es_free_extent`, with `ext4_es_list_del`. -/
def freeExtent (es : Extent) : Option Inode :=
  if es.isDelayed then some { i with allNr := i.allNr - 1 }
  else if i.shkNr = 0 then none
  else
    some
      { i with
        allNr := i.allNr - 1
        shkNr := i.shkNr - 1
        listed := i.listed && !decide (i.shkNr - 1 = 0) }

end Inode

/-! ### Searching -/

/-- Where a block lies, seen from a node. -/
def side (lblk : ℕ) (n : Node) : Turn :=
  if lblk < n.es.lblk then .left else if n.es.last < lblk then .right else .stop

/-- The first extent that does not end before the block. -/
def firstFrom (root : BinaryTree Node) (lblk : ℕ) : Option Node :=
  match last (side lblk) root none with
  | none => none
  | some n => if n.es.last < lblk then next (isAt n.addr) (inorder root) else some n

/-- A way down the tree, to `r`.  For the extents on it that do not begin behind the block,
`ext4_es_end` is called. -/
def descend {β : Type} (turn : Node → Turn) (lblk : ℕ) (root : BinaryTree Node) (r : β) :
    Option β :=
  if (path turn root).any fun n => decide (n.es.lblk ≤ lblk) && n.es.wraps then none else some r

/-- `__es_tree_search` -/
def treeSearch (root : BinaryTree Node) (lblk : ℕ) : Option (Option Node) :=
  descend (side lblk) lblk root (firstFrom root lblk)

/-- A search is only made if the block is not in `cache_es`. -/
def orSearch (cached : Option Node) (search : Option (Option Node)) : Option (Option Node) :=
  match cached with
  | none => search
  | some n => some (some n)

/-- `in_range` -/
def inRange (b first len : ℕ) : Bool := decide (first ≤ b) && decide (b ≤ first + len - 1)

section Operations

variable (rb : Balancer Node)

/-- `rb_erase` and `ext4_es_free_extent` -/
def Inode.eraseNode (i : Inode) (n : Node) : Option Inode :=
  Inode.freeExtent { i with root := rb.erase (isAt n.addr) i.root } n.es

/-! ### `__es_insert_extent` -/

/-- `es1->es_len += es->es_len`, with the referenced bit of `es`. -/
def absorb (es₁ es : Extent) : Extent :=
  let es₂ := { es₁ with len := es₁.len + es.len }
  if es.isReferenced then es₂.setReferenced else es₂

/-- `ext4_es_try_to_merge_left` -/
def tryToMergeLeft (i : Inode) (n : Node) : Option (Node × Inode) :=
  match prev (isAt n.addr) i.nodes with
  | none => some (n, i)
  | some p =>
      if canBeMerged p.es n.es then
        let p₁ := p.withEs (absorb p.es n.es)
        ((i.put p₁).eraseNode rb n).map fun j => (p₁, j)
      else some (n, i)

/-- `ext4_es_try_to_merge_right` -/
def tryToMergeRight (i : Inode) (n : Node) : Option (Node × Inode) :=
  match next (isAt n.addr) i.nodes with
  | none => some (n, i)
  | some p =>
      if canBeMerged n.es p.es then
        let n₁ := n.withEs (absorb n.es p.es)
        ((i.put n₁).eraseNode rb p).map fun j => (n₁, j)
      else some (n, i)

/-- What the loop of `__es_insert_extent` does at a node; it stops at one with which the new
extent can be merged, or which it overlaps. -/
def insertTurn (newes : Extent) (n : Node) : Turn :=
  if newes.lblk < n.es.lblk then
    if canBeMerged newes n.es then .stop else .left
  else if n.es.last < newes.lblk then
    if canBeMerged n.es newes then .stop else .right
  else .stop

/-- The extent grows to the left. -/
def growLeft (newes es : Extent) : Extent :=
  let es₁ := { es with lblk := newes.lblk, len := es.len + newes.len }
  if es₁.mapped then es₁.storePblock newes.pblk else es₁

/-- `__es_insert_extent`; `alloc`: the allocation succeeds, if there is one. -/
def insertExtent (i : Inode) (newes : Extent) (alloc : Bool) : Option (Ret × Inode) :=
  (descend (insertTurn newes) newes.lblk i.root (find (insertTurn newes) i.root)).bind fun
    | some n =>
        if newes.lblk < n.es.lblk then
          let n₁ := n.withEs (growLeft newes n.es)
          (tryToMergeLeft rb (i.put n₁) n₁).map fun r =>
            (.ok, { r.2 with cache := some r.1.addr })
        else if n.es.last < newes.lblk then
          let n₁ := n.withEs { n.es with len := n.es.len + newes.len }
          (tryToMergeRight rb (i.put n₁) n₁).map fun r =>
            (.ok, { r.2 with cache := some r.1.addr })
        else none
    | none =>
        if alloc then
          some (.ok,
            { i.countNew newes with
              root := rb.insertColor (link (insertTurn newes) ⟨i.fresh, newes⟩ i.root)
              cache := some i.fresh
              fresh := i.fresh + 1 })
        else some (.nomem, i)

/-! ### `es_reclaim_extents` -/

/-- How a scan of `es_do_reclaim_extents` ends. -/
structure Scan where
  inode : Inode
  toScan : ℕ
  shrunk : ℕ
  exhausted : Bool

/-- The loop of `es_do_reclaim_extents`, over the nodes from `es` on. -/
def scanNodes (last : ℕ) : List Node → Inode → ℕ → ℕ → Option Scan
  | [], i, toScan, shrunk => some ⟨{ i with shrinkLblk := 0 }, toScan, shrunk, false⟩
  | n :: _, i, 0, shrunk => some ⟨{ i with shrinkLblk := n.es.lblk }, 0, shrunk, true⟩
  | n :: rest, i, toScan + 1, shrunk =>
      if last < n.es.lblk then some ⟨{ i with shrinkLblk := last + 1 }, toScan + 1, shrunk, false⟩
      else if n.es.isDelayed then scanNodes last rest i toScan shrunk
      else if n.es.isReferenced then
        scanNodes last rest (i.put (n.withEs n.es.clearReferenced)) toScan shrunk
      else (i.eraseNode rb n).bind fun j => scanNodes last rest j toScan (shrunk + 1)

/-- `es_do_reclaim_extents` -/
def doReclaimExtents (i : Inode) (last toScan shrunk : ℕ) : Option Scan :=
  (treeSearch i.root i.shrinkLblk).bind fun
    | none => some ⟨{ i with shrinkLblk := 0 }, toScan, shrunk, false⟩
    | some n => scanNodes rb last (tail (isAt n.addr) i.nodes) i toScan shrunk

/-- `es_reclaim_extents`: the number of extents that were freed. -/
def reclaimExtents (i : Inode) (toScan : ℕ) : Option (ℕ × Inode) :=
  if i.shkNr = 0 then some (0, i)
  else
    (doReclaimExtents rb i extMaxBlocks toScan 0).bind fun s =>
      let again :=
        if !s.exhausted && decide (i.shrinkLblk ≠ 0) then
          doReclaimExtents rb s.inode (i.shrinkLblk - 1) s.toScan s.shrunk
        else some s
      again.map fun s => (s.shrunk, { s.inode with cache := none })

/-- `__es_shrink`, called with the lock of this inode held. -/
def shrink (i : Inode) (o : Others) : Option (ℕ × Inode) :=
  if o.left = 0 ∨ o.shrunk ≠ 0 then some (o.shrunk, i) else reclaimExtents rb i o.left

/-! ### `__es_remove_extent` -/

/-- What is left of an extent before the range. -/
def trimEnd (es : Extent) (len : ℕ) : Extent := { es with len := len }

/-- What is left of an extent after `last`. -/
def trimFront (es : Extent) (last : ℕ) : Extent :=
  let len := es.last - last
  let es₁ := { es with lblk := last + 1, len := len }
  if es₁.mapped then
    es₁.storePblock (es.pblk + BitVec.ofNat 64 es.len - BitVec.ofNat 64 len)
  else es₁

/-- The same, as a new extent. -/
def splitOff (es : Extent) (last : ℕ) : Extent :=
  let len := es.last - last
  let block : BitVec 64 :=
    if es.mapped then es.pblock + BitVec.ofNat 64 es.len - BitVec.ofNat 64 len
    else 0x7FDEADBEEF
  Extent.storePblockStatus ⟨last + 1, len, 0⟩ block es.status

/-- The loop that erases what ends in the range, and what follows it. -/
def eraseRange (last : ℕ) : List Node → Inode → Option Inode
  | [], i => some i
  | n :: rest, i =>
      if n.es.wraps then none
      else if n.es.last ≤ last then (i.eraseNode rb n).bind (eraseRange last rest)
      else if n.es.lblk < last + 1 then some (i.put (n.withEs (trimFront n.es last)))
      else some i

/-- `__es_remove_extent` from the extent on that the search has found, up to the call of
`__es_shrink`. -/
def removeFrom (i : Inode) (n : Node) (lblk last : ℕ) (alloc : Bool) : Option (Ret × Inode) :=
  let len₁ := lblk - n.es.lblk
  let len₂ := n.es.last - last
  let n₁ := if 0 < len₁ then n.withEs (trimEnd n.es len₁) else n
  let i₁ := { i with cache := none }.put n₁
  if 0 < len₂ then
    if 0 < len₁ then
      (insertExtent rb i₁ (splitOff n.es last) alloc).map fun r =>
        match r.1 with
        | .ok => (.ok, r.2)
        | .nomem => (.nomem, r.2.put n)
    else some (.ok, i₁.put (n.withEs (trimFront n.es last)))
  else
    let from₁ := tail (isAt n.addr) i₁.nodes
    (eraseRange rb last (if 0 < len₁ then from₁.tail else from₁) i₁).map fun j => (.ok, j)

/-- `__es_remove_extent`, up to the call of `__es_shrink`. -/
def removeOnce (i : Inode) (lblk last : ℕ) (alloc : Bool) : Option (Ret × Inode) :=
  (treeSearch i.root lblk).bind fun
    | none => some (.ok, i)
    | some n =>
        if last < n.es.lblk then some (.ok, i)
        else if n.es.wraps then none
        else removeFrom rb i n lblk last alloc

/-- `__es_remove_extent` -/
def removeExtent (lblk last : ℕ) : List Others → Inode → Option (Ret × Inode)
  | [], i => removeOnce rb i lblk last true
  | o :: os, i =>
      (removeOnce rb i lblk last false).bind fun r =>
        match r.1 with
        | .ok => some r
        | .nomem =>
            (shrink rb r.2 o).bind fun s =>
              if s.1 = 0 then some (.nomem, s.2) else removeExtent lblk last os s.2

/-! ### The operations -/

/-- `__es_insert_extent`, tried again after `__es_shrink`. -/
def insertRetry (newes : Extent) : List Others → Inode → Option (Ret × Inode)
  | [], i => insertExtent rb i newes true
  | o :: os, i =>
      (insertExtent rb i newes false).bind fun r =>
        match r.1 with
        | .ok => some r
        | .nomem =>
            (shrink rb r.2 o).bind fun s =>
              if s.1 = 0 then some (.nomem, s.2) else insertRetry newes os s.2

/-- `newes` -/
def newExtent (lblk len : ℕ) (pblk status : BitVec 64) : Extent :=
  Extent.storePblockStatus ⟨lblk, len, 0⟩ pblk status

/-- `ext4_es_insert_extent`; the allocations that fail in the removal and in the insertion. -/
def esInsertExtent (i : Inode) (lblk len : ℕ) (pblk status : BitVec 64)
    (rem ins : List Others) : Option (Ret × Inode) :=
  if len = 0 then some (.ok, i)
  else if 2 ^ 32 < lblk + len then none
  else
    let newes := newExtent lblk len pblk status
    (removeExtent rb lblk (lblk + len - 1) rem i).bind fun r =>
      match r.1 with
      | .nomem => some r
      | .ok =>
          (insertRetry rb newes ins r.2).map fun s =>
            (if s.1 = .nomem ∧ newes.isDelayed = false then .ok else s.1, s.2)

/-- `ext4_es_cache_extent` -/
def esCacheExtent (i : Inode) (lblk len : ℕ) (pblk status : BitVec 64) (alloc : Bool) :
    Option Inode :=
  if len = 0 then some i
  else if 2 ^ 32 < lblk + len then none
  else
    let newes := newExtent lblk len pblk status
    (treeSearch i.root lblk).bind fun
      | none => (insertExtent rb i newes alloc).map Prod.snd
      | some n =>
          if lblk + len - 1 < n.es.lblk then (insertExtent rb i newes alloc).map Prod.snd
          else some i

/-- `ext4_es_remove_extent` -/
def esRemoveExtent (i : Inode) (lblk len : ℕ) (rem : List Others) : Option (Ret × Inode) :=
  if len = 0 then some (.ok, i)
  else if 2 ^ 32 < lblk + len then none
  else removeExtent rb lblk (lblk + len - 1) rem i

/-- `tree->cache_es`, if the block is in it; `none` if the pointer dangles. -/
def Inode.cached (i : Inode) (lblk : ℕ) : Option (Option Node) :=
  match i.cache with
  | none => some none
  | some a =>
      (i.nodeAt a).map fun n => if inRange lblk n.es.lblk n.es.len then some n else none

/-- `ext4_es_lookup_extent` -/
def esLookupExtent (i : Inode) (lblk : ℕ) : Option (Option Extent × Inode) :=
  (i.cached lblk).bind fun c =>
    (orSearch c (descend (side lblk) lblk i.root (find (side lblk) i.root))).map fun
      | none => (none, i)
      | some n =>
          (some n.es, if n.es.isReferenced then i else i.put (n.withEs n.es.setReferenced))

/-- The loop of `ext4_es_find_delayed_extent_range`, over the nodes after `es1`. -/
def nextDelayed (last : ℕ) : List Node → Option Node
  | [] => none
  | n :: rest =>
      if last < n.es.lblk then none
      else if n.es.isDelayed then some n
      else nextDelayed last rest

/-- `ext4_es_find_delayed_extent_range` -/
def esFindDelayedExtentRange (i : Inode) (lblk last : ℕ) : Option (Option Extent × Inode) :=
  if last < lblk then none
  else
    (i.cached lblk).bind fun c =>
      (orSearch c (treeSearch i.root lblk)).map fun
        | none => (none, i)
        | some n =>
            let found :=
              if n.es.isDelayed then some n
              else nextDelayed last (tail (isAt n.addr) i.nodes).tail
            match found with
            | none => (none, i)
            | some m => (some m.es, { i with cache := some m.addr })

inductive Act where
  | insert (lblk len : ℕ) (pblk status : BitVec 64) (rem ins : List Others)
  | cache (lblk len : ℕ) (pblk status : BitVec 64) (alloc : Bool)
  | remove (lblk len : ℕ) (rem : List Others)
  | lookup (lblk : ℕ)
  | findDelayed (lblk last : ℕ)
  /-- `es_reclaim_extents`, by the shrinker -/
  | reclaim (toScan : ℕ)

/-- What an operation returns. -/
inductive Out where
  | ret (r : Ret)
  | found (es : Option Extent)
  | done
  deriving DecidableEq, Repr

/-- An operation on the inode, under `i_es_lock`. -/
def step (i : Inode) : Act → Option (Out × Inode)
  | .insert lblk len pblk status rem ins =>
      (esInsertExtent rb i lblk len pblk status rem ins).map fun r => (.ret r.1, r.2)
  | .cache lblk len pblk status alloc =>
      (esCacheExtent rb i lblk len pblk status alloc).map fun j => (.done, j)
  | .remove lblk len rem => (esRemoveExtent rb i lblk len rem).map fun r => (.ret r.1, r.2)
  | .lookup lblk => (esLookupExtent i lblk).map fun r => (.found r.1, r.2)
  | .findDelayed lblk last =>
      (esFindDelayedExtentRange i lblk last).map fun r => (.found r.1, r.2)
  | .reclaim toScan => (reclaimExtents rb i toScan).map fun r => (.done, r.2)

/-- `ext4_es_init_tree` -/
def Inode.empty : Inode := ⟨.nil, none, 0, 0, false, 0, 0⟩

end Operations

end CcNvme.ExtentStatus

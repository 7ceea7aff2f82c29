/-
CcNvme/Leasing.lean

Streams are leased on two levels.  A file system that is mounted takes stream ids
from the front of the queue of free ids and gives them back to its end when it is
unmounted; a thread of that file system takes one of its streams for the time of an
fsync, by `get_free_stream` and `put_stream` of `mqfs/filemap_compat.c`.

The mutex that `get_free_stream` locks is named by an index into the array of ids,
and the one that `put_stream` unlocks by the id modulo the number of ids.  These are
the same mutex for ids that come out of the queue in the right residues (`Aligned`),
as they do for the first mount; `leases_exclusive` finds the leases exclusive along
every run in which each mount meets such ids.
-/
import CcNvme.Submit
import CcNvme.Lib.Pool
import CcNvme.Lib.Run
import Mathlib.Data.List.GetD

namespace CcNvme

/-! ### The machine -/

/-- The fields of `struct ext4_sb_info` for streams, and the disk of the file system. -/
structure Mount where
  nrStreams : ℕ
  streams : List ℕ
  /-- which mutexes of `stream_lock` are locked -/
  streamLock : ℕ → Bool
  dev : DevT

/-- What `ext4_fill_super` sets the streams up from. -/
structure MountArgs where
  crashmonkey : Bool
  /-- the mount option `nr_streams` -/
  nrStreams : ℕ
  /-- `num_possible_cpus()` -/
  possibleCpus : ℕ
  dev : RegisterdDev
  blocksPerGroup : ℕ

/-- The number of streams a mount asks for. -/
def MountArgs.wanted (a : MountArgs) : ℕ :=
  let nr := if a.crashmonkey then 2 else a.nrStreams
  if nr = 0 then a.possibleCpus else nr

/-- The part of `ext4_fill_super` that takes streams. -/
def ext4FillSuper (P : Params) (o : Olayer) (freeStreamQ : List ℕ) (a : MountArgs) :
    Olayer × List ℕ × Mount :=
  let r := olayerRegisterStreams P o freeStreamQ a.wanted ⟨[a.dev], a.blocksPerGroup⟩
  (r.1, r.2.1,
    { nrStreams := r.2.2.length
      streams := r.2.2
      streamLock := fun _ => false
      dev := a.dev.devId })

namespace Mount

def lock (M : Mount) (s : ℕ) : Mount := { M with streamLock := Function.update M.streamLock s true }

def unlock (M : Mount) (s : ℕ) : Mount :=
  { M with streamLock := Function.update M.streamLock s false }

/-- The mutex that `put_stream` unlocks. -/
def putIndex (M : Mount) (stream : ℕ) : ℕ :=
  if stream ≥ M.nrStreams then stream % M.nrStreams else stream

end Mount

/-- Where a thread is; `m` names the file system. -/
inductive LeasePc where
  | idle
  /-- in `get_free_stream`, before `mutex_trylock(&stream_lock[s])` -/
  | trying (m cpu loop s : ℕ)
  /-- before `mutex_lock(&stream_lock[cpu % nr_streams])` -/
  | waiting (m cpu : ℕ)
  /-- between `get_free_stream`, which locked `stream_lock[s]` and returned `stream`, and
  `put_stream` -/
  | holding (m s stream : ℕ)
  deriving DecidableEq, Repr

/-- The file system a thread is in. -/
def LeasePc.mount : LeasePc → Option ℕ
  | .idle => none
  | .trying m _ _ _ | .waiting m _ | .holding m _ _ => some m

structure Leases where
  o : Olayer
  freeStreamQ : List ℕ
  mount : ℕ → Option Mount
  pc : ℕ → LeasePc

inductive LeaseOp where
  /-- `ext4_fill_super` -/
  | mount (m : ℕ) (a : MountArgs)
  /-- `olayer_unregister_streams` in `ext4_put_super` -/
  | unmount (m : ℕ)
  /-- thread `t` enters `get_free_stream` on `cpu` -/
  | get (t m cpu : ℕ)
  /-- thread `t` takes its next step in `get_free_stream` -/
  | advance (t : ℕ)
  /-- `put_stream` -/
  | put (t : ℕ)
  /-- whatever else is done to the streams, the index and the devices -/
  | work (o : Olayer)

namespace Leases

def setMount (st : Leases) (m : ℕ) (M : Option Mount) : Leases :=
  { st with mount := Function.update st.mount m M }

def goto (st : Leases) (t : ℕ) (p : LeasePc) : Leases :=
  { st with pc := Function.update st.pc t p }

/-- Thread `t` locks `stream_lock[s]` and reads `streams[s]`. -/
def take (st : Leases) (t m s : ℕ) (M : Mount) : Leases :=
  (st.setMount m (some (M.lock s))).goto t (.holding m s (M.streams.getD s 0))

/-- The next step of a thread in `get_free_stream`; `none` when it has to wait. -/
def advance (st : Leases) (t : ℕ) : Option Leases :=
  match st.pc t with
  | .trying m cpu loop s =>
      (st.mount m).map fun M =>
        if M.streamLock s = false then st.take t m s M
        else if loop - 1 = 0 then st.goto t (.waiting m cpu)
        else st.goto t (.trying m cpu (loop - 1) ((s + 1) % M.nrStreams))
  | .waiting m cpu =>
      (st.mount m).bind fun M =>
        if M.streamLock (cpu % M.nrStreams) = false then
          some (st.take t m (cpu % M.nrStreams) M)
        else none
  | _ => none

def step (P : Params) (st : Leases) : LeaseOp → Option Leases
  | .mount m a =>
      if (st.mount m).isSome then none
      else
        let r := ext4FillSuper P st.o st.freeStreamQ a
        some ({ st with o := r.1, freeStreamQ := r.2.1 }.setMount m (some r.2.2))
  | .unmount m =>
      (st.mount m).map fun M =>
        let r := olayerUnregisterStreams P st.o st.freeStreamQ M.nrStreams M.streams [M.dev]
        { st with o := r.1, freeStreamQ := r.2 }.setMount m none
  | .get t m cpu =>
      if st.pc t = .idle then
        (st.mount m).bind fun M =>
          -- a division by zero does not return
          if M.nrStreams = 0 then none
          else some (st.goto t (.trying m cpu M.nrStreams (cpu % M.nrStreams)))
      else none
  | .advance t => st.advance t
  | .put t =>
      match st.pc t with
      | .holding m _ stream =>
          (st.mount m).map fun M =>
            (st.setMount m (some (M.unlock (M.putIndex stream)))).goto t .idle
      | _ => none
  | .work o => some { st with o := o }

end Leases

/-! ### The property and the condition -/

/-- **The property.**  The modulus is not zero, `put_stream` would unlock the mutex that
`get_free_stream` has locked, and no two threads hold one stream. -/
structure LeasesExclusive (st : Leases) : Prop where
  modulus : ∀ m M, st.mount m = some M → M.nrStreams ≠ 0
  unlocks : ∀ t m s stream M, st.pc t = .holding m s stream → st.mount m = some M →
    M.putIndex stream = s
  exclusive : ∀ t t' m m' s s' stream, t ≠ t' → st.pc t = .holding m s stream →
    st.pc t' ≠ .holding m' s' stream

/-- There are ids, and the one at index `i` is `i` modulo their number. -/
def Aligned (ids : List ℕ) : Prop :=
  0 < ids.length ∧ ∀ i < ids.length, ids.getD i 0 % ids.length = i

instance (ids : List ℕ) : Decidable (Aligned ids) := by unfold Aligned; infer_instance

/-- A mount meets such ids at the front of the queue, and no thread is in a file system that
is unmounted, which is for the file system layer to see to. -/
def LeaseSafe (P : Params) (st : Leases) : LeaseOp → Prop
  | .mount _ a => Aligned (st.freeStreamQ.take (min a.wanted P.nrStreams))
  | .unmount m => ∀ t, (st.pc t).mount ≠ some m
  | _ => True

/-! ### The invariant -/

/-- The streams that file system `m` has. -/
def Leases.own (st : Leases) (m : ℕ) : List ℕ := (st.mount m).elim [] Mount.streams

structure MountOk (M : Mount) : Prop where
  nr_eq : M.nrStreams = M.streams.length
  aligned : Aligned M.streams

/-- What holds of a thread at `p`: it is in a mounted file system, `s` is one of its
mutexes, and the one a thread has locked is locked. -/
def LeasePlaceOk (mount : ℕ → Option Mount) : LeasePc → Prop
  | .idle => True
  | .trying m _ _ s => ∃ M, mount m = some M ∧ s < M.nrStreams
  | .waiting m _ => ∃ M, mount m = some M
  | .holding m s stream => ∃ M, mount m = some M ∧ s < M.nrStreams ∧
      stream = M.streams.getD s 0 ∧ M.streamLock s = true

structure LeaseInv (st : Leases) : Prop where
  apart : Pool.Apart st.freeStreamQ st.own
  mounts : ∀ m M, st.mount m = some M → MountOk M
  place : ∀ t, LeasePlaceOk st.mount (st.pc t)
  distinct : ∀ t t' m s x x', t ≠ t' → st.pc t = .holding m s x → st.pc t' ≠ .holding m s x'

theorem MountOk.pos {M : Mount} (h : MountOk M) : 0 < M.nrStreams := h.nr_eq ▸ h.aligned.1

/-- With aligned ids `put_stream` computes the index from the id. -/
theorem MountOk.putIndex_eq {M : Mount} (h : MountOk M) {s : ℕ} (hs : s < M.nrStreams) :
    M.putIndex (M.streams.getD s 0) = s := by
  have hmod : M.streams.getD s 0 % M.nrStreams = s := by
    rw [h.nr_eq] at hs ⊢
    exact h.aligned.2 s hs
  unfold Mount.putIndex
  split_ifs with hge
  · exact hmod
  · rwa [Nat.mod_eq_of_lt (Nat.not_le.mp hge)] at hmod

/-- The invariant has the property. -/
theorem LeaseInv.exclusive {st : Leases} (h : LeaseInv st) : LeasesExclusive st where
  modulus := fun m M hM => (h.mounts m M hM).pos.ne'
  unlocks := by
    intro t m s stream M hpc hM
    have hplace := h.place t
    rw [hpc] at hplace
    obtain ⟨M', hM', hs, rfl, -⟩ := hplace
    obtain rfl := Option.some.inj (hM.symm.trans hM')
    exact (h.mounts m M hM).putIndex_eq hs
  exclusive := by
    intro t t' m m' s s' stream hne hpc hpc'
    have hplace := h.place t
    have hplace' := h.place t'
    rw [hpc] at hplace
    rw [hpc'] at hplace'
    obtain ⟨M, hM, hs, hid, -⟩ := hplace
    obtain ⟨M', hM', hs', hid', -⟩ := hplace'
    have hmem : ∀ {m s M}, st.mount m = some M → s < M.nrStreams →
        M.streams.getD s 0 ∈ st.own m := by
      intro m s M hM hs
      rw [(h.mounts m M hM).nr_eq] at hs
      rw [Leases.own, hM, List.getD_eq_getElem _ _ hs]
      exact List.getElem_mem hs
    -- one owner, so one mount, and one index in its array
    obtain rfl := h.apart.owner_unique (hid ▸ hmem hM hs) (hid' ▸ hmem hM' hs')
    obtain rfl := Option.some.inj (hM.symm.trans hM')
    obtain rfl : s = s' := by
      rw [← (h.mounts m M hM).putIndex_eq hs, ← (h.mounts m M hM).putIndex_eq hs', ← hid, ← hid']
    exact h.distinct t t' m s stream stream hne hpc hpc'

/-! ### Steps -/

theorem Leases.own_setMount (st : Leases) (m : ℕ) (M : Option Mount) :
    (st.setMount m M).own = Function.update st.own m (M.elim [] Mount.streams) := by
  funext k
  show (Function.update st.mount m M k).elim [] Mount.streams = _
  by_cases hk : k = m
  · rw [hk, Function.update_self, Function.update_self]
  · rw [Function.update_of_ne hk, Function.update_of_ne hk]
    rfl

/-- A thread is in a mounted file system only. -/
theorem LeasePlaceOk.mounted {mount : ℕ → Option Mount} {m : ℕ} {p : LeasePc}
    (h : LeasePlaceOk mount p) (hp : p.mount = some m) : ∃ M, mount m = some M := by
  cases p with
  | idle => cases hp
  | trying m' cpu loop s =>
      obtain rfl := Option.some.inj hp
      obtain ⟨M, hM, -⟩ := h
      exact ⟨M, hM⟩
  | waiting m' cpu =>
      obtain rfl := Option.some.inj hp
      exact h
  | holding m' s x =>
      obtain rfl := Option.some.inj hp
      obtain ⟨M, hM, -⟩ := h
      exact ⟨M, hM⟩

/-- A thread does not notice mounts and unmounts of other file systems. -/
theorem LeasePlaceOk.of_other {mount : ℕ → Option Mount} {m : ℕ} {p : LeasePc}
    (h : LeasePlaceOk mount p) (hp : p.mount ≠ some m) (M : Option Mount) :
    LeasePlaceOk (Function.update mount m M) p := by
  have hne : ∀ {m'}, p.mount = some m' → m' ≠ m := fun he hm => hp (hm ▸ he)
  cases p with
  | idle => trivial
  | trying m' cpu loop s => simpa only [LeasePlaceOk, Function.update_of_ne (hne rfl)] using h
  | waiting m' cpu => simpa only [LeasePlaceOk, Function.update_of_ne (hne rfl)] using h
  | holding m' s x => simpa only [LeasePlaceOk, Function.update_of_ne (hne rfl)] using h

/-- A thread does not notice what happens to the mutexes it has not locked. -/
theorem LeasePlaceOk.relock {mount : ℕ → Option Mount} {m : ℕ} {M M' : Mount} {p : LeasePc}
    (h : LeasePlaceOk mount p) (hM : mount m = some M) (hnr : M'.nrStreams = M.nrStreams)
    (hstreams : M'.streams = M.streams)
    (hlock : ∀ s x, p = .holding m s x → M.streamLock s = true → M'.streamLock s = true) :
    LeasePlaceOk (Function.update mount m (some M')) p := by
  by_cases hp : p.mount = some m
  swap
  · exact h.of_other hp _
  cases p with
  | idle => trivial
  | trying m' cpu loop s =>
      obtain rfl := Option.some.inj hp
      obtain ⟨M₁, hM₁, hs⟩ := h
      obtain rfl := Option.some.inj (hM.symm.trans hM₁)
      exact ⟨M', Function.update_self .., hnr ▸ hs⟩
  | waiting m' cpu =>
      obtain rfl := Option.some.inj hp
      exact ⟨M', Function.update_self ..⟩
  | holding m' s x =>
      obtain rfl := Option.some.inj hp
      obtain ⟨M₁, hM₁, hs, hx, hl⟩ := h
      obtain rfl := Option.some.inj (hM.symm.trans hM₁)
      exact ⟨M', Function.update_self .., hnr ▸ hs, hstreams ▸ hx, hlock s x rfl hl⟩

namespace LeaseInv

variable {P : Params} {st : Leases}

/-- One file system is replaced. -/
theorem mounts_update (h : LeaseInv st) {m : ℕ} {M : Option Mount}
    (hM : ∀ M₁, M = some M₁ → MountOk M₁) (m' : ℕ) (M' : Mount)
    (hM' : Function.update st.mount m M m' = some M') : MountOk M' :=
  (Function.forall_update_iff st.mount fun _ N => ∀ M₁, N = some M₁ → MountOk M₁).mpr
    ⟨hM, fun m₁ _ => h.mounts m₁⟩ m' M' hM'

/-- A thread goes on, and mutexes of one file system change on the way. -/
theorem relock (h : LeaseInv st) {t m : ℕ} {M M' : Mount} {p : LeasePc}
    (hM : st.mount m = some M) (hnr : M'.nrStreams = M.nrStreams)
    (hstreams : M'.streams = M.streams)
    (hp : LeasePlaceOk (Function.update st.mount m (some M')) p)
    (hothers : ∀ t', t' ≠ t → ∀ s x, st.pc t' = .holding m s x → M.streamLock s = true →
      M'.streamLock s = true)
    (hnew : ∀ t', t' ≠ t → ∀ m' s x x', p = .holding m' s x → st.pc t' ≠ .holding m' s x') :
    LeaseInv ((st.setMount m (some M')).goto t p) where
  apart := by
    have hown : (st.setMount m (some M')).own = st.own := by
      rw [Leases.own_setMount, Function.update_eq_self_iff]
      show M'.streams = (st.mount m).elim [] Mount.streams
      rw [hM, hstreams]
      rfl
    show Pool.Apart st.freeStreamQ (st.setMount m (some M')).own
    rw [hown]
    exact h.apart
  mounts := by
    refine h.mounts_update fun M₁ hM₁ => ?_
    obtain rfl := Option.some.inj hM₁
    have hok := h.mounts m M hM
    exact ⟨by rw [hnr, hstreams, hok.nr_eq], hstreams ▸ hok.aligned⟩
  place := (Function.forall_update_iff st.pc fun _ q => LeasePlaceOk _ q).mpr
    ⟨hp, fun t' ht => (h.place t').relock hM hnr hstreams (hothers t' ht)⟩
  distinct := by
    refine fun t₁ t₂ m' s x x' hne => Pool.pairwise_update
      (R := fun q q' : LeasePc => ∀ m s x x', q = .holding m s x → q' ≠ .holding m s x')
      (f := st.pc)
      (fun t₁ t₂ hne m s x x' => h.distinct t₁ t₂ m s x x' hne) (fun t' ht => ⟨?_, ?_⟩)
      t₁ t₂ hne m' s x x'
    · exact hnew t' ht
    · exact fun m s x x' hq hq' => hnew t' ht m s x' x hq' hq

/-- A thread goes on without a stream, and no mutex changes. -/
theorem goto (h : LeaseInv st) (t : ℕ) {m : ℕ} {M : Mount} {p : LeasePc}
    (hM : st.mount m = some M) (hp : LeasePlaceOk st.mount p)
    (hfree : ∀ m s x, p ≠ .holding m s x) : LeaseInv (st.goto t p) := by
  have hself : Function.update st.mount m (some M) = st.mount := by
    rw [← hM, Function.update_eq_self]
  have := h.relock (t := t) (p := p) hM rfl rfl (hself.symm ▸ hp) (fun _ _ _ _ _ hl => hl)
    fun _ _ m' s x _ he => absurd he (hfree m' s x)
  rwa [Leases.setMount, hself] at this

/-- A thread locks a mutex that is free. -/
theorem take (h : LeaseInv st) (t : ℕ) {m s : ℕ} {M : Mount} (hM : st.mount m = some M)
    (hs : s < M.nrStreams) (hunlocked : M.streamLock s = false) :
    LeaseInv (st.take t m s M) := by
  refine h.relock hM rfl rfl ?_ ?_ ?_
  · exact ⟨M.lock s, Function.update_self .., hs, rfl, Function.update_self ..⟩
  · intro t' _ s' x _ hl
    show Function.update M.streamLock s true s' = true
    by_cases hs' : s' = s
    · rw [hs', Function.update_self]
    · rwa [Function.update_of_ne hs']
  · -- another thread at this index would have the mutex locked
    rintro t' - m' s' x x' he hpc'
    obtain ⟨rfl, rfl, -⟩ := LeasePc.holding.inj he
    have hplace := h.place t'
    rw [hpc'] at hplace
    obtain ⟨M', hM', -, -, hl⟩ := hplace
    obtain rfl := Option.some.inj (hM.symm.trans hM')
    rw [hunlocked] at hl
    cases hl

/-- **`put_stream`** unlocks the mutex of its own lease. -/
theorem put (h : LeaseInv st) {t m s stream : ℕ} {M : Mount}
    (hpc : st.pc t = .holding m s stream) (hM : st.mount m = some M) :
    LeaseInv ((st.setMount m (some (M.unlock (M.putIndex stream)))).goto t .idle) := by
  rw [h.exclusive.unlocks t m s stream M hpc hM]
  refine h.relock hM rfl rfl trivial ?_ fun _ _ _ _ _ _ he => nomatch he
  intro t' ht' s' x hpc' hl
  have hne : s' ≠ s := by
    rintro rfl
    exact h.distinct t' t m s' x stream ht' hpc' hpc
  show Function.update M.streamLock s false s' = true
  rwa [Function.update_of_ne hne]

/-- **A mount** that meets aligned ids. -/
theorem mount (h : LeaseInv st) {m : ℕ} (hm : st.mount m = none) (a : MountArgs)
    (hids : Aligned (st.freeStreamQ.take (min a.wanted P.nrStreams))) :
    LeaseInv ({ st with
      o := (ext4FillSuper P st.o st.freeStreamQ a).1
      freeStreamQ := (ext4FillSuper P st.o st.freeStreamQ a).2.1 }.setMount m
        (some (ext4FillSuper P st.o st.freeStreamQ a).2.2)) := by
  set nr := if a.wanted > P.nrStreams then P.nrStreams else a.wanted with hnr
  have hmin : nr = min a.wanted P.nrStreams := by
    rw [hnr]
    split_ifs <;> omega
  rw [← hmin] at hids
  refine ⟨?_, h.mounts_update fun M₁ hM₁ => ?_, fun t => ?_, h.distinct⟩
  · show Pool.Apart (st.freeStreamQ.drop nr) (Leases.own (Leases.setMount _ m _))
    rw [Leases.own_setMount]
    exact h.apart.take m nr
  · obtain rfl := Option.some.inj hM₁
    exact ⟨rfl, hids⟩
  · refine (h.place t).of_other (fun hp => ?_) _
    obtain ⟨M, hM⟩ := (h.place t).mounted hp
    rw [hm] at hM
    cases hM

/-- **An unmount** of a file system that no thread is in. -/
theorem unmount (h : LeaseInv st) {m : ℕ} {M : Mount} (hM : st.mount m = some M)
    (hout : ∀ t, (st.pc t).mount ≠ some m) :
    LeaseInv ({ st with
      o := (olayerUnregisterStreams P st.o st.freeStreamQ M.nrStreams M.streams [M.dev]).1
      freeStreamQ :=
        (olayerUnregisterStreams P st.o st.freeStreamQ M.nrStreams M.streams [M.dev]).2 }.setMount
          m none) := by
  refine ⟨?_, h.mounts_update nofun, fun t => (h.place t).of_other (hout t) _, h.distinct⟩
  show Pool.Apart (st.freeStreamQ ++ _) (Leases.own (Leases.setMount _ m none))
  rw [Leases.own_setMount]
  refine h.apart.give ?_
  rw [Leases.own, hM]
  exact (List.take_sublist _ _).trans (List.take_sublist _ _)

/-- **A step in `get_free_stream`.** -/
theorem advance (h : LeaseInv st) {t : ℕ} {st' : Leases} (hstep : st.advance t = some st') :
    LeaseInv st' := by
  unfold Leases.advance at hstep
  have hplace := h.place t
  rcases e : st.pc t with - | ⟨m, cpu, loop, s⟩ | ⟨m, cpu⟩ | ⟨m, s, x⟩ <;>
    rw [e] at hstep hplace <;> dsimp only at hstep
  · cases hstep
  · obtain ⟨M, hM, hs⟩ := hplace
    rw [hM, Option.map_some, Option.some.injEq] at hstep
    subst hstep
    split_ifs with hlock hloop
    · exact h.take t hM hs hlock
    · exact h.goto t hM ⟨M, hM⟩ nofun
    · exact h.goto t hM ⟨M, hM, Nat.mod_lt _ (h.mounts m M hM).pos⟩ nofun
  · obtain ⟨M, hM⟩ := hplace
    rw [hM, Option.bind_some] at hstep
    split_ifs at hstep with hlock
    obtain rfl := Option.some.inj hstep
    exact h.take t hM (Nat.mod_lt _ (h.mounts m M hM).pos) hlock
  · cases hstep

end LeaseInv

/-- **One safe step** keeps the invariant. -/
theorem lease_step {P : Params} {st st' : Leases} {op : LeaseOp} (h : LeaseInv st)
    (hsafe : LeaseSafe P st op) (hstep : st.step P op = some st') : LeaseInv st' := by
  cases op with
  | mount m a =>
      rw [Leases.step] at hstep
      split_ifs at hstep with hm
      obtain rfl := Option.some.inj hstep
      exact h.mount (Option.not_isSome_iff_eq_none.mp hm) a hsafe
  | unmount m =>
      obtain ⟨M, hM, rfl⟩ := Option.map_eq_some_iff.mp hstep
      exact h.unmount hM hsafe
  | get t m cpu =>
      rw [Leases.step] at hstep
      split_ifs at hstep with hidle
      obtain ⟨M, hM, hget⟩ := Option.bind_eq_some_iff.mp hstep
      split_ifs at hget
      obtain rfl := Option.some.inj hget
      exact h.goto t hM ⟨M, hM, Nat.mod_lt _ (h.mounts m M hM).pos⟩ nofun
  | advance t => exact h.advance hstep
  | put t =>
      rw [Leases.step] at hstep
      rcases e : st.pc t with - | ⟨m, cpu, loop, s⟩ | ⟨m, cpu⟩ | ⟨m, s, x⟩ <;>
        rw [e] at hstep <;> dsimp only at hstep
      · cases hstep
      · cases hstep
      · cases hstep
      · obtain ⟨M, hM, rfl⟩ := Option.map_eq_some_iff.mp hstep
        exact h.put e hM
  | work o =>
      obtain rfl := Option.some.inj hstep
      exact ⟨h.apart, h.mounts, h.place, h.distinct⟩

/-! ### Runs -/

/-- The module just loaded: every id is free, and nothing is mounted. -/
def Leases.init (P : Params) (o : Olayer) : Leases where
  o := o
  freeStreamQ := List.range P.nrStreams
  mount := fun _ => none
  pc := fun _ => .idle

theorem leaseInv_init (P : Params) (o : Olayer) : LeaseInv (Leases.init P o) where
  apart := Pool.apart_of_free List.nodup_range
  mounts := nofun
  place := fun _ => trivial
  distinct := nofun

/-- **Leasing is exclusive** in every state that mounts, unmounts and threads can reach, in
any order, when each mount meets aligned ids. -/
theorem leases_exclusive (P : Params) (o : Olayer) (ops : List LeaseOp) (st : Leases)
    (hsafe : Run.Along (Leases.step P) (LeaseSafe P) (Leases.init P o) ops)
    (hrun : Run.run (Leases.step P) (Leases.init P o) ops = some st) : LeasesExclusive st :=
  (Run.run_preserves (fun _ _ _ h hs hstep => lease_step h hs hstep) (leaseInv_init P o) hsafe
    hrun).exclusive

/-- A mount that asks for `n` streams. -/
def tinyMount (n : ℕ) : MountArgs where
  crashmonkey := false
  nrStreams := n
  possibleCpus := 4
  dev := ⟨⟨259, 0⟩, 7⟩
  blocksPerGroup := 4

/-- The first mount has taken id 0, so that the second has ids 1 and 2 at indices 0 and 1.
Thread 1 takes the stream at index 1 of the second one, thread 0 that at index 0. -/
def secondMount : List LeaseOp :=
  [.mount 0 (tinyMount 1), .mount 1 (tinyMount 2), .get 1 1 1, .advance 1, .get 0 1 0, .advance 0]

/-- What thread 0 then unlocks is the mutex of thread 1, whose stream is handed out to thread
2 as well; and a mount that finds no free id has zero streams. -/
theorem second_mount_shares_stream :
    (∃ st, Run.run (Leases.step Params.tiny) (Leases.init Params.tiny tinyLoaded) secondMount
        = some st ∧ st.pc 0 = .holding 1 0 1 ∧ (st.mount 1).map (·.putIndex 1) = some 1) ∧
      (∃ st, Run.run (Leases.step Params.tiny) (Leases.init Params.tiny tinyLoaded)
          (secondMount ++ [.put 0, .get 2 1 1, .advance 2]) = some st ∧
        st.pc 1 = .holding 1 1 2 ∧ st.pc 2 = .holding 1 1 2) ∧
      ∃ st, Run.run (Leases.step Params.tiny) (Leases.init Params.tiny tinyLoaded)
          [.mount 0 (tinyMount 64), .mount 1 (tinyMount 1)] = some st ∧
        (st.mount 1).map (·.nrStreams) = some 0 := by
  decide +kernel

/-- Three mounts of two streams each, an unmount between them, and threads in two. -/
def evenMounts : List LeaseOp :=
  [.mount 0 (tinyMount 2), .mount 1 (tinyMount 2), .get 0 0 1, .advance 0, .get 1 1 1, .advance 1,
    .put 0, .unmount 0, .mount 2 (tinyMount 2), .get 0 2 1, .advance 0]

theorem leases_exclusive_evenMounts :
    ∃ st, Run.run (Leases.step Params.tiny) (Leases.init Params.tiny tinyLoaded) evenMounts
        = some st ∧ st.pc 0 = .holding 2 1 5 ∧ LeasesExclusive st := by
  have hsafe : Run.Along (Leases.step Params.tiny) (LeaseSafe Params.tiny)
      (Leases.init Params.tiny tinyLoaded) evenMounts := by
    have hmount : ∀ (st : Leases) (m : ℕ), Aligned (st.freeStreamQ.take 2) →
        LeaseSafe Params.tiny st (.mount m (tinyMount 2)) := fun _ _ h => h
    refine ⟨hmount _ _ (by decide +kernel), fun st₁ h₁ => ?_⟩
    obtain rfl := Option.some.inj h₁
    refine ⟨hmount _ _ (by decide +kernel), fun st₂ h₂ => ?_⟩
    obtain rfl := Option.some.inj h₂
    refine ⟨trivial, fun st₃ h₃ => ⟨trivial, fun st₄ h₄ => ⟨trivial, fun st₅ h₅ => ?_⟩⟩⟩
    obtain rfl := Option.some.inj h₃
    obtain rfl := Option.some.inj h₄
    obtain rfl := Option.some.inj h₅
    refine ⟨trivial, fun st₆ h₆ => ⟨trivial, fun st₇ h₇ => ?_⟩⟩
    obtain rfl := Option.some.inj h₆
    obtain rfl := Option.some.inj h₇
    refine ⟨?_, fun st₈ h₈ => ?_⟩
    · -- only thread 1 is in a file system, and in the other one
      rintro (- | - | t)
      · decide +kernel
      · decide +kernel
      · exact nofun
    obtain rfl := Option.some.inj h₈
    refine ⟨hmount _ _ (by decide +kernel), fun _ _ => ?_⟩
    exact ⟨trivial, fun _ _ => ⟨trivial, fun _ _ => trivial⟩⟩
  have hpc : ∃ st, Run.run (Leases.step Params.tiny) (Leases.init Params.tiny tinyLoaded)
      evenMounts = some st ∧ st.pc 0 = .holding 2 1 5 := by
    decide +kernel
  obtain ⟨st, hrun, hst⟩ := hpc
  exact ⟨st, hrun, hst, leases_exclusive Params.tiny tinyLoaded evenMounts st hsafe hrun⟩

end CcNvme

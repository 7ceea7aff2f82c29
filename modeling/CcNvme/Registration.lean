/-
CcNvme/Registration.lean

Who has which stream.  `olayer_register_streams` takes ids from the front of the queue of
free ids, `olayer_unregister_streams` puts them back at its end and then resets their
streams; in between the registrant makes calls on the ids it was given.

Called one after another the two conserve the ids: `stream_ids_conserved` finds the queue
and what is held a permutation of all ids in every state, and the ring of every id handed
out empty.  The queue is locked for itself, though, and the resets come after it.  The
second machine takes them as steps of their own; there a stream can be reset under an
owner who got its id in between, and `resets_unowned` says what excludes it.
-/
import CcNvme.Client
import CcNvme.Lib.Pool

namespace CcNvme

/-! ### Calls one after another -/

/-- The module, the queue of free ids, and the ids of each registrant. -/
structure Registry where
  o : Olayer
  freeStreamQ : List ℕ
  held : List (List ℕ)

inductive RegistryOp where
  /-- `olayer_register_streams` by a new registrant -/
  | register (nr : ℕ) (param : InitParam)
  /-- `olayer_unregister_streams` by the `k`-th registrant, which passes its ids -/
  | unregister (k : ℕ) (strs : List ℕ) (devs : List DevT)
  /-- the `k`-th registrant makes a call on its stream `sid` -/
  | call (k sid : ℕ) (op : ClientOp)

namespace Registry

/-- A call on stream `sid` by the `k`-th registrant, if that stream is its own. -/
def call (P : Params) (fuel : ℕ) (st : Registry) (k sid : ℕ) (op : ClientOp) : Option Registry :=
  (st.held[k]?).bind fun ids =>
    if sid ∈ ids then (runClientOp P fuel sid st.o op).map fun o => { st with o := o } else none

/-- `olayer_register_streams` -/
def register (P : Params) (st : Registry) (nr : ℕ) (param : InitParam) : Registry :=
  let r := olayerRegisterStreams P st.o st.freeStreamQ nr param
  { o := r.1, freeStreamQ := r.2.1, held := r.2.2 :: st.held }

def step (P : Params) (fuel : ℕ) (st : Registry) : RegistryOp → Option Registry
  | .register nr param => some (st.register P nr param)
  | .unregister k strs devs =>
      (st.held[k]?).bind fun ids =>
        if strs.Perm ids then
          let r := olayerUnregisterStreams P st.o st.freeStreamQ strs.length strs devs
          some { o := r.1, freeStreamQ := r.2, held := st.held.eraseIdx k }
        else none
  | .call k sid op => st.call P fuel k sid op

/-- The module just loaded. -/
def init (P : Params) (mem : ℕ → ℕ → Ometa) (lastTxid : ℕ → ℕ) (cmb : ℕ → Ometa) : Registry :=
  { o := initStreams P mem lastTxid cmb, freeStreamQ := List.range P.nrStreams, held := [] }

end Registry

/-- The ring is empty, and as it was set up. -/
structure Stream.Fresh (s : Stream) : Prop where
  head_eq : s.head = 0
  tail_eq : s.tail = 0
  tailWatermark_eq : s.tailWatermark = 0
  flushed_eq : s.flushed = 0
  lastQueueFlushed_eq : s.lastQueueFlushed = 0

/-- **The property.**  No id is lost or doubled, and a registration hands out ids that no
one else holds, of streams whose rings are empty. -/
structure IdsConserved (P : Params) (st : Registry) : Prop where
  perm : (st.freeStreamQ ++ st.held.flatten).Perm (List.range P.nrStreams)
  handed : ∀ nr param, ∃ ids, (st.register P nr param).held = ids :: st.held ∧
    ids.length = min (min nr P.nrStreams) st.freeStreamQ.length ∧
    ∀ i ∈ ids, (∀ other ∈ st.held, i ∉ other) ∧ ((st.register P nr param).o.stream i).Fresh

structure RegistryInv (P : Params) (st : Registry) : Prop where
  conserved : Pool.Conserved (List.range P.nrStreams) st.freeStreamQ st.held
  fresh : ∀ i ∈ st.freeStreamQ, (st.o.stream i).Fresh

variable {P : Params} {fuel : ℕ}

/-! ### Resets -/

theorem olayerResetStream_fresh (o : Olayer) {sid : ℕ} (hsid : sid < P.nrStreams) :
    ((olayerResetStream P o sid).stream sid).Fresh := by
  simp only [olayerResetStream, clampSid_of_lt hsid, Olayer.setStream_self]
  exact ⟨rfl, rfl, rfl, rfl, rfl⟩

theorem olayerResetStream_frame (o : Olayer) {sid : ℕ} (hsid : sid < P.nrStreams) :
    OnlyStream sid o (olayerResetStream P o sid) := by
  simp only [olayerResetStream, clampSid_of_lt hsid]
  exact (OnlyStream.of_eq rfl).setStream _

/-- The reset loop of `olayer_unregister_streams`. -/
theorem resetLoop_stream {strs : List ℕ} (hlt : ∀ x ∈ strs, x < P.nrStreams) (o : Olayer) (i : ℕ) :
    (i ∈ strs → ((strs.foldl (olayerResetStream P) o).stream i).Fresh) ∧
      (i ∉ strs → (strs.foldl (olayerResetStream P) o).stream i = o.stream i) := by
  induction strs generalizing o with
  | nil => exact ⟨fun h => absurd h List.not_mem_nil, fun _ => rfl⟩
  | cons x strs ih =>
      have hx := hlt x List.mem_cons_self
      obtain ⟨hin, hout⟩ := ih (fun y hy => hlt y (List.mem_cons_of_mem _ hy))
        (olayerResetStream P o x)
      rw [List.foldl_cons]
      constructor
      · intro hi
        by_cases his : i ∈ strs
        · exact hin his
        · -- reset here and not touched by the rest of the loop
          obtain rfl : i = x := (List.mem_cons.mp hi).resolve_right his
          rw [hout his]
          exact olayerResetStream_fresh o hx
      · intro hi
        rw [List.mem_cons, not_or] at hi
        rw [hout hi.2, olayerResetStream_frame o hx i hi.1]

/-! ### Steps -/

/-- The queue has room for every id. -/
theorem nrStreams_le_freeStreamRoom : P.nrStreams ≤ P.freeStreamRoom := by
  have := Nat.le_pow_clog Nat.one_lt_two P.nrStreams
  unfold Params.freeStreamRoom
  omega

theorem register_queue (st : Registry) (nr : ℕ) (param : InitParam) :
    (st.register P nr param).freeStreamQ = st.freeStreamQ.drop (min nr P.nrStreams) ∧
      (st.register P nr param).held = st.freeStreamQ.take (min nr P.nrStreams) :: st.held := by
  have hmin : (if nr > P.nrStreams then P.nrStreams else nr) = min nr P.nrStreams := by
    split_ifs <;> omega
  simp only [Registry.register, olayerRegisterStreams, hmin, and_self]

theorem lt_of_held {st : Registry}
    (h : Pool.Conserved (List.range P.nrStreams) st.freeStreamQ st.held) {ids : List ℕ}
    (hids : ids ∈ st.held) {i : ℕ} (hi : i ∈ ids) : i < P.nrStreams :=
  List.mem_range.mp (h.mem_all_of_held hids hi)

/-- All the ids go back to the queue. -/
theorem unregister_queue {st : Registry}
    (h : Pool.Conserved (List.range P.nrStreams) st.freeStreamQ st.held) {k : ℕ}
    {ids strs : List ℕ} (hk : st.held[k]? = some ids) (hperm : strs.Perm ids) :
    (strs.take strs.length).take (P.freeStreamRoom - st.freeStreamQ.length) = strs := by
  have hlen := h.length_add_le (List.mem_of_getElem? hk)
  rw [List.length_range] at hlen
  have hroom := nrStreams_le_freeStreamRoom (P := P)
  rw [List.take_length, List.take_of_length_le]
  rw [hperm.length_eq]
  omega

namespace RegistryInv

variable {st : Registry}

theorem register (h : RegistryInv P st) (nr : ℕ) (param : InitParam) :
    RegistryInv P (st.register P nr param) := by
  obtain ⟨hq, hheld⟩ := register_queue (P := P) st nr param
  refine ⟨?_, fun i hi => ?_⟩
  · rw [hq, hheld]
    exact h.conserved.take _
  · rw [hq] at hi
    exact h.fresh i (List.mem_of_mem_drop hi)

theorem unregister (h : RegistryInv P st) {k : ℕ} {ids strs : List ℕ}
    (hk : st.held[k]? = some ids) (hperm : strs.Perm ids) (devs : List DevT) :
    RegistryInv P
      { o := (olayerUnregisterStreams P st.o st.freeStreamQ strs.length strs devs).1
        freeStreamQ := (olayerUnregisterStreams P st.o st.freeStreamQ strs.length strs devs).2
        held := st.held.eraseIdx k } := by
  have hlt : ∀ x ∈ strs, x < P.nrStreams := fun x hx =>
    lt_of_held h.conserved (List.mem_of_getElem? hk) (hperm.mem_iff.mp hx)
  simp only [olayerUnregisterStreams, unregister_queue h.conserved hk hperm]
  refine ⟨h.conserved.give hk hperm, fun i hi => ?_⟩
  have hloop := resetLoop_stream hlt
    { st.o with
      registeredList := devs.foldl (fun list d => list.eraseP (·.devId = d)) st.o.registeredList } i
  by_cases his : i ∈ strs
  · exact hloop.1 his
  · show ((strs.foldl (olayerResetStream P) _).stream i).Fresh
    rw [hloop.2 his]
    exact h.fresh i ((List.mem_append.mp hi).resolve_right his)

/-- The calls of a registrant do not reach the free streams. -/
theorem call (h : RegistryInv P st) {k sid : ℕ} {op : ClientOp} {st' : Registry}
    (hstep : st.call P fuel k sid op = some st') : RegistryInv P st' := by
  obtain ⟨ids, hk, hcall⟩ := Option.bind_eq_some_iff.mp hstep
  split_ifs at hcall with hsid
  obtain ⟨o', ho', rfl⟩ := Option.map_eq_some_iff.mp hcall
  have hids := List.mem_of_getElem? hk
  refine ⟨h.conserved, fun i hi => ?_⟩
  have hne : i ≠ sid := by
    rintro rfl
    exact h.conserved.not_held List.nodup_range hi hids hsid
  rw [runClientOp_frame (lt_of_held h.conserved hids hsid) ho' i hne]
  exact h.fresh i hi

theorem idsConserved (h : RegistryInv P st) : IdsConserved P st where
  perm := h.conserved
  handed := by
    intro nr param
    refine ⟨_, (register_queue st nr param).2, List.length_take, fun i hi => ?_⟩
    have hfree := List.mem_of_mem_take hi
    exact ⟨fun other hother => h.conserved.not_held List.nodup_range hfree hother,
      h.fresh i hfree⟩

end RegistryInv

/-- **One call** keeps the invariant. -/
theorem registry_step {st st' : Registry} {op : RegistryOp} (h : RegistryInv P st)
    (hstep : st.step P fuel op = some st') : RegistryInv P st' := by
  cases op with
  | register nr param =>
      obtain rfl := Option.some.inj hstep
      exact h.register nr param
  | unregister k strs devs =>
      obtain ⟨ids, hk, hperm⟩ := Option.bind_eq_some_iff.mp hstep
      split_ifs at hperm with hp
      obtain rfl := Option.some.inj hperm
      exact h.unregister hk hp devs
  | call k sid op => exact h.call hstep

theorem registryInv_init (mem : ℕ → ℕ → Ometa) (lastTxid : ℕ → ℕ) (cmb : ℕ → Ometa) :
    RegistryInv P (Registry.init P mem lastTxid cmb) where
  conserved := by
    show (List.range P.nrStreams ++ [].flatten).Perm _
    rw [List.flatten_nil, List.append_nil]
  fresh := fun _ _ => ⟨rfl, rfl, rfl, rfl, rfl⟩

/-- **Stream ids are conserved** by every sequence of registrations, unregistrations and
calls on the streams in between. -/
theorem stream_ids_conserved (P : Params) (fuel : ℕ) (mem : ℕ → ℕ → Ometa) (lastTxid : ℕ → ℕ)
    (cmb : ℕ → Ometa) (ops : List RegistryOp) (st : Registry)
    (hrun : Run.run (Registry.step P fuel) (Registry.init P mem lastTxid cmb) ops = some st) :
    IdsConserved P st :=
  (Run.run_keeps (fun _ _ _ h hstep => registry_step h hstep)
    (registryInv_init mem lastTxid cmb) hrun).idsConserved

/-- A file system on minor 0. -/
def tinyParam : InitParam := ⟨[⟨⟨259, 0⟩, 7⟩], 4⟩

/-- A registrant of three ids submits on one of them and gives them back in another order;
a registrant that asks for more than there are meanwhile has the others. -/
def threeRegistrants : List RegistryOp :=
  [.register 3 tinyParam, .register 100 tinyParam, .register 1 tinyParam,
    .call 2 1 (.submitBio (fun _ _ => .unlocked) (pages 10 1)), .unregister 2 [2, 0, 1] [⟨259, 0⟩],
    .register 2 tinyParam]

theorem stream_ids_conserved_threeRegistrants :
    ∃ st, Run.run (Registry.step Params.tiny 2) (Registry.init Params.tiny (fun _ _ => Ometa.zero)
        (fun _ => 0) fun _ => Ometa.zero) threeRegistrants = some st ∧
      st.freeStreamQ = [1] ∧ st.held.map List.length = [2, 0, 61] ∧
        IdsConserved Params.tiny st := by
  have hrun : ∃ st, Run.run (Registry.step Params.tiny 2) (Registry.init Params.tiny
      (fun _ _ => Ometa.zero) (fun _ => 0) fun _ => Ometa.zero) threeRegistrants = some st ∧
      st.freeStreamQ = [1] ∧ st.held.map List.length = [2, 0, 61] := by
    decide +kernel
  obtain ⟨st, hst, hq, hheld⟩ := hrun
  exact ⟨st, hst, hq, hheld, stream_ids_conserved Params.tiny 2 _ _ _ threeRegistrants st hst⟩

/-! ### Resets as steps of their own -/

/-- `olayer_unregister_streams` up to the reset loop; returned are also the ids it puts in
the queue, whose streams it has still to reset. -/
def unregisterPut (P : Params) (o : Olayer) (freeStreamQ : List ℕ) (nr : ℕ) (strs : List ℕ)
    (devs : List DevT) : Olayer × List ℕ × List ℕ :=
  let o := { o with
    registeredList := devs.foldl (fun list d => list.eraseP (·.devId = d)) o.registeredList }
  let unregistered := (strs.take nr).take (P.freeStreamRoom - freeStreamQ.length)
  (o, freeStreamQ ++ unregistered, unregistered)

/-- The registry with the unregistrations in progress. -/
structure Unregistering extends Registry where
  /-- what each of them has still to reset -/
  resetting : List (List ℕ)

inductive UnregisterOp where
  | register (nr : ℕ) (param : InitParam)
  /-- the `k`-th registrant enters `olayer_unregister_streams` and puts its ids in the queue -/
  | put (k : ℕ) (strs : List ℕ) (devs : List DevT)
  /-- the `j`-th unregistration in progress calls `olayer_reset_stream` once -/
  | reset (j : ℕ)
  | call (k sid : ℕ) (op : ClientOp)

def Unregistering.step (P : Params) (fuel : ℕ) (st : Unregistering) :
    UnregisterOp → Option Unregistering
  | .register nr param => some { st with toRegistry := st.register P nr param }
  | .put k strs devs =>
      (st.held[k]?).bind fun ids =>
        if strs.Perm ids then
          let r := unregisterPut P st.o st.freeStreamQ strs.length strs devs
          some
            { o := r.1
              freeStreamQ := r.2.1
              held := st.held.eraseIdx k
              resetting := st.resetting ++ [r.2.2] }
        else none
  | .reset j =>
      match st.resetting[j]? with
      | some (x :: rest) =>
          some { st with o := olayerResetStream P st.o x, resetting := st.resetting.set j rest }
      | _ => none
  | .call k sid op => (st.call P fuel k sid op).map fun r => { st with toRegistry := r }

/-- **The property.**  A reset is applied to a stream that is registered to no one, and so
leaves the stream of every owner as it was. -/
structure ResetsUnowned (P : Params) (st : Unregistering) (op : UnregisterOp) : Prop where
  unowned : ∀ j x rest, op = .reset j → st.resetting[j]? = some (x :: rest) →
    ∀ ids ∈ st.held, x ∉ ids
  keeps : ∀ j x rest, op = .reset j → st.resetting[j]? = some (x :: rest) →
    ∀ ids ∈ st.held, ∀ i ∈ ids, (olayerResetStream P st.o x).stream i = st.o.stream i

/-- A registration takes no id whose stream is still to be reset. -/
def TakesReset (P : Params) (st : Unregistering) : UnregisterOp → Prop
  | .register nr _ =>
      ∀ x ∈ st.freeStreamQ.take (min nr P.nrStreams), ∀ xs ∈ st.resetting, x ∉ xs
  | _ => True

structure UnregisteringInv (P : Params) (st : Unregistering) : Prop where
  conserved : Pool.Conserved (List.range P.nrStreams) st.freeStreamQ st.held
  lt : ∀ xs ∈ st.resetting, ∀ x ∈ xs, x < P.nrStreams
  unowned : ∀ xs ∈ st.resetting, ∀ x ∈ xs, ∀ ids ∈ st.held, x ∉ ids

/-- Alone, the steps of an unregistration are `olayer_unregister_streams`. -/
theorem solo_unregister {st : Registry} {k : ℕ} {ids strs : List ℕ} (hk : st.held[k]? = some ids)
    (hperm : strs.Perm ids) (devs : List DevT) :
    ∃ n st', Run.run (Unregistering.step P fuel) ⟨st, []⟩
        (.put k strs devs :: List.replicate n (.reset 0)) = some st' ∧
      st.step P fuel (.unregister k strs devs) = some st'.toRegistry := by
  have hresets : ∀ (xs : List ℕ) (r : Registry),
      Run.run (Unregistering.step P fuel) ⟨r, [xs]⟩ (List.replicate xs.length (.reset 0))
        = some ⟨{ r with o := xs.foldl (olayerResetStream P) r.o }, [[]]⟩ := by
    intro xs
    induction xs with
    | nil => exact fun _ => rfl
    | cons x xs ih => exact fun r => ih { r with o := olayerResetStream P r.o x }
  set r := unregisterPut P st.o st.freeStreamQ strs.length strs devs with hr
  refine ⟨r.2.2.length,
    ⟨⟨r.2.2.foldl (olayerResetStream P) r.1, r.2.1, st.held.eraseIdx k⟩, [[]]⟩, ?_, ?_⟩
  · rw [Run.run_cons, Unregistering.step, hk, Option.bind_some, if_pos hperm]
    exact hresets r.2.2 ⟨r.1, r.2.1, st.held.eraseIdx k⟩
  · rw [Registry.step, hk, Option.bind_some, if_pos hperm]
    rfl

namespace UnregisteringInv

variable {st : Unregistering}

theorem resetsUnowned (h : UnregisteringInv P st) (op : UnregisterOp) : ResetsUnowned P st op where
  unowned := fun _ _ _ _ hj => h.unowned _ (List.mem_of_getElem? hj) _ List.mem_cons_self
  keeps := by
    intro j x rest _ hj ids hids i hi
    have hx := List.mem_of_getElem? hj
    have hne : i ≠ x := by
      rintro rfl
      exact h.unowned _ hx _ List.mem_cons_self ids hids hi
    exact olayerResetStream_frame st.o (h.lt _ hx _ List.mem_cons_self) i hne

theorem register (h : UnregisteringInv P st) {nr : ℕ} {param : InitParam}
    (hsafe : TakesReset P st (.register nr param)) :
    UnregisteringInv P { st with toRegistry := st.register P nr param } := by
  obtain ⟨hq, hheld⟩ := register_queue (P := P) st.toRegistry nr param
  refine ⟨?_, h.lt, fun xs hxs x hx ids hids => ?_⟩
  · rw [hq, hheld]
    exact h.conserved.take _
  · rw [hheld, List.mem_cons] at hids
    rcases hids with rfl | hids
    · exact fun hxt => hsafe x hxt xs hxs hx
    · exact h.unowned xs hxs x hx ids hids

theorem put (h : UnregisteringInv P st) {k : ℕ} {ids strs : List ℕ} (hk : st.held[k]? = some ids)
    (hperm : strs.Perm ids) (devs : List DevT) :
    UnregisteringInv P
      { o := (unregisterPut P st.o st.freeStreamQ strs.length strs devs).1
        freeStreamQ := (unregisterPut P st.o st.freeStreamQ strs.length strs devs).2.1
        held := st.held.eraseIdx k
        resetting := st.resetting ++
          [(unregisterPut P st.o st.freeStreamQ strs.length strs devs).2.2] } := by
  simp only [unregisterPut, unregister_queue h.conserved hk hperm]
  have hlater : ∀ {xs}, xs ∈ st.resetting ++ [strs] → xs ∈ st.resetting ∨ xs = strs := fun hxs =>
    (List.mem_append.mp hxs).imp_right List.mem_singleton.mp
  refine ⟨h.conserved.give hk hperm, fun xs hxs x hx => ?_, fun xs hxs x hx ids' hids' => ?_⟩
  · rcases hlater hxs with hxs | rfl
    · exact h.lt xs hxs x hx
    · exact lt_of_held h.conserved (List.mem_of_getElem? hk) (hperm.mem_iff.mp hx)
  · rcases hlater hxs with hxs | rfl
    · exact h.unowned xs hxs x hx ids' (List.mem_of_mem_eraseIdx hids')
    · exact h.conserved.not_held_by_other List.nodup_range hk (hperm.mem_iff.mp hx) hids'

theorem reset (h : UnregisteringInv P st) {j x : ℕ} {rest : List ℕ}
    (hj : st.resetting[j]? = some (x :: rest)) (o : Olayer) :
    UnregisteringInv P { st with o := o, resetting := st.resetting.set j rest } := by
  have hsub : ∀ {xs y}, xs ∈ st.resetting.set j rest → y ∈ xs →
      ∃ ys ∈ st.resetting, y ∈ ys := by
    intro xs y hxs hy
    rcases List.mem_or_eq_of_mem_set hxs with hxs | rfl
    · exact ⟨xs, hxs, hy⟩
    · exact ⟨_, List.mem_of_getElem? hj, List.mem_cons_of_mem _ hy⟩
  refine ⟨h.conserved, fun xs hxs y hy => ?_, fun xs hxs y hy ids hids => ?_⟩
  · obtain ⟨ys, hys, hy⟩ := hsub hxs hy
    exact h.lt ys hys y hy
  · obtain ⟨ys, hys, hy⟩ := hsub hxs hy
    exact h.unowned ys hys y hy ids hids

end UnregisteringInv

/-- **One safe step** keeps the invariant. -/
theorem unregistering_step {st st' : Unregistering} {op : UnregisterOp}
    (h : UnregisteringInv P st) (hsafe : TakesReset P st op)
    (hstep : st.step P fuel op = some st') : UnregisteringInv P st' := by
  cases op with
  | register nr param =>
      obtain rfl := Option.some.inj hstep
      exact h.register hsafe
  | put k strs devs =>
      obtain ⟨ids, hk, hput⟩ := Option.bind_eq_some_iff.mp hstep
      split_ifs at hput with hperm
      obtain rfl := Option.some.inj hput
      exact h.put hk hperm devs
  | reset j =>
      rw [Unregistering.step] at hstep
      rcases hj : st.resetting[j]? with - | - | ⟨x, rest⟩ <;> rw [hj] at hstep
      · cases hstep
      · cases hstep
      · obtain rfl := Option.some.inj hstep
        exact h.reset hj _
  | call k sid op =>
      obtain ⟨r, hcall, rfl⟩ := Option.map_eq_some_iff.mp hstep
      obtain ⟨ids, -, hop⟩ := Option.bind_eq_some_iff.mp hcall
      split_ifs at hop
      obtain ⟨o', -, rfl⟩ := Option.map_eq_some_iff.mp hop
      exact ⟨h.conserved, h.lt, h.unowned⟩

/-- The module just loaded. -/
def Unregistering.init (P : Params) (mem : ℕ → ℕ → Ometa) (lastTxid : ℕ → ℕ) (cmb : ℕ → Ometa) :
    Unregistering :=
  ⟨Registry.init P mem lastTxid cmb, []⟩

/-- **A stream is not reset under its owner**, in any order of the steps of registrations,
unregistrations and calls, when no registration takes an id whose stream is still to be
reset. -/
theorem resets_unowned (P : Params) (fuel : ℕ) (mem : ℕ → ℕ → Ometa) (lastTxid : ℕ → ℕ)
    (cmb : ℕ → Ometa) (ops : List UnregisterOp)
    (hsafe : Run.Along (Unregistering.step P fuel) (TakesReset P)
      (Unregistering.init P mem lastTxid cmb) ops) :
    Run.Along (Unregistering.step P fuel) (ResetsUnowned P)
      (Unregistering.init P mem lastTxid cmb) ops := by
  have hinit : UnregisteringInv P (Unregistering.init P mem lastTxid cmb) :=
    ⟨(registryInv_init mem lastTxid cmb).conserved, nofun, nofun⟩
  exact Run.along_of_invariant (fun _ op h _ => h.resetsUnowned op)
    (fun _ _ _ h hs hstep => unregistering_step h hs hstep) hinit hsafe

def tinyUnregistering : Unregistering :=
  Unregistering.init Params.tiny (fun _ _ => Ometa.zero) (fun _ => 0) fun _ => Ometa.zero

/-- The first registrant has put its id 0 in the queue and is about to reset stream 0, when
another takes all ids and submits on stream 0. -/
def resetRace : List UnregisterOp :=
  [.register 1 tinyParam, .put 0 [0] [⟨259, 0⟩], .register 64 tinyParam,
    .call 0 0 (.submitBio (fun _ _ => .unlocked) (pages 10 1))]

/-- The entry of the new owner is wiped. -/
theorem reset_wipes_new_entry :
    (∃ st, Run.run (Unregistering.step Params.tiny 2) tinyUnregistering resetRace = some st ∧
      st.resetting = [[0]] ∧ (∃ ids ∈ st.held, 0 ∈ ids) ∧ (st.o.stream 0).tail = 1 ∧
        ((st.o.stream 0).ometa 0).lba = 10) ∧
    ∃ st, Run.run (Unregistering.step Params.tiny 2) tinyUnregistering (resetRace ++ [.reset 0])
        = some st ∧
      (∃ ids ∈ st.held, 0 ∈ ids) ∧ (st.o.stream 0).tail = 0 ∧
        (st.o.stream 0).ometa 0 = Ometa.zero := by
  decide +kernel

instance (st : Unregistering) : (op : UnregisterOp) → Decidable (TakesReset P st op)
  | .register nr _ => inferInstanceAs (Decidable
      (∀ x ∈ st.freeStreamQ.take (min nr P.nrStreams), ∀ xs ∈ st.resetting, x ∉ xs))
  | .put .. | .reset _ | .call .. => inferInstanceAs (Decidable True)

/-- The reset comes before the other registration, or that one leaves the id in the queue. -/
def resetInTime : List UnregisterOp :=
  [.register 1 tinyParam, .put 0 [0] [⟨259, 0⟩], .register 63 tinyParam, .reset 0,
    .register 1 tinyParam, .call 0 0 (.submitBio (fun _ _ => .unlocked) (pages 10 1)),
    .put 1 (List.range' 1 63) [⟨259, 0⟩], .reset 1]

theorem resets_unowned_resetInTime :
    (Run.run (Unregistering.step Params.tiny 2) tinyUnregistering resetInTime).isSome = true ∧
      Run.Along (Unregistering.step Params.tiny 2) (ResetsUnowned Params.tiny) tinyUnregistering
        resetInTime :=
  ⟨by decide +kernel, resets_unowned Params.tiny 2 _ _ _ resetInTime (by decide +kernel)⟩

end CcNvme

/-
CcNvme/ControllerMemory.lean

Controller memory, byte by byte.  The other modules see it as a list of queue
entries; here it is what `ioremap_wc` returned: the entries are copied into it by
`copy_from_buff_to_dev`, 64 bytes at a time from the ring in host memory, and each
commit of any stream stores `tail` with `writel` at its first byte.

`byteRefines_step` shows that the entries the other modules work with are what
these bytes encode.  `queue_mirror_iff` is about the bytes themselves: every live
entry is mirrored, and no stream touches the region of another, along exactly the
runs in which no commit changes the first four bytes while they matter.
-/
import CcNvme.RingLog
import CcNvme.Fsync
import CcNvme.Lib.Bytes

namespace CcNvme

open Bytes (Mem)

/-! ### Layout -/

/-- `ometa_size`, the bytes of one stream's ring. -/
def Params.ometaSize (P : Params) : ℕ := P.nrOmeta * 64

/-- `off_in_cmb` of stream `sid`. -/
def Params.offInCmb (P : Params) (sid : ℕ) : ℕ := sid * P.ometaSize

/-- The fields of the `c`-th `struct nvme_rw_command_` in a memory: `tag` and `device_id`
are the lowest 3 and the highest 8 bits of one `u32`. -/
def ometaAt (m : Mem) (c : ℕ) : Ometa where
  lba := Bytes.read m (64 * c) 8
  length := Bytes.read m (64 * c + 8) 2
  txid := Bytes.read m (64 * c + 16) 8
  tag := BitVec.ofNat 3 (Bytes.read m (64 * c + 24) 4)
  deviceId := Bytes.read m (64 * c + 24) 4 / 2 ^ 24
  plba := Bytes.read m (64 * c + 28) 4

/-- `ometa->device_id = id` -/
def storeDeviceId (m : Mem) (c id : ℕ) : Mem :=
  Bytes.write m (64 * c + 24) 4
    (Bytes.read m (64 * c + 24) 4 % 2 ^ 24 + id % 2 ^ 8 * 2 ^ 24)

/-- `ometa->tag = 0; ometa->tag |= tag` -/
def storeTag (m : Mem) (c : ℕ) (tag : BitVec 3) : Mem :=
  Bytes.write m (64 * c + 24) 4 (Bytes.read m (64 * c + 24) 4 / 8 * 8 + tag.toNat)

/-- The stores of `stream_submit_bio_core` to the slot it has reserved. -/
def storeEntry (m : Mem) (c : ℕ) (committed : Bool) (a : SubmitArgs) : Mem :=
  let m := storeDeviceId m c a.deviceId
  let m := Bytes.write m (64 * c) 8 a.lba
  let m := Bytes.write m (64 * c + 8) 2 a.nrPages
  let m := Bytes.write m (64 * c + 28) 4 a.plba
  storeTag m c (submitTag committed a.flags)

/-- `copy_from_buff_to_dev`, with the offset of the data in the ring for its address. -/
def copyFromBuffToDev (P : Params) (dev ring : Mem) (sid dataOff dataLen : ℕ) : Mem :=
  let buffOff := dataOff % P.ometaSize % 2 ^ 32
  let buffLeft := (P.ometaSize - buffOff) % 2 ^ 32
  if buffLeft < dataLen then
    Bytes.copy (Bytes.copy dev (P.offInCmb sid + buffOff) ring dataOff buffLeft)
      (P.offInCmb sid) ring 0 (dataLen - buffLeft)
  else Bytes.copy dev (P.offInCmb sid + buffOff) ring dataOff dataLen

/-- `writel(v, dev_addr)` -/
def writel (dev : Mem) (v : ℕ) : Mem := Bytes.write dev 0 4 (v % 2 ^ 32)

/-! ### The machine -/

/-- The module, the bytes of the rings in host memory, the bytes of controller memory, and
the 64 bytes that the last submit to each slot has stored in host memory. -/
structure ByteState where
  o : Olayer
  host : ℕ → Mem
  dev : Mem
  stored : ℕ → ℕ → Mem

variable (P : Params) (fuel : ℕ)

/-- The state after a commit: `tail` goes to the first bytes of controller memory. -/
def ByteState.afterCommit (st : ByteState) (i txid : ℕ) : ByteState where
  o := streamCommitTx st.o i txid
  host := Function.update st.host i
    (storeTag (st.host i) (st.o.stream i).tail HoraeFlag.txEnd.bit)
  dev := writel st.dev (st.o.stream i).tail
  stored := st.stored

/-- One operation on a stream, with the bytes it stores. -/
def ByteState.step (st : ByteState) : Fin P.nrStreams × RingOp → Option ByteState
  | (i, .submit bc a) =>
      (streamSubmitBioCore P bc i a fuel st.o).map fun q =>
        let ring := storeEntry (st.host i) q.2 (st.o.stream i).committed a
        { o := q.1
          host := Function.update st.host i ring
          dev := copyFromBuffToDev P st.dev ring i (64 * q.2) 64
          stored := Function.update st.stored i
            (Function.update (st.stored i) q.2 fun j => ring (64 * q.2 + j)) }
  | (i, .commitTx txid) => some (st.afterCommit i txid)
  | (i, .reset) =>
      some { st with
        o := olayerResetStream P st.o i
        host := Function.update st.host i fun x => if x < P.ometaSize then 0 else st.host i x }
  | (i, op) => (runOp P fuel i st.o op).map fun o => { st with o := o }

theorem ByteState.step_o (st : ByteState) (i : Fin P.nrStreams) (op : RingOp) :
    (st.step P fuel (i, op)).map (·.o) = runOp P fuel i st.o op := by
  cases op with
  | submit bc a =>
      simp only [ByteState.step, runOp, Option.map_map]
      rfl
  | commitTx txid => rfl
  | flush bdevs => rfl
  | wrap bc =>
      simp only [ByteState.step, runOp, Option.map_map]
      exact Option.map_id'
  | reset => rfl

/-! ### Bytes and entries -/

/-- An entry is its 64 bytes. -/
theorem ometaAt_congr {m m' : Mem} {c c' : ℕ}
    (h : ∀ j < 64, m (64 * c + j) = m' (64 * c' + j)) : ometaAt m c = ometaAt m' c' := by
  have hread : ∀ off n, off + n ≤ 64 →
      Bytes.read m (64 * c + off) n = Bytes.read m' (64 * c' + off) n := by
    intro off n hle
    refine Bytes.read_congr fun j hj => ?_
    rw [Nat.add_assoc, Nat.add_assoc]
    exact h (off + j) (by omega)
  have hlba := hread 0 8 (by omega)
  rw [Nat.add_zero, Nat.add_zero] at hlba
  simp only [ometaAt, hlba, hread 8 2 (by omega), hread 16 8 (by omega), hread 24 4 (by omega),
    hread 28 4 (by omega)]

/-- The stores of a submit stay in their slot. -/
theorem storeEntry_outside (m : Mem) {c x : ℕ} (committed : Bool) (a : SubmitArgs)
    (hx : x < 64 * c ∨ 64 * c + 64 ≤ x) : storeEntry m c committed a x = m x := by
  unfold storeEntry storeTag storeDeviceId
  rw [Bytes.write_outside _ _ (by omega), Bytes.write_outside _ _ (by omega),
    Bytes.write_outside _ _ (by omega), Bytes.write_outside _ _ (by omega),
    Bytes.write_outside _ _ (by omega)]

theorem storeTag_outside (m : Mem) {c x : ℕ} (tag : BitVec 3)
    (hx : x < 64 * c ∨ 64 * c + 64 ≤ x) : storeTag m c tag x = m x :=
  Bytes.write_outside _ _ (by omega)

/-- A store to the tag leaves the other fields of the entry alone. -/
theorem ometaAt_storeTag (m : Mem) (c : ℕ) (tag : BitVec 3) :
    ometaAt (storeTag m c tag) c = { ometaAt m c with tag := tag } := by
  have hw : Bytes.read m (64 * c + 24) 4 < 256 ^ 4 := Bytes.read_lt m _ _
  have ht : tag.toNat < 8 := tag.isLt
  simp (disch := omega) only [ometaAt, storeTag, Bytes.read_write_of_apart,
    Bytes.read_write_self]
  generalize Bytes.read m (64 * c + 24) 4 = w at hw ⊢
  simp only [Ometa.mk.injEq, true_and, and_true]
  constructor
  · apply BitVec.eq_of_toNat_eq
    rw [BitVec.toNat_ofNat]
    omega
  · omega

/-- **The stores of a submit fill the entry**, each field cut to its width. -/
theorem ometaAt_storeEntry (m : Mem) (c : ℕ) (committed : Bool) (a : SubmitArgs) :
    ometaAt (storeEntry m c committed a) c = fillOmeta (ometaAt m c) committed a := by
  unfold storeEntry
  rw [ometaAt_storeTag]
  -- the loads, from the last store back to the first
  simp (disch := omega) only [ometaAt, storeDeviceId, Bytes.read_write_of_apart,
    Bytes.read_write_self, fillOmeta]
  generalize Bytes.read m (64 * c + 24) 4 = w
  simp only [Ometa.mk.injEq, true_and]
  refine ⟨by norm_num, by norm_num, by omega, by norm_num⟩

/-- The doorbell replaces the low half of the first `lba`. -/
theorem ometaAt_writel (dev : Mem) (v : ℕ) :
    ometaAt (writel dev v) 0 = { ometaAt dev 0 with
      lba := (ometaAt dev 0).lba / 2 ^ 32 * 2 ^ 32 + v % 2 ^ 32 } := by
  have hlow : Bytes.read dev 0 4 < 256 ^ 4 := Bytes.read_lt dev _ _
  have hsplit : ∀ m : Mem, Bytes.read m 0 8 = Bytes.read m 0 4 + 256 ^ 4 * Bytes.read m 4 4 :=
    fun m => Bytes.read_add m 0 4 4
  simp (disch := omega) only [ometaAt, writel, Nat.mul_zero, hsplit, Bytes.read_write_of_apart,
    Bytes.read_write_self]
  generalize Bytes.read dev 4 4 = hi
  simp only [Ometa.mk.injEq, and_true]
  omega

theorem writel_outside (dev : Mem) {x : ℕ} (v : ℕ) (hx : 4 ≤ x) : writel dev v x = dev x :=
  Bytes.write_outside _ _ (by omega)

/-! ### Places in controller memory -/

variable {P}

theorem ometaSize_lt : P.ometaSize < 2 ^ 31 := by
  have h1 : P.nrOmeta ≤ P.ologSize / 64 := Nat.div_le_self _ _
  have := P.ologSize_lt
  unfold Params.ometaSize
  omega

/-- Slot `k` of stream `i` is at the place where the entry-wise view has it. -/
theorem offInCmb_add (i k : ℕ) : P.offInCmb i + 64 * k = 64 * cmbSlot P i k := by
  unfold Params.offInCmb Params.ometaSize cmbSlot
  ring

/-- The copy of one entry never meets the end of the ring. -/
theorem copyFromBuffToDev_eq (dev ring : Mem) (i : ℕ) {slot : ℕ} (hslot : slot < P.nrOmeta) :
    copyFromBuffToDev P dev ring i (64 * slot) 64
      = Bytes.copy dev (64 * cmbSlot P i slot) ring (64 * slot) 64 := by
  have hsize := ometaSize_lt (P := P)
  have hoff : 64 * slot % P.ometaSize % 2 ^ 32 = 64 * slot := by
    unfold Params.ometaSize at hsize ⊢
    have hlt : 64 * slot < P.nrOmeta * 64 := by omega
    rw [Nat.mod_eq_of_lt hlt, Nat.mod_eq_of_lt (by omega)]
  have hleft : ¬ (P.ometaSize - 64 * slot) % 2 ^ 32 < 64 := by
    unfold Params.ometaSize at hsize ⊢
    rw [Nat.mod_eq_of_lt (by omega)]
    omega
  unfold copyFromBuffToDev
  simp only [hoff, if_neg hleft, offInCmb_add]

/-- After the copy of one entry its place holds the bytes of the ring, and every other
place what it held. -/
theorem dev_after_copy {dev ring : Mem} {i slot : ℕ} (hslot : slot < P.nrOmeta) {c j : ℕ}
    (hj : j < 64) :
    copyFromBuffToDev P dev ring i (64 * slot) 64 (64 * c + j)
      = if c = cmbSlot P i slot then ring (64 * slot + j) else dev (64 * c + j) := by
  rw [copyFromBuffToDev_eq dev ring i hslot]
  split_ifs with hc
  · subst hc
    exact Bytes.copy_inside dev ring hj
  · exact Bytes.copy_outside dev ring (by omega)

/-! ### The entry-wise view -/

/-- The bytes encode the entries that the other modules work with. -/
structure ByteRefines (P : Params) (st : ByteState) : Prop where
  host : ∀ i < P.nrStreams, ∀ k < P.nrOmeta, ometaAt (st.host i) k = (st.o.stream i).ometa k
  cmb : ∀ i < P.nrStreams, ∀ k < P.nrOmeta,
    ometaAt st.dev (cmbSlot P i k) = st.o.cmb (cmbSlot P i k)

variable {fuel}

/-- A submit publishes in a slot that it has filled and mirrored. -/
theorem submit_cases {o : Olayer} {i : ℕ} (hN : 2 ≤ P.nrOmeta) (hfuel : 2 ≤ fuel)
    (h : ∃ H F T, Cursors P (o.stream i) H F T) (bc : BufferCache) (a : SubmitArgs) :
    ∃ H F T H' F' o₁, Cursors P (o.stream i) H F T ∧ H ≤ H' ∧ CheckpointOf P bc i o o₁ ∧
      Cursors P ((publish P o₁ i a (T % P.nrOmeta) ((T + 1) % P.nrOmeta)).stream i)
        H' F' (T + 1) ∧
      streamSubmitBioCore P bc i a fuel o
        = some (publish P o₁ i a (T % P.nrOmeta) ((T + 1) % P.nrOmeta), T % P.nrOmeta) := by
  obtain ⟨H, F, T, hcur⟩ := h
  obtain ⟨o₁, hck, hcore⟩ := streamSubmitBioCore_spec bc hN hfuel a hcur
  have hroom : Cursors P (o₁.stream i) _ _ T := hck.self ▸ hcur.makeRoom i
  exact ⟨H, F, T, _, _, o₁, hcur, (roomCounters_le hcur.head_le hcur.flushed_le).1, hck,
    hroom.publish a (roomCounters_window hN hcur.head_le hcur.window), hcore⟩

theorem ometaAt_of_zero {m : Mem} {c : ℕ} (h : ∀ j < 64, m (64 * c + j) = 0) :
    ometaAt m c = Ometa.zero := by
  have hzero : ometaAt m c = ometaAt (fun _ => 0) 0 := ometaAt_congr h
  rw [hzero]
  decide

theorem publish_ometa (o : Olayer) (sid : ℕ) (a : SubmitArgs) (slot next : ℕ) :
    ((publish P o sid a slot next).stream sid).ometa
      = Function.update (o.stream sid).ometa slot
          (fillOmeta ((o.stream sid).ometa slot) (o.stream sid).committed a) := by
  rw [publish_stream]

/-- The entries after a submit, in host memory and in controller memory. -/
theorem ByteRefines.submit {st : ByteState} (h : ByteRefines P st) {i slot next : ℕ}
    (hslot : slot < P.nrOmeta) {o₁ : Olayer} {bc : BufferCache} (hck : CheckpointOf P bc i st.o o₁)
    (a : SubmitArgs) (stored : ℕ → ℕ → Mem) :
    ByteRefines P
      ⟨publish P o₁ i a slot next,
        Function.update st.host i (storeEntry (st.host i) slot (st.o.stream i).committed a),
        copyFromBuffToDev P st.dev (storeEntry (st.host i) slot (st.o.stream i).committed a) i
          (64 * slot) 64, stored⟩ := by
  set ring := storeEntry (st.host i) slot (st.o.stream i).committed a with hring
  have hometa : (o₁.stream i).ometa = (st.o.stream i).ometa := by
    rw [hck.self, Stream.makeRoom_ometa]
  have hcommitted : (o₁.stream i).committed = (st.o.stream i).committed := by
    rw [hck.self, Stream.makeRoom_committed]
  -- the slot that was filled, when the stream exists
  have hentry : i < P.nrStreams → ometaAt ring slot
      = fillOmeta ((st.o.stream i).ometa slot) (st.o.stream i).committed a := by
    intro hi
    rw [hring, ometaAt_storeEntry, h.host i hi slot hslot]
  constructor
  · intro i' hi' k hk
    show ometaAt (Function.update st.host i ring i') k = _
    rcases eq_or_ne i' i with rfl | hne
    · rw [Function.update_self, publish_ometa, hometa, hcommitted]
      rcases eq_or_ne k slot with rfl | hks
      · rw [hentry hi', Function.update_self]
      · have hsame : ometaAt ring k = ometaAt (st.host i') k :=
          ometaAt_congr fun j hj => storeEntry_outside _ _ _ (by omega)
        rw [hsame, h.host i' hi' k hk, Function.update_of_ne hks]
    · rw [Function.update_of_ne hne, publish_stream_of_ne _ _ _ _ hne, hck.stream,
        Function.update_of_ne hne]
      exact h.host i' hi' k hk
  · intro i' hi' k hk
    show ometaAt (copyFromBuffToDev P st.dev ring i (64 * slot) 64) _ = _
    rw [publish_cmb, hometa, hcommitted, hck.cmb]
    rcases eq_or_ne (cmbSlot P i' k) (cmbSlot P i slot) with heq | hne
    · obtain ⟨rfl, rfl⟩ := cmbSlot_inj hk hslot heq
      rw [Function.update_self, ← hentry hi']
      refine ometaAt_congr fun j hj => ?_
      rw [dev_after_copy hslot hj, if_pos rfl]
    · rw [Function.update_of_ne hne, ← h.cmb i' hi' k hk]
      refine ometaAt_congr fun j hj => ?_
      rw [dev_after_copy hslot hj, if_neg hne]

/-- The entries after a commit: the tag at `tail` in host memory, the doorbell in controller
memory. -/
theorem ByteRefines.commit {st : ByteState} (h : ByteRefines P st) (i txid : ℕ) :
    ByteRefines P (st.afterCommit i txid) := by
  constructor
  · intro i' hi' k hk
    show ometaAt (Function.update st.host i _ i') k
      = ((streamCommitTx st.o i txid).stream i').ometa k
    rcases eq_or_ne i' i with rfl | hne
    · rw [Function.update_self, streamCommitTx_stream]
      dsimp only
      rcases eq_or_ne k (st.o.stream i').tail with rfl | hkt
      · rw [ometaAt_storeTag, h.host i' hi' _ hk, Function.update_self]
      · have hsame : ometaAt (storeTag (st.host i') (st.o.stream i').tail HoraeFlag.txEnd.bit) k
            = ometaAt (st.host i') k :=
          ometaAt_congr fun j hj => storeTag_outside _ _ (by omega)
        rw [hsame, h.host i' hi' k hk, Function.update_of_ne hkt]
    · have hother : (streamCommitTx st.o i txid).stream i' = st.o.stream i' :=
        Olayer.setStream_of_ne _ hne
      rw [Function.update_of_ne hne, hother]
      exact h.host i' hi' k hk
  · intro i' hi' k hk
    show ometaAt (writel st.dev _) _ = doorbell st.o.cmb (st.o.stream i).tail _
    rw [doorbell]
    rcases eq_or_ne (cmbSlot P i' k) 0 with heq | hne
    · have hcmb := h.cmb i' hi' k hk
      rw [heq] at hcmb ⊢
      rw [ometaAt_writel, Function.update_self, hcmb]
    · rw [Function.update_of_ne hne, ← h.cmb i' hi' k hk]
      exact ometaAt_congr fun j hj => writel_outside _ _ (by omega)

/-- Operations that store no entry. -/
theorem ByteRefines.congr {st : ByteState} (h : ByteRefines P st) {o' : Olayer}
    (hometa : ∀ i < P.nrStreams, (o'.stream i).ometa = (st.o.stream i).ometa)
    (hcmb : o'.cmb = st.o.cmb) : ByteRefines P { st with o := o' } where
  host := fun i hi k hk => by rw [hometa i hi]; exact h.host i hi k hk
  cmb := fun i hi k hk => by rw [hcmb]; exact h.cmb i hi k hk

/-- The memory cleared by `olayer_reset_stream`. -/
theorem ByteRefines.reset {st : ByteState} (h : ByteRefines P st) {i : ℕ} (hi : i < P.nrStreams) :
    ByteRefines P { st with
      o := olayerResetStream P st.o i
      host := Function.update st.host i fun x => if x < P.ometaSize then 0 else st.host i x } := by
  refine ⟨fun i' hi' k hk => ?_, fun i' hi' k hk => h.cmb i' hi' k hk⟩
  show ometaAt (Function.update st.host i _ i') k = ((olayerResetStream P st.o i).stream i').ometa k
  rw [olayerResetStream, clampSid_of_lt hi]
  rcases eq_or_ne i' i with rfl | hne
  · rw [Function.update_self, Olayer.setStream_self]
    refine ometaAt_of_zero fun j hj => if_pos ?_
    unfold Params.ometaSize
    omega
  · rw [Function.update_of_ne hne, Olayer.setStream_of_ne _ hne]
    exact h.host i' hi' k hk

/-- **The bytes stay an encoding of the entries**, whatever operation runs. -/
theorem byteRefines_step {st : ByteState} (hN : 2 ≤ P.nrOmeta) (hfuel : 2 ≤ fuel)
    (hcur : ∀ i < P.nrStreams, ∃ H F T, Cursors P (st.o.stream i) H F T) (h : ByteRefines P st)
    {i : Fin P.nrStreams} {op : RingOp} {st' : ByteState}
    (hstep : st.step P fuel (i, op) = some st') : ByteRefines P st' := by
  obtain ⟨i, hi⟩ := i
  cases op with
  | submit bc a =>
      obtain ⟨-, -, T, -, -, o₁, -, -, hck, -, hcore⟩ := submit_cases hN hfuel (hcur i hi) bc a
      rw [ByteState.step, hcore, Option.map_some, Option.some.injEq] at hstep
      subst hstep
      exact h.submit (Nat.mod_lt _ nrOmeta_pos) hck a _
  | commitTx txid =>
      obtain rfl := Option.some.inj hstep
      exact h.commit i txid
  | flush bdevs =>
      obtain rfl := Option.some.inj hstep
      refine h.congr (fun i' _ => ?_) (flushOf st.o hi bdevs).cmb
      rcases eq_or_ne i' i with rfl | hne
      · exact (flush_stream st.o hi bdevs).1
      · rw [(flushOf st.o hi bdevs).others i' hne]
  | wrap bc =>
      obtain ⟨H, F, T, hc⟩ := hcur i hi
      obtain ⟨o₁, -, hsame, hwrap⟩ := journalWrap_spec bc hc.inRing.head_lt hc.inRing.flushed_lt
      rw [ByteState.step, runOp, hwrap, Option.map_some, Option.some.injEq] at hstep
      · subst hstep
        refine h.congr (fun i' _ => ?_) hsame.cmb
        rcases eq_or_ne i' i with rfl | hne
        · rw [Olayer.setStream_self]
          rfl
        · rw [Olayer.setStream_of_ne _ hne, hsame.stream]
      all_goals
        intros
        contradiction
  | reset =>
      obtain rfl := Option.some.inj hstep
      exact h.reset hi

/-! ### The mirror -/

/-- Every live slot is mirrored: its 64 bytes of controller memory are those that the last
submit to it has stored in host memory. -/
def Mirrors (P : Params) (st : ByteState) : Prop :=
  ∀ i < P.nrStreams, ∀ k ∈ slotsOf P (st.o.stream i).head (st.o.stream i).tail, ∀ j < 64,
    st.dev (P.offInCmb i + 64 * k + j) = st.stored i k j

/-- The regions of the other streams are as they were. -/
def ForeignUntouched (P : Params) (i : ℕ) (st st' : ByteState) : Prop :=
  ∀ i' < P.nrStreams, i' ≠ i → ∀ x, P.offInCmb i' ≤ x → x < P.offInCmb i' + P.ometaSize →
    st'.dev x = st.dev x

/-- The operation returns, all live slots are mirrored after it, and it stayed out of the
other regions. -/
def KeepsMirror (P : Params) (fuel : ℕ) (st : ByteState) (p : Fin P.nrStreams × RingOp) : Prop :=
  ∃ st', st.step P fuel p = some st' ∧ Mirrors P st' ∧ ForeignUntouched P p.1 st st'

/-- A commit of another stream than the first, or one while slot 0 of the first is live,
finds its `tail` in the first four bytes already. -/
def DoorbellHarmless (P : Params) (st : ByteState) : Fin P.nrStreams × RingOp → Prop
  | (i, .commitTx _) =>
      i.val ≠ 0 ∨ 0 ∈ slotsOf P (st.o.stream 0).head (st.o.stream 0).tail →
        Bytes.read st.dev 0 4 = (st.o.stream i).tail
  | _ => True

/-- A byte of a region is a byte of one of its slots. -/
theorem region_cases {i x : ℕ} (hlo : P.offInCmb i ≤ x) (hhi : x < P.offInCmb i + P.ometaSize) :
    ∃ k < P.nrOmeta, ∃ j < 64, x = 64 * cmbSlot P i k + j := by
  have hoff := offInCmb_add (P := P) i 0
  unfold cmbSlot Params.ometaSize at *
  refine ⟨x / 64 - i * P.nrOmeta, by omega, x % 64, Nat.mod_lt _ (by decide), ?_⟩
  omega

/-- What an operation on stream `i` does to the live slots: at most `new` is added. -/
structure LiveStep (P : Params) (i : ℕ) (new : Option ℕ) (o o' : Olayer) : Prop where
  cursors : ∀ i' < P.nrStreams, ∃ H F T, Cursors P (o'.stream i') H F T
  live : ∀ i' < P.nrStreams, ∀ k ∈ slotsOf P (o'.stream i').head (o'.stream i').tail,
    k ∈ slotsOf P (o.stream i').head (o.stream i').tail ∨ i' = i ∧ new = some k

theorem liveStep_of_stream {o o' : Olayer} {i : ℕ} {new : Option ℕ}
    (hcur : ∀ i < P.nrStreams, ∃ H F T, Cursors P (o.stream i) H F T)
    (hothers : ∀ i' ≠ i, o'.stream i' = o.stream i')
    (hself : ∃ H F T, Cursors P (o'.stream i) H F T)
    (hlive : ∀ k ∈ slotsOf P (o'.stream i).head (o'.stream i).tail,
      k ∈ slotsOf P (o.stream i).head (o.stream i).tail ∨ new = some k) :
    LiveStep P i new o o' := by
  constructor
  · intro i' hi'
    rcases eq_or_ne i' i with rfl | hne
    · exact hself
    · rw [hothers i' hne]
      exact hcur i' hi'
  · intro i' _ k hk
    rcases eq_or_ne i' i with rfl | hne
    · exact (hlive k hk).imp_right fun h => ⟨rfl, h⟩
    · rw [hothers i' hne] at hk
      exact Or.inl hk

/-- A window that only shrinks adds no live slot. -/
theorem Cursors.live_subset {s s' : Stream} {H F T H' F' : ℕ} (h : Cursors P s H F T)
    (h' : Cursors P s' H' F' T) (hle : H ≤ H') :
    slotsOf P s'.head s'.tail ⊆ slotsOf P s.head s.tail := by
  intro k hk
  obtain ⟨x, hx, hxT, rfl⟩ := h'.mem_live_iff.mp hk
  exact h.mem_live_iff.mpr ⟨x, hle.trans hx, hxT, rfl⟩

section LiveSteps

variable {o : Olayer} {i : ℕ}

theorem liveStep_submit (hcur : ∀ i < P.nrStreams, ∃ H F T, Cursors P (o.stream i) H F T)
    (hi : i < P.nrStreams) (hN : 2 ≤ P.nrOmeta) (hfuel : 2 ≤ fuel) (bc : BufferCache)
    (a : SubmitArgs) :
    ∃ o' slot, slot < P.nrOmeta ∧ streamSubmitBioCore P bc i a fuel o = some (o', slot) ∧
      LiveStep P i (some slot) o o' := by
  obtain ⟨H, F, T, H', F', o₁, hc, hle, hck, hc', hcore⟩ := submit_cases hN hfuel (hcur i hi) bc a
  refine ⟨_, _, Nat.mod_lt _ nrOmeta_pos, hcore,
    liveStep_of_stream hcur (fun i' hne => ?_) ⟨_, _, _, hc'⟩ fun k hk => ?_⟩
  · rw [publish_stream_of_ne _ _ _ _ hne, hck.stream, Function.update_of_ne hne]
  · obtain ⟨x, hx, hxT, rfl⟩ := hc'.mem_live_iff.mp hk
    rcases Nat.lt_succ_iff_lt_or_eq.mp hxT with hlt | rfl
    · exact Or.inl (hc.mem_live_iff.mpr ⟨x, hle.trans hx, hlt, rfl⟩)
    · exact Or.inr rfl

theorem liveStep_commit (hcur : ∀ i < P.nrStreams, ∃ H F T, Cursors P (o.stream i) H F T)
    (hi : i < P.nrStreams) (txid : ℕ) : LiveStep P i none o (streamCommitTx o i txid) := by
  obtain ⟨H, F, T, hc⟩ := hcur i hi
  exact liveStep_of_stream hcur (fun i' hne => Olayer.setStream_of_ne _ hne)
    ⟨H, F, T, hc.commitTx txid⟩ fun k hk => Or.inl (hc.live_subset (hc.commitTx txid) le_rfl hk)

theorem liveStep_flush (hcur : ∀ i < P.nrStreams, ∃ H F T, Cursors P (o.stream i) H F T)
    (hi : i < P.nrStreams) (bdevs : List BlockDevice) :
    LiveStep P i none o (streamBlkdevIssueFlush P o bdevs i) := by
  obtain ⟨H, F, T, hc⟩ := hcur i hi
  obtain ⟨F', hc'⟩ := hc.flush_any hi bdevs
  exact liveStep_of_stream hcur (flushOf o hi bdevs).others ⟨H, F', T, hc'⟩
    fun k hk => Or.inl (hc.live_subset hc' le_rfl hk)

theorem liveStep_wrap (hcur : ∀ i < P.nrStreams, ∃ H F T, Cursors P (o.stream i) H F T)
    (hi : i < P.nrStreams) (bc : BufferCache) :
    ∃ o', journalWrap P bc o i = some o' ∧ LiveStep P i none o o' := by
  obtain ⟨H, F, T, hc⟩ := hcur i hi
  obtain ⟨o₁, -, hsame, hwrap⟩ := journalWrap_spec bc hc.inRing.head_lt hc.inRing.flushed_lt
  refine ⟨_, hwrap, liveStep_of_stream hcur (fun i' hne => ?_) ?_ fun k hk => ?_⟩
  · rw [Olayer.setStream_of_ne _ hne, hsame.stream]
  · rw [Olayer.setStream_self]
    exact ⟨F, F, T, hc.retire i⟩
  · rw [Olayer.setStream_self] at hk
    exact Or.inl (hc.live_subset (hc.retire i) hc.head_le hk)

theorem liveStep_reset (hcur : ∀ i < P.nrStreams, ∃ H F T, Cursors P (o.stream i) H F T)
    (hi : i < P.nrStreams) : LiveStep P i none o (olayerResetStream P o i) := by
  rw [olayerResetStream, clampSid_of_lt hi]
  refine liveStep_of_stream hcur (fun i' hne => Olayer.setStream_of_ne _ hne) ?_ fun k hk => ?_
  · rw [Olayer.setStream_self]
    exact ⟨0, 0, 0, cursors_zero rfl rfl rfl rfl⟩
  · rw [Olayer.setStream_self, slotsOf_self] at hk
    cases hk

theorem cursors_runOp (hcur : ∀ i < P.nrStreams, ∃ H F T, Cursors P (o.stream i) H F T)
    (hi : i < P.nrStreams) (hN : 2 ≤ P.nrOmeta) (hfuel : 2 ≤ fuel) {op : RingOp} {o' : Olayer}
    (hop : runOp P fuel i o op = some o') :
    ∀ i < P.nrStreams, ∃ H F T, Cursors P (o'.stream i) H F T := by
  cases op with
  | submit bc a =>
      obtain ⟨o₁, slot, -, hcore, hlive⟩ := liveStep_submit hcur hi hN hfuel bc a
      rw [runOp, hcore, Option.map_some, Option.some.injEq] at hop
      exact hop ▸ hlive.cursors
  | commitTx txid => exact Option.some.inj hop ▸ (liveStep_commit hcur hi txid).cursors
  | flush bdevs => exact Option.some.inj hop ▸ (liveStep_flush hcur hi bdevs).cursors
  | wrap bc =>
      obtain ⟨o₁, hwrap, hlive⟩ := liveStep_wrap hcur hi bc
      exact Option.some.inj (hwrap.symm.trans hop) ▸ hlive.cursors
  | reset => exact Option.some.inj hop ▸ (liveStep_reset hcur hi).cursors

end LiveSteps

/-- What the mirror needs of the state. -/
structure MirrorInv (P : Params) (st : ByteState) : Prop where
  cursors : ∀ i < P.nrStreams, ∃ H F T, Cursors P (st.o.stream i) H F T
  mirrors : Mirrors P st

theorem MirrorInv.slot_lt {st : ByteState} (h : MirrorInv P st) {i k : ℕ} (hi : i < P.nrStreams)
    (hk : k ∈ slotsOf P (st.o.stream i).head (st.o.stream i).tail) : k < P.nrOmeta := by
  obtain ⟨H, F, T, hc⟩ := h.cursors i hi
  exact mem_slotsOf_lt hc.inRing.head_lt hk

/-- Operations that store nothing in controller memory. -/
theorem MirrorInv.quiet {st : ByteState} (h : MirrorInv P st) {i : ℕ} {o' : Olayer}
    (hlive : LiveStep P i none st.o o') (host : ℕ → Mem) :
    MirrorInv P ⟨o', host, st.dev, st.stored⟩ ∧
      ForeignUntouched P i st ⟨o', host, st.dev, st.stored⟩ := by
  refine ⟨⟨hlive.cursors, fun i' hi' k hk j hj => ?_⟩, fun _ _ _ _ _ _ => rfl⟩
  rcases hlive.live i' hi' k hk with hk | ⟨-, hnew⟩
  · exact h.mirrors i' hi' k hk j hj
  · cases hnew

/-- A submit mirrors its own slot and leaves all others alone. -/
theorem MirrorInv.submit {st : ByteState} (h : MirrorInv P st) {i slot : ℕ} {o' : Olayer}
    (hslot : slot < P.nrOmeta) (hlive : LiveStep P i (some slot) st.o o') (host : ℕ → Mem)
    (ring : Mem) :
    let st' : ByteState := ⟨o', host, copyFromBuffToDev P st.dev ring i (64 * slot) 64,
      Function.update st.stored i
        (Function.update (st.stored i) slot fun j => ring (64 * slot + j))⟩
    MirrorInv P st' ∧ ForeignUntouched P i st st' := by
  refine ⟨⟨hlive.cursors, fun i' hi' k hk j hj => ?_⟩, fun i' _ hne x hlo hhi => ?_⟩
  · dsimp only at hk ⊢
    rw [offInCmb_add, dev_after_copy hslot hj]
    by_cases hself : i' = i ∧ k = slot
    · obtain ⟨rfl, rfl⟩ := hself
      rw [if_pos rfl, Function.update_self, Function.update_self]
    · have hold : k ∈ slotsOf P (st.o.stream i').head (st.o.stream i').tail := by
        rcases hlive.live i' hi' k hk with hk | ⟨rfl, hnew⟩
        · exact hk
        · exact absurd ⟨rfl, (Option.some.inj hnew).symm⟩ hself
      have hkN := h.slot_lt hi' hold
      rw [if_neg fun heq => hself (cmbSlot_inj hkN hslot heq), ← offInCmb_add,
        h.mirrors i' hi' k hold j hj]
      rcases eq_or_ne i' i with rfl | hne
      · rw [Function.update_self, Function.update_of_ne fun hk => hself ⟨rfl, hk⟩]
      · rw [Function.update_of_ne hne]
  · obtain ⟨k, hk, j, hj, rfl⟩ := region_cases hlo hhi
    show copyFromBuffToDev P st.dev ring i (64 * slot) 64 _ = _
    rw [dev_after_copy hslot hj, if_neg fun heq => hne (cmbSlot_inj hk hslot heq).1]

/-- The four bytes of the doorbell are the first of slot 0 of stream 0. -/
theorem eq_zero_of_doorbell {i k j : ℕ} (hk : k < P.nrOmeta) (h : 64 * cmbSlot P i k + j < 4) :
    i = 0 ∧ k = 0 := by
  have hzero : cmbSlot P i k = cmbSlot P 0 0 := by
    have : cmbSlot P 0 0 = 0 := by rw [cmbSlot, Nat.zero_mul]
    omega
  exact cmbSlot_inj hk nrOmeta_pos hzero

/-- A commit that finds its `tail` in the first four bytes changes nothing there; one of
stream 0 while its slot 0 is not live changes bytes that nobody needs. -/
theorem MirrorInv.commit {st : ByteState} (h : MirrorInv P st) {i : Fin P.nrStreams} (txid : ℕ)
    (hd : DoorbellHarmless P st (i, .commitTx txid)) :
    MirrorInv P (st.afterCommit i txid) ∧ ForeignUntouched P i st (st.afterCommit i txid) := by
  have hlive := liveStep_commit h.cursors i.isLt txid
  by_cases hc : i.val ≠ 0 ∨ 0 ∈ slotsOf P (st.o.stream 0).head (st.o.stream 0).tail
  · have hsame : writel st.dev (st.o.stream i).tail = st.dev := by
      have hlt : Bytes.read st.dev 0 4 < 256 ^ 4 := Bytes.read_lt _ _ _
      rw [writel, ← hd hc, Nat.mod_eq_of_lt (by omega), Bytes.write_read]
    unfold ByteState.afterCommit
    rw [hsame]
    exact h.quiet hlive _
  · obtain ⟨hi, hdead⟩ := not_or.mp hc
    have hi : i.val = 0 := not_not.mp hi
    refine ⟨⟨hlive.cursors, fun i' hi' k hk j hj => ?_⟩, fun i' _ hne x hlo hhi => ?_⟩
    · rcases hlive.live i' hi' k hk with hk | ⟨-, hnew⟩
      · show writel st.dev _ _ = st.stored i' k j
        rw [← h.mirrors i' hi' k hk j hj, offInCmb_add]
        refine writel_outside _ _ (Nat.not_lt.mp fun hlt => ?_)
        obtain ⟨rfl, rfl⟩ := eq_zero_of_doorbell (h.slot_lt hi' hk) hlt
        exact hdead hk
      · cases hnew
    · obtain ⟨k, hk, j, -, rfl⟩ := region_cases hlo hhi
      refine writel_outside _ _ (Nat.not_lt.mp fun hlt => hne ?_)
      rw [(eq_zero_of_doorbell hk hlt).1, hi]

/-- If the first four bytes are left alone, they held `tail` before. -/
theorem read_eq_tail {st : ByteState} (h : MirrorInv P st) (i : Fin P.nrStreams) (txid : ℕ)
    (hsame : ∀ x < 4, (st.afterCommit i txid).dev x = st.dev x) :
    Bytes.read st.dev 0 4 = (st.o.stream i).tail := by
  obtain ⟨H, F, T, hc⟩ := h.cursors i i.isLt
  have htail := hc.inRing.tail_lt
  have hN := P.nrOmeta_lt
  have hread : Bytes.read st.dev 0 4 = Bytes.read (writel st.dev (st.o.stream i).tail) 0 4 :=
    Bytes.read_congr fun j hj => (hsame (0 + j) (by omega)).symm
  rw [hread, writel, Bytes.read_write_self, Nat.mod_eq_of_lt (by omega),
    Nat.mod_eq_of_lt (by omega)]

theorem keepsMirror_commit_iff {st : ByteState} (h : MirrorInv P st) (i : Fin P.nrStreams)
    (txid : ℕ) :
    KeepsMirror P fuel st (i, .commitTx txid) ↔ DoorbellHarmless P st (i, .commitTx txid) := by
  constructor
  · rintro ⟨st', hstep, hmirror, hforeign⟩
    obtain rfl : st.afterCommit i txid = st' := Option.some.inj hstep
    have hoff : P.offInCmb 0 = 0 := Nat.zero_mul _
    rintro (hi | hlive)
    · -- the bytes are in the region of another stream
      refine read_eq_tail h i txid fun x hx => hforeign 0 P.nrStreams_pos (Ne.symm hi) x ?_ ?_
      · omega
      · have := nrOmeta_pos (P := P)
        unfold Params.ometaSize
        omega
    · -- they belong to a live slot, which is mirrored before and after
      have hlive' : 0 ∈ slotsOf P ((streamCommitTx st.o i txid).stream 0).head
          ((streamCommitTx st.o i txid).stream 0).tail := by
        rcases eq_or_ne 0 i.val with heq | hne
        · rw [heq, streamCommitTx_stream, ← heq]
          exact hlive
        · have hother : (streamCommitTx st.o i txid).stream 0 = st.o.stream 0 :=
            Olayer.setStream_of_ne _ hne
          rw [hother]
          exact hlive
      refine read_eq_tail h i txid fun x hx => ?_
      have h₁ := h.mirrors 0 P.nrStreams_pos 0 hlive x (by omega)
      have h₂ := hmirror 0 P.nrStreams_pos 0 hlive' x (by omega)
      rw [hoff, Nat.mul_zero, Nat.add_zero, Nat.zero_add] at h₁ h₂
      exact h₂.trans h₁.symm
  · intro hd
    obtain ⟨hinv, hforeign⟩ := h.commit txid hd
    exact ⟨_, rfl, hinv.mirrors, hforeign⟩

/-- **One operation** other than a commit keeps the mirror; a commit does exactly when
its doorbell is harmless. -/
theorem mirror_step {st : ByteState} (hN : 2 ≤ P.nrOmeta) (hfuel : 2 ≤ fuel)
    (h : MirrorInv P st) (p : Fin P.nrStreams × RingOp) (hd : DoorbellHarmless P st p) :
    ∃ st', st.step P fuel p = some st' ∧ MirrorInv P st' ∧ ForeignUntouched P p.1 st st' := by
  obtain ⟨i, op⟩ := p
  cases op with
  | submit bc a =>
      obtain ⟨o', slot, hslot, hcore, hlive⟩ := liveStep_submit h.cursors i.isLt hN hfuel bc a
      exact ⟨_, by rw [ByteState.step, hcore, Option.map_some], h.submit hslot hlive _ _⟩
  | commitTx txid => exact ⟨_, rfl, h.commit txid hd⟩
  | flush bdevs => exact ⟨_, rfl, h.quiet (liveStep_flush h.cursors i.isLt bdevs) st.host⟩
  | wrap bc =>
      obtain ⟨o', hwrap, hlive⟩ := liveStep_wrap h.cursors i.isLt bc
      refine ⟨⟨o', st.host, st.dev, st.stored⟩, ?_, h.quiet hlive st.host⟩
      show (journalWrap P bc st.o i).map _ = _
      rw [hwrap, Option.map_some]
  | reset => exact ⟨_, rfl, h.quiet (liveStep_reset h.cursors i.isLt) _⟩

/-! ### Whole runs -/

/-- The module just loaded, over whatever bytes host and controller memory hold. -/
def ByteState.init (P : Params) (lastTxid : ℕ → ℕ) (host : ℕ → Mem) (dev : Mem)
    (stored : ℕ → ℕ → Mem) : ByteState :=
  ⟨initStreams P (fun i => ometaAt (host i)) lastTxid (ometaAt dev), host, dev, stored⟩

theorem mirrorInv_init (lastTxid : ℕ → ℕ) (host : ℕ → Mem) (dev : Mem) (stored : ℕ → ℕ → Mem) :
    MirrorInv P (ByteState.init P lastTxid host dev stored) where
  cursors := fun _ _ => ⟨0, 0, 0, cursors_zero rfl rfl rfl rfl⟩
  mirrors := fun i _ k hk => by
    exact absurd (slotsOf_self 0 ▸ hk) List.not_mem_nil

/-- **When the persistent queue mirrors the ring.**  Along a run on all streams of a module
just loaded, every operation leaves all live slots mirrored and the regions of the other
streams untouched, if and only if every commit of a stream other than the first, and every
commit while slot 0 of the first is live, finds its `tail` in the first four bytes. -/
theorem queue_mirror_iff (P : Params) {fuel : ℕ} (hN : 2 ≤ P.nrOmeta) (hfuel : 2 ≤ fuel)
    (lastTxid : ℕ → ℕ) (host : ℕ → Mem) (dev : Mem) (stored : ℕ → ℕ → Mem)
    (ops : List (Fin P.nrStreams × RingOp)) :
    Run.Along (ByteState.step P fuel) (KeepsMirror P fuel)
        (ByteState.init P lastTxid host dev stored) ops ↔
      Run.Along (ByteState.step P fuel) (DoorbellHarmless P)
        (ByteState.init P lastTxid host dev stored) ops := by
  have hiff : ∀ st p, MirrorInv P st → (KeepsMirror P fuel st p ↔ DoorbellHarmless P st p) := by
    rintro st ⟨i, op⟩ h
    have hmirror := mirror_step hN hfuel h (i, op)
    cases op with
    | commitTx txid => exact keepsMirror_commit_iff h i txid
    | submit bc a | flush bdevs | wrap bc | reset =>
        obtain ⟨st', hstep, hinv, hforeign⟩ := hmirror trivial
        exact iff_of_true ⟨st', hstep, hinv.mirrors, hforeign⟩ trivial
  refine Run.along_iff hiff (fun st p st' h hkeep hstep => ?_) (mirrorInv_init ..) ops
  obtain ⟨st₁, hstep₁, hinv, -⟩ := mirror_step hN hfuel h p ((hiff st p h).mp hkeep)
  obtain rfl := Option.some.inj (hstep₁.symm.trans hstep)
  exact hinv

/-- Along every such run the bytes encode the entries of the other modules. -/
theorem byteRefines_run {fuel : ℕ} (hN : 2 ≤ P.nrOmeta) (hfuel : 2 ≤ fuel) (lastTxid : ℕ → ℕ)
    (host : ℕ → Mem) (dev : Mem) (stored : ℕ → ℕ → Mem) {st : ByteState}
    {ops : List (Fin P.nrStreams × RingOp)}
    (hrun : Run.run (ByteState.step P fuel) (ByteState.init P lastTxid host dev stored) ops
      = some st) : ByteRefines P st := by
  have hinit : ByteRefines P (ByteState.init P lastTxid host dev stored) :=
    ⟨fun _ _ _ _ => rfl, fun _ _ _ _ => rfl⟩
  refine (Run.run_keeps (I := fun st => ByteRefines P st ∧
    ∀ i < P.nrStreams, ∃ H F T, Cursors P (st.o.stream i) H F T) ?_
    ⟨hinit, (mirrorInv_init lastTxid host dev stored).cursors⟩ hrun).1
  rintro st ⟨i, op⟩ st' ⟨h, hcur⟩ hstep
  have hop := st.step_o P fuel i op
  rw [hstep, Option.map_some] at hop
  exact ⟨byteRefines_step hN hfuel hcur h hstep, cursors_runOp hcur i.isLt hN hfuel hop.symm⟩

instance (st : ByteState) (p : Fin P.nrStreams × RingOp) : Decidable (DoorbellHarmless P st p) :=
  match p with
  | (_, .commitTx _) => inferInstanceAs (Decidable (_ → _))
  | (_, .submit _ _) | (_, .flush _) | (_, .wrap _) | (_, .reset) => isTrue trivial

/-- The small controller with all memory cleared. -/
def tinyBytes : ByteState :=
  ByteState.init Params.tiny (fun _ => 0) (fun _ _ => 0) (fun _ => 0) fun _ _ _ => 0

/-- A submit of block `lba` to stream `i` of the small controller, and a commit of it. -/
def tinySubmit (i : Fin 64) (lba : ℕ) : Fin Params.tiny.nrStreams × RingOp :=
  (i, .submit (fun _ _ => .noMem) ⟨lba, 1, 0, 0, .tx⟩)

def tinyCommit (i : Fin 64) : Fin Params.tiny.nrStreams × RingOp := (i, .commitTx 1)

/-- After one submit of block 10 and a commit on stream 0, the mirror of slot 0 says
block 1; and a commit on stream 5 changes the region of stream 0. -/
theorem doorbell_overwrites_entry :
    (∃ st, Run.run (ByteState.step Params.tiny 2) tinyBytes [tinySubmit 0 10, tinyCommit 0]
        = some st ∧
      (0 ∈ slotsOf Params.tiny (st.o.stream 0).head (st.o.stream 0).tail ∧
        st.dev 0 = 1 ∧ st.stored 0 0 0 = 10)) ∧
    ∃ st, Run.run (ByteState.step Params.tiny 2) tinyBytes [tinySubmit 5 10] = some st ∧
      ∃ st', st.step Params.tiny 2 (tinyCommit 5) = some st' ∧ st'.dev 0 ≠ st.dev 0 := by
  decide +kernel

theorem queue_mirror_iff_fourCalls :
    2 ≤ Params.tiny.nrOmeta ∧
    Run.Along (ByteState.step Params.tiny 2) (KeepsMirror Params.tiny 2) tinyBytes
      [tinySubmit 0 1, tinyCommit 0, tinySubmit 3 7, tinyCommit 3] :=
  ⟨by decide, (queue_mirror_iff Params.tiny (by decide) le_rfl _ _ _ _ _).mpr (by decide +kernel)⟩

end CcNvme

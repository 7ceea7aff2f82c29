/-
CcNvme/Retire.lean

Retiring queue entries.  A block is lost when its index entry is removed and
nothing is written (`Clean` fails), when its entry is not handed over by the
scan at all, when it was flushed or committed after the scan, or by the last
resort.  `SafeRetire` excludes these; then `run_retires_safely` finds every
block of a retired entry already sent home.
-/
import CcNvme.Interleaving

namespace CcNvme

/-! ### The property -/

/-- Block `p` was sent home after `stamp` requests. -/
def SentHome (o : Olayer) (stamp : ℕ) (p : ℕ × ℕ) : Prop :=
  Request.bh p.1 p.2 ∈ o.io.drop stamp

instance (o : Olayer) (stamp : ℕ) (p : ℕ × ℕ) : Decidable (SentHome o stamp p) :=
  inferInstanceAs (Decidable (_ ∈ _))

/-- A newer journaled version of block `p` than the one in slot `x` of stream `sid` is
live, and the index points to it. -/
def Superseded (P : Params) (st : RetireState) (sid x : ℕ) (p : ℕ × ℕ) : Prop :=
  ∃ sid' < P.nrStreams, ∃ y ∈ liveSlots P (st.o.stream sid'),
    (st.info sid' y).journaled = true ∧ (st.info sid x).stamp ≤ (st.info sid' y).stamp ∧
    (sid', y) ≠ (sid, x) ∧ p ∈ st.blocks sid' y ∧
    ∃ e, st.o.lookupIpu P p.2 = some e ∧
      e.plba + ((st.o.stream sid').ometa y).lba = ((st.o.stream sid').ometa y).plba + p.2

/-- The queue entries a request stores on `dev`. -/
def Request.savedOn (dev : BlockDevice) : Request → List Ometa
  | .pages d _ _ saved => if d = dev then saved else []
  | _ => []

/-- Block `p` of the entry in slot `x` was sent home, or is superseded, or the entry was
saved. -/
def BlockSafe (P : Params) (st st' : RetireState) (sid x : ℕ) (p : ℕ × ℕ) : Prop :=
  SentHome st'.o (st.info sid x).stamp p ∨ Superseded P st' sid x p ∨
    ∃ r ∈ st'.o.io, (st.o.stream sid).ometa x ∈ r.savedOn P.cpDev

/-- Every journaled entry of a committed transaction that `head` moves past between
the two states is safe, block by block. -/
def RetiresSafely (P : Params) (st st' : RetireState) : Prop :=
  ∀ sid < P.nrStreams, ∀ x ∈ liveSlots P (st.o.stream sid),
    x ∉ liveSlots P (st'.o.stream sid) →
    (st.info sid x).journaled = true → (st.info sid x).committed = true →
    ∀ p ∈ st.blocks sid x, BlockSafe P st st' sid x p

/-! ### The condition -/

/-- The blocks of the waiting submits and of the live journaled entries. -/
def RetireState.inUse (P : Params) (st : RetireState) : List (ℕ × ℕ) :=
  (st.waiting.flatMap fun w => blocksOf w.home w.args.lba w.args.nrPages) ++
    (List.range P.nrStreams).flatMap fun sid =>
      ((liveSlots P (st.o.stream sid)).filter fun x => (st.info sid x).journaled).flatMap
        (st.blocks sid)

/-- The condition under which a step loses no block. -/
def SafeRetire (P : Params) (sbOf : BlockDevice → ℕ) (st : RetireState) : RetireOp → Prop
  | .alloc sid b =>
      sid < P.nrStreams ∧ horaeGetSecs b ≤ P.nrJournalBlock ∧ horaeGetLba b < 2 ^ 64 ∧
        -- different blocks in use have different index keys
        ∀ p ∈ blocksOf (sbOf b.dev) (horaeGetLba b) (horaeGetSecs b),
          ∀ q ∈ st.inUse P ++ blocksOf (sbOf b.dev) (horaeGetLba b) (horaeGetSecs b),
            ipuKey P st.o.blocksPerGroup p.2 = ipuKey P st.o.blocksPerGroup q.2 → p = q
  | .inPlace sid _ | .commit sid _ | .flush sid _ => sid < P.nrStreams
  | .scan sid bc =>
      sid < P.nrStreams ∧
        CleanScan P bc st.o (st.o.stream sid) (fun k => (st.info sid k).home)
          ((st.o.stream sid).delimited P) ∧
        -- every committed entry lies between a BEGIN and an END
        ∀ x ∈ st.committedSlots P sid, ∃ seg ∈ (st.o.stream sid).delimited P, x ∈ seg.handed
  | .retire sid =>
      ∀ scanned, st.scanned sid = some scanned → ∀ x ∈ st.committedSlots P sid, x ∈ scanned
  | .lastResort sid =>
      ∀ x ∈ liveSlots P (st.o.stream sid),
        (st.info sid x).journaled = true → (st.info sid x).committed = false
  | _ => True

/-! ### What is in use -/

variable {P : Params} {sbOf : BlockDevice → ℕ} {st st' : RetireState}

/-- Block `p`, indexed when `stamp` requests had been sent, belongs to a waiting submit
or to a live journaled entry. -/
def Tracked (P : Params) (st : RetireState) (stamp : ℕ) (p : ℕ × ℕ) : Prop :=
  (∃ w ∈ st.waiting, w.stamp = stamp ∧ p ∈ blocksOf w.home w.args.lba w.args.nrPages) ∨
    ∃ sid < P.nrStreams, ∃ x ∈ liveSlots P (st.o.stream sid),
      (st.info sid x).journaled = true ∧ (st.info sid x).stamp = stamp ∧ p ∈ st.blocks sid x

theorem mem_inUse {p : ℕ × ℕ} : p ∈ st.inUse P ↔ ∃ stamp, Tracked P st stamp p := by
  unfold RetireState.inUse Tracked
  simp only [List.mem_append, List.mem_flatMap, List.mem_range, List.mem_filter]
  constructor
  · rintro (⟨w, hw, hp⟩ | ⟨sid, hsid, x, ⟨hx, hj⟩, hp⟩)
    · exact ⟨w.stamp, Or.inl ⟨w, hw, rfl, hp⟩⟩
    · exact ⟨(st.info sid x).stamp, Or.inr ⟨sid, hsid, x, hx, hj, rfl, hp⟩⟩
  · rintro ⟨stamp, ⟨w, hw, -, hp⟩ | ⟨sid, hsid, x, hx, hj, -, hp⟩⟩
    · exact Or.inl ⟨w, hw, hp⟩
    · exact Or.inr ⟨sid, hsid, x, ⟨hx, hj⟩, hp⟩

/-- Requests are only appended. -/
theorem SentHome.mono {o o' : Olayer} {stamp : ℕ} {p : ℕ × ℕ} (h : SentHome o stamp p)
    (hio : ∃ new, o'.io = o.io ++ new) : SentHome o' stamp p := by
  obtain ⟨new, hnew⟩ := hio
  unfold SentHome
  rw [hnew, List.drop_append]
  exact List.mem_append_left _ h

/-- Every block in use is indexed or was sent home after it was indexed, and different
blocks in use have different keys. -/
structure Accounted (P : Params) (st : RetireState) : Prop where
  stamp_le : ∀ stamp p, Tracked P st stamp p → stamp ≤ st.o.io.length
  indexed : ∀ stamp p, Tracked P st stamp p → Indexed P st.o p.2 ∨ SentHome st.o stamp p
  keys : ∀ p ∈ st.inUse P, ∀ q ∈ st.inUse P,
    ipuKey P st.o.blocksPerGroup p.2 = ipuKey P st.o.blocksPerGroup q.2 → p = q

/-- Blocks that come into use are indexed and have keys of their own. -/
theorem Accounted.step (h : Accounted P st) (fresh : List (ℕ × ℕ))
    (hbpg : st'.o.blocksPerGroup = st.o.blocksPerGroup)
    (hidx : ∀ x, Indexed P st.o x → Indexed P st'.o x)
    (hio : ∃ new, st'.o.io = st.o.io ++ new)
    (htracked : ∀ stamp p, Tracked P st' stamp p →
      Tracked P st stamp p ∨ stamp = st.o.io.length ∧ p ∈ fresh)
    (hfresh : ∀ p ∈ fresh, Indexed P st'.o p.2)
    (hkeys : ∀ p ∈ fresh, ∀ q ∈ st.inUse P ++ fresh,
      ipuKey P st.o.blocksPerGroup p.2 = ipuKey P st.o.blocksPerGroup q.2 → p = q) :
    Accounted P st' := by
  refine ⟨?_, ?_, ?_⟩
  · intro stamp p hp
    have hlen : st.o.io.length ≤ st'.o.io.length := by
      obtain ⟨new, hnew⟩ := hio
      rw [hnew, List.length_append]
      exact Nat.le_add_right _ _
    rcases htracked stamp p hp with hold | ⟨rfl, -⟩
    · exact (h.stamp_le stamp p hold).trans hlen
    · exact hlen
  · intro stamp p hp
    rcases htracked stamp p hp with hold | ⟨-, hf⟩
    · exact (h.indexed stamp p hold).imp (hidx _) fun hsent => hsent.mono hio
    · exact Or.inl (hfresh p hf)
  · -- a block in use now was in use before or is fresh
    have hsplit : ∀ p ∈ st'.inUse P, p ∈ st.inUse P ∨ p ∈ fresh := by
      intro p hp
      obtain ⟨stamp, hp⟩ := mem_inUse.mp hp
      exact (htracked stamp p hp).imp (fun h => mem_inUse.mpr ⟨stamp, h⟩) And.right
    intro p hp q hq hkey
    rw [hbpg] at hkey
    rcases hsplit p hp with hp | hp
    · rcases hsplit q hq with hq | hq
      · exact h.keys p hp q hq hkey
      · exact (hkeys q hq p (List.mem_append_left _ hp) hkey.symm).symm
    · exact hkeys p hp q (List.mem_append.mpr (hsplit q hq)) hkey

/-- **The invariant**: the blocks in use are accounted for, and what a scan has passed
was sent home. -/
structure RetireInv (P : Params) (st : RetireState) : Prop where
  cursors : AllCursors P st
  waiting : ∀ w ∈ st.waiting, w.sid < P.nrStreams ∧ w.args.lba < 2 ^ 64
  accounted : Accounted P st
  journaled : ∀ sid < P.nrStreams, ∀ x ∈ liveSlots P (st.o.stream sid),
    ((st.o.stream sid).ometa x).plba ≠ 0 → (st.info sid x).journaled = true
  scanned : ∀ sid < P.nrStreams, ∀ xs, st.scanned sid = some xs → ∀ x ∈ xs,
    x ∈ liveSlots P (st.o.stream sid) ∧
      ∀ p ∈ st.blocks sid x, SentHome st.o (st.info sid x).stamp p

/-! ### Steps that retire nothing -/

theorem KeepsLive.retiresSafely {new : ℕ → ℕ → Prop} (h : KeepsLive P st st' new) :
    RetiresSafely P st st' := by
  intro sid hsid x hx hgone
  exact absurd ((h.live sid hsid x).mpr (Or.inl hx)) hgone

/-- **The rule for steps that retire nothing.**  A submit that starts waiting may bring
fresh blocks; an entry that becomes live must have been waiting. -/
theorem RetireInv.of_keepsLive {new : ℕ → ℕ → Prop} (hinv : RetireInv P st)
    (h : KeepsLive P st st' new) (hidx : Indexes P st st') (fresh : List (ℕ × ℕ))
    (hfresh : ∀ p ∈ fresh, Indexed P st'.o p.2)
    (hkeys : ∀ p ∈ fresh, ∀ q ∈ st.inUse P ++ fresh,
      ipuKey P st.o.blocksPerGroup p.2 = ipuKey P st.o.blocksPerGroup q.2 → p = q)
    (hwaiting : ∀ w ∈ st'.waiting, w ∈ st.waiting ∨ (w.sid < P.nrStreams ∧ w.args.lba < 2 ^ 64) ∧
      w.stamp = st.o.io.length ∧ blocksOf w.home w.args.lba w.args.nrPages ⊆ fresh)
    (hnew : ∀ sid x, new sid x → (st'.info sid x).journaled = true →
      ∀ p ∈ st'.blocks sid x, Tracked P st (st'.info sid x).stamp p)
    (hplba : ∀ sid x, new sid x → ((st'.o.stream sid).ometa x).plba ≠ 0 →
      (st'.info sid x).journaled = true) : RetireInv P st' := by
  refine ⟨h.cursors, ?_, ?_, ?_, ?_⟩
  · intro w hw
    rcases hwaiting w hw with hold | ⟨hb, -⟩
    · exact hinv.waiting w hold
    · exact hb
  · refine hinv.accounted.step fresh hidx.blocksPerGroup hidx.index h.io ?_ hfresh hkeys
    -- a tracked block belongs to a waiting submit or to a live entry
    rintro stamp p (⟨w, hw, rfl, hp⟩ | ⟨sid, hsid, x, hx, hj, rfl, hp⟩)
    · rcases hwaiting w hw with hold | ⟨-, hs, hsub⟩
      · exact Or.inl (Or.inl ⟨w, hold, rfl, hp⟩)
      · exact Or.inr ⟨hs, hsub hp⟩
    · rcases (h.live sid hsid x).mp hx with hold | hn
      · rw [h.journaled sid hsid x hold] at hj
        rw [h.blocks sid hsid x hold] at hp
        rw [h.stamp sid hsid x hold]
        exact Or.inl (Or.inr ⟨sid, hsid, x, hold, hj, rfl, hp⟩)
      · exact Or.inl (hnew sid x hn hj p hp)
  · intro sid hsid x hx hp
    rcases (h.live sid hsid x).mp hx with hold | hn
    · rw [h.plba sid hsid x hold] at hp
      rw [h.journaled sid hsid x hold]
      exact hinv.journaled sid hsid x hold hp
    · exact hplba sid x hn hp
  · intro sid hsid xs hxs x hx
    rw [hidx.scanned] at hxs
    obtain ⟨hold, hsent⟩ := hinv.scanned sid hsid xs hxs x hx
    rw [h.blocks sid hsid x hold, h.stamp sid hsid x hold]
    exact ⟨(h.live sid hsid x).mpr (Or.inl hold), fun p hp => (hsent p hp).mono h.io⟩

/-- The case in which nothing becomes live and nothing starts waiting. -/
theorem RetireInv.of_sameLive (hinv : RetireInv P st) (h : KeepsLive P st st' fun _ _ => False)
    (hidx : Indexes P st st') (hw : st'.waiting = st.waiting) : RetireInv P st' :=
  hinv.of_keepsLive h hidx [] (by simp) (by simp) (fun _ hm => Or.inl (hw ▸ hm))
    (fun _ _ hn => hn.elim) (fun _ _ hn => hn.elim)

theorem step_inv_alloc (hinv : RetireInv P st) {sid : ℕ} {b : Bio}
    (hsafe : SafeRetire P sbOf st (.alloc sid b))
    (hstep : st.step P sbOf (.alloc sid b) = some st') :
    RetireInv P st' ∧ RetiresSafely P st st' := by
  obtain ⟨hsid, hnr, hlba, hkeys⟩ := hsafe
  obtain ⟨hlive, hidx, -, ⟨plba, bio, hw⟩, hindexed⟩ := effect_alloc hinv.cursors hstep
  refine ⟨?_, hlive.retiresSafely⟩
  refine hinv.of_keepsLive hlive hidx (blocksOf (sbOf b.dev) (horaeGetLba b) (horaeGetSecs b))
    (hindexed hnr) hkeys (fun w hm => ?_) (fun _ _ hn => hn.elim) (fun _ _ hn => hn.elim)
  rw [hw, List.mem_append, List.mem_singleton] at hm
  rcases hm with hold | rfl
  · exact Or.inl hold
  · exact Or.inr ⟨⟨hsid, hlba⟩, rfl, List.Subset.refl _⟩

/-- A step that publishes one entry, whose blocks were in use if it is journaled. -/
theorem step_inv_publish (hinv : RetireInv P st) {sid : ℕ} (hsid : sid < P.nrStreams)
    {a : SubmitArgs} {q : Olayer × ℕ} {b : Bio} {ws : List Waiting} {i : EntryInfo}
    (hcore : streamSubmitBioCore P noBuffers sid a 1 st.o = some q)
    (hst : st' = { st with
      o := submitBio q.1 b, waiting := ws, info := setInfo st.info sid q.2 i })
    (hws : ∀ w ∈ ws, w ∈ st.waiting)
    (hblocks : i.journaled = true → ∀ p ∈ blocksOf i.home (a.lba % 2 ^ 64) (a.nrPages % 2 ^ 16),
      Tracked P st i.stamp p)
    (hplba : a.plba % 2 ^ 32 ≠ 0 → i.journaled = true) :
    RetireInv P st' ∧ RetiresSafely P st st' := by
  obtain ⟨hlive, hidx, -, hi, hbl, hpl⟩ := effect_publish hinv.cursors hsid hcore hst
  refine ⟨?_, hlive.retiresSafely⟩
  refine hinv.of_keepsLive hlive hidx [] (by simp) (by simp) (fun w hw => ?_) ?_ ?_
  · rw [hst] at hw
    exact Or.inl (hws w hw)
  · rintro j x ⟨rfl, rfl⟩
    rw [hi, hbl]
    exact hblocks
  · rintro j x ⟨rfl, rfl⟩
    rw [hi, hpl]
    exact hplba

theorem step_inv_insert (hinv : RetireInv P st) {k : ℕ}
    (hstep : st.step P sbOf (.insert k) = some st') :
    RetireInv P st' ∧ RetiresSafely P st st' := by
  simp only [RetireState.step, Option.bind_eq_some_iff, Option.map_eq_some_iff] at hstep
  obtain ⟨w, hw, q, hcore, hst⟩ := hstep
  have hmem : w ∈ st.waiting := List.mem_of_getElem? hw
  obtain ⟨hsid, hlba⟩ := hinv.waiting w hmem
  refine step_inv_publish hinv hsid hcore hst.symm (fun _ h => List.mem_of_mem_eraseIdx h) ?_
    (fun _ => rfl)
  -- `length` may be cut, so the entry covers a part of what was waiting
  intro _ p hp
  rw [Nat.mod_eq_of_lt hlba, mem_blocksOf] at hp
  refine Or.inl ⟨w, hmem, rfl, mem_blocksOf.mpr ⟨hp.1, hp.2.1, ?_⟩⟩
  exact hp.2.2.trans_le (Nat.add_le_add_left (Nat.mod_le _ _) _)

theorem step_inv_inPlace (hinv : RetireInv P st) {sid : ℕ} {b : Bio}
    (hsafe : SafeRetire P sbOf st (.inPlace sid b))
    (hstep : st.step P sbOf (.inPlace sid b) = some st') :
    RetireInv P st' ∧ RetiresSafely P st st' := by
  simp only [RetireState.step, Option.map_eq_some_iff] at hstep
  obtain ⟨q, hcore, hst⟩ := hstep
  exact step_inv_publish hinv hsafe hcore hst.symm (fun _ h => h) (fun h => by cases h)
    (fun h => absurd (Nat.zero_mod _) h)

/-! ### Scanning -/

theorem Tracked.congr (hs : st'.o.stream = st.o.stream) (hw : st'.waiting = st.waiting)
    (hinfo : st'.info = st.info) {stamp : ℕ} {p : ℕ × ℕ} :
    Tracked P st' stamp p ↔ Tracked P st stamp p := by
  unfold Tracked RetireState.blocks
  rw [hs, hw, hinfo]

/-- What a scan hands over is in use. -/
theorem RetireInv.inUse_of_handed (hinv : RetireInv P st) {sid : ℕ} (hsid : sid < P.nrStreams)
    {q : ℕ × ℕ} (hq : q ∈ handedBlocks (st.o.stream sid) (fun k => (st.info sid k).home)
      ((st.o.stream sid).delimited P)) : q ∈ st.inUse P := by
  obtain ⟨H, F, T, hcur⟩ := hinv.cursors sid hsid
  obtain ⟨seg, hseg, hq⟩ := List.mem_flatMap.mp hq
  obtain ⟨k, hk, hq⟩ := List.mem_flatMap.mp hq
  obtain ⟨hflushed, hplba⟩ := flushed_of_delimited hcur.inRing hseg hk
  have hlive : k ∈ liveSlots P (st.o.stream sid) := hcur.flushed_subset_live hflushed
  exact mem_inUse.mpr ⟨_, Or.inr ⟨sid, hsid, k, hlive, hinv.journaled sid hsid k hlive hplba,
    rfl, hq⟩⟩

/-- **A clean scan loses no block**: what it takes out of the index it has sent home. -/
theorem Accounted.of_drained (h : Accounted P st) {bs : List (ℕ × ℕ)}
    (hd : Drained P bs st.o st'.o) (hw : st'.waiting = st.waiting) (hinfo : st'.info = st.info)
    (hbs : ∀ q ∈ bs, q ∈ st.inUse P) : Accounted P st' := by
  have htr : ∀ {stamp p}, Tracked P st' stamp p ↔ Tracked P st stamp p :=
    Tracked.congr hd.same.stream hw hinfo
  have huse : ∀ {p}, p ∈ st'.inUse P ↔ p ∈ st.inUse P := by
    intro p
    rw [mem_inUse, mem_inUse]
    exact exists_congr fun stamp => htr
  obtain ⟨new, hio, hnew⟩ := hd.io
  refine ⟨?_, ?_, ?_⟩
  · intro stamp p hp
    rw [hio, List.length_append]
    exact (h.stamp_le stamp p (htr.mp hp)).trans (Nat.le_add_right _ _)
  · intro stamp p hp
    rw [htr] at hp
    rcases h.indexed stamp p hp with hi | hsent
    · by_cases hi' : Indexed P st'.o p.2
      · exact Or.inl hi'
      · -- the block with the same key that was sent home is `p` itself
        obtain ⟨q, hq, hkey, hreq⟩ := hnew p.2 hi hi'
        obtain rfl := h.keys q (hbs q hq) p (mem_inUse.mpr ⟨stamp, hp⟩) hkey
        right
        show Request.bh q.1 q.2 ∈ st'.o.io.drop stamp
        rw [hio, List.drop_append_of_le_length (h.stamp_le stamp q hp)]
        exact List.mem_append_right _ hreq
    · exact Or.inr (hsent.mono ⟨new, hio⟩)
  · intro p hp q hq hkey
    rw [hd.same.blocksPerGroup] at hkey
    exact h.keys p (huse.mp hp) q (huse.mp hq) hkey

theorem step_inv_scan (hinv : RetireInv P st) {sid : ℕ} {bc : BufferCache}
    (hsafe : SafeRetire P sbOf st (.scan sid bc))
    (hstep : st.step P sbOf (.scan sid bc) = some st') :
    RetireInv P st' ∧ RetiresSafely P st st' := by
  obtain ⟨hsid, hclean, hcovered⟩ := hsafe
  obtain ⟨hlive, hcommit, hinfo, hw, hscanned⟩ := effect_scan hinv.cursors hstep
  obtain ⟨H, F, T, hcur⟩ := hinv.cursors sid hsid
  have hscan := commitWriteScan_eq hcur.inRing.head_lt hcur.inRing.flushed_lt
  obtain ⟨o', ho', hd⟩ := drained_commitWrite hscan hclean
  obtain rfl := Option.some.inj (hcommit.symm.trans ho')
  have hs := hd.same.stream
  have hacc : Accounted P st' :=
    hinv.accounted.of_drained hd hw hinfo fun q hq => hinv.inUse_of_handed hsid hq
  refine ⟨⟨hlive.cursors, hw ▸ hinv.waiting, hacc, ?_, ?_⟩, hlive.retiresSafely⟩
  · rw [hs, hinfo]
    exact hinv.journaled
  · intro i hi xs hxs x hx
    rw [hs, hinfo]
    rw [hscanned] at hxs
    by_cases his : i = sid
    · subst his
      rw [Function.update_self, Option.some.injEq] at hxs
      subst hxs
      obtain ⟨hflushed, hmarks⟩ := List.mem_filter.mp hx
      have hx : x ∈ liveSlots P (st.o.stream i) := hcur.flushed_subset_live hflushed
      rw [hlive.blocks i hi x hx]
      refine ⟨hx, fun p hp => ?_⟩
      have htracked : Tracked P st (st.info i x).stamp p :=
        Or.inr ⟨i, hi, x, hx, (Bool.and_eq_true_iff.mp hmarks).1, rfl, hp⟩
      -- the scan has passed the entry, so none of its blocks is indexed any more
      obtain ⟨seg, hseg, hk⟩ := hcovered x (List.mem_filter.mpr ⟨hflushed, hmarks⟩)
      have hgone := hd.gone p
        (List.mem_flatMap.mpr ⟨seg, hseg, List.mem_flatMap.mpr ⟨x, hk, hp⟩⟩)
      exact (hacc.indexed _ p ((Tracked.congr hs hw hinfo).mpr htracked)).resolve_left
        (not_not.mpr hgone)
    · rw [Function.update_of_ne his] at hxs
      obtain ⟨hx, hsent⟩ := hinv.scanned i hi xs hxs x hx
      rw [hlive.blocks i hi x hx]
      exact ⟨hx, fun p hp => (hsent p hp).mono hlive.io⟩

/-! ### Retiring -/

/-- **The rule for steps that retire.** -/
theorem RetireInv.of_dropsLive (hinv : RetireInv P st) {sid : ℕ} (h : DropsLive P st st' sid) :
    RetireInv P st' := by
  refine ⟨h.cursors, h.waiting ▸ hinv.waiting, ?_, ?_, ?_⟩
  · refine hinv.accounted.step [] h.blocksPerGroup h.index h.io ?_ (by simp) (by simp)
    rintro stamp p (⟨w, hm, hws, hp⟩ | ⟨i, hlt, x, hx, hj, hst, hp⟩)
    · exact Or.inl (Or.inl ⟨w, h.waiting ▸ hm, hws, hp⟩)
    · rw [h.info] at hj hst
      rw [h.blocks] at hp
      exact Or.inl (Or.inr ⟨i, hlt, x, h.live i hlt hx, hj, hst, hp⟩)
  · intro i hlt x hx hp
    rw [h.ometa] at hp
    rw [h.info]
    exact hinv.journaled i hlt x (h.live i hlt hx) hp
  · intro i hlt xs hxs x hx
    by_cases hi : i = sid
    · -- the outstanding scan of the stream itself starts over
      subst hi
      rw [h.scanned xs hxs] at hx
      cases hx
    · obtain ⟨hs, hsc⟩ := h.others i hi
      rw [hsc] at hxs
      obtain ⟨hold, hsent⟩ := hinv.scanned i hlt xs hxs x hx
      rw [hs, h.blocks, h.info]
      exact ⟨hold, fun p hp => (hsent p hp).mono h.io⟩

theorem step_inv_retire (hinv : RetireInv P st) {sid : ℕ}
    (hsafe : SafeRetire P sbOf st (.retire sid))
    (hstep : st.step P sbOf (.retire sid) = some st') :
    RetireInv P st' ∧ RetiresSafely P st st' := by
  obtain ⟨hdrops, hs, xs, hxs⟩ := effect_retire hinv.cursors hstep
  refine ⟨hinv.of_dropsLive hdrops, fun i hlt x hx hgone hj hc p hp => ?_⟩
  by_cases hi : i = sid
  · subst hi
    obtain ⟨H, F, T, hcur⟩ := hinv.cursors i hlt
    rw [hs] at hgone
    -- a retired slot was flushed, so the scan has passed it
    have hflushed : x ∈ flushedSlots P (st.o.stream i) :=
      not_not.mp fun hno => hgone (hcur.live_retire i hx hno)
    have hpassed : x ∈ xs := by
      refine hsafe xs hxs x (List.mem_filter.mpr ⟨hflushed, ?_⟩)
      rw [hj, hc]
      rfl
    exact Or.inl (((hinv.scanned i hlt xs hxs x hpassed).2 p hp).mono hdrops.io)
  · rw [(hdrops.others i hi).1] at hgone
    exact absurd hx hgone

theorem step_inv_lastResort (hinv : RetireInv P st) {sid : ℕ}
    (hsafe : SafeRetire P sbOf st (.lastResort sid))
    (hstep : st.step P sbOf (.lastResort sid) = some st') :
    RetireInv P st' ∧ RetiresSafely P st st' := by
  have hdrops := effect_lastResort hinv.cursors hstep
  refine ⟨hinv.of_dropsLive hdrops, fun i hlt x hx hgone hj hc => ?_⟩
  by_cases hi : i = sid
  · subst hi
    rw [hsafe x hx hj] at hc
    cases hc
  · rw [(hdrops.others i hi).1] at hgone
    exact absurd hx hgone

/-! ### Whole runs -/

/-- **One step**, whichever it is. -/
theorem step_inv (hinv : RetireInv P st) {op : RetireOp} (hsafe : SafeRetire P sbOf st op)
    (hstep : st.step P sbOf op = some st') : RetireInv P st' ∧ RetiresSafely P st st' := by
  cases op with
  | alloc sid b => exact step_inv_alloc hinv hsafe hstep
  | allocBlock sid b nr =>
      obtain ⟨hlive, hidx, -, hw⟩ := effect_allocBlock hinv.cursors hstep
      exact ⟨hinv.of_sameLive hlive hidx hw, hlive.retiresSafely⟩
  | insert k => exact step_inv_insert hinv hstep
  | inPlace sid b => exact step_inv_inPlace hinv hsafe hstep
  | commit sid txid =>
      obtain ⟨hlive, hidx, hw, -⟩ := effect_commit hinv.cursors hsafe hstep
      exact ⟨hinv.of_sameLive hlive hidx hw, hlive.retiresSafely⟩
  | flush sid bdevs =>
      obtain ⟨hlive, hidx, -, hw⟩ := effect_flush hinv.cursors hsafe hstep
      exact ⟨hinv.of_sameLive hlive hidx hw, hlive.retiresSafely⟩
  | scan sid bc => exact step_inv_scan hinv hsafe hstep
  | retire sid => exact step_inv_retire hinv hsafe hstep
  | lastResort sid => exact step_inv_lastResort hinv hsafe hstep

theorem retireInv_fresh {o : Olayer} {mem : ℕ → ℕ → Ometa} {lastTxid : ℕ → ℕ}
    (ho : ∀ sid, o.stream sid = initStream P (mem sid) (lastTxid sid) sid) :
    RetireInv P (RetireState.fresh o) := by
  have hempty := not_live_fresh ho
  have hnone : ∀ stamp p, ¬ Tracked P (RetireState.fresh o) stamp p := by
    rintro stamp p (⟨w, hw, -⟩ | ⟨sid, -, x, hx, -⟩)
    · cases hw
    · exact hempty sid x hx
  refine ⟨fun sid _ => ⟨0, 0, 0, cursors_fresh ho sid⟩, fun w hw => (nomatch hw), ⟨?_, ?_, ?_⟩,
    ?_, ?_⟩
  · intro stamp p hp
    exact absurd hp (hnone stamp p)
  · intro stamp p hp
    exact absurd hp (hnone stamp p)
  · intro p hp
    obtain ⟨stamp, hp⟩ := mem_inUse.mp hp
    exact absurd hp (hnone stamp p)
  · intro sid _ x hx
    exact absurd hx (hempty sid x)
  · intro sid _ xs hxs
    cases hxs

/-- **No committed entry is retired before its data is safe**, at any step of any run
from freshly initialised streams whose steps all meet the condition. -/
theorem run_retires_safely (P : Params) (sbOf : BlockDevice → ℕ) (o : Olayer)
    (mem : ℕ → ℕ → Ometa) (lastTxid : ℕ → ℕ)
    (ho : ∀ sid, o.stream sid = initStream P (mem sid) (lastTxid sid) sid)
    (ops : List RetireOp) (op : RetireOp) (st st' : RetireState)
    (hsafe : Run.Along (RetireState.step P sbOf) (SafeRetire P sbOf) (RetireState.fresh o)
      (ops ++ [op]))
    (hrun : Run.run (RetireState.step P sbOf) (RetireState.fresh o) ops = some st)
    (hstep : st.step P sbOf op = some st') : RetiresSafely P st st' := by
  exact Run.run_last (Q := fun st _ st' => RetiresSafely P st st')
    (fun _ _ _ h => step_inv h) (retireInv_fresh ho) hsafe hrun hstep

/-! ### Concrete runs -/

instance (bc : BufferCache) (o : Olayer) (txid sb lba : ℕ) : Decidable (Clean P bc o txid sb lba) :=
  decidable_of_iff ((∀ e, o.lookupIpu P lba = some e → e.txid = txid) ∧ bc sb lba = .unlocked)
    ⟨fun h => ⟨h.1, h.2⟩, fun h => ⟨h.1, h.2⟩⟩

instance (bc : BufferCache) (o : Olayer) (s : Stream) (home : ℕ → ℕ) (segs : List Segment) :
    Decidable (CleanScan P bc o s home segs) :=
  inferInstanceAs (Decidable (∀ seg ∈ segs, ∀ k ∈ seg.handed, _ ∧ ∀ p ∈ _, _))

instance (st : RetireState) (op : RetireOp) : Decidable (SafeRetire P sbOf st op) :=
  match op with
  | .alloc sid b => inferInstanceAs (Decidable (sid < _ ∧ horaeGetSecs b ≤ _ ∧ _ ∧ ∀ _ ∈ _, _))
  | .allocBlock _ _ _ | .insert _ => inferInstanceAs (Decidable True)
  | .inPlace sid _ | .commit sid _ | .flush sid _ => inferInstanceAs (Decidable (sid < _))
  | .scan sid _ => inferInstanceAs (Decidable (sid < _ ∧ _ ∧ ∀ _ ∈ _, ∃ _ ∈ _, _))
  | .retire sid => inferInstanceAs (Decidable (∀ _, st.scanned sid = some _ → ∀ _ ∈ _, _))
  | .lastResort sid => inferInstanceAs (Decidable (∀ _ ∈ liveSlots P (st.o.stream sid), _))

instance (st : RetireState) (sid x : ℕ) (p : ℕ × ℕ) : Decidable (Superseded P st sid x p) :=
  inferInstanceAs (Decidable (∃ _ < _, ∃ _ ∈ _, _ ∧ _ ∧ _ ∧ _ ∧ ∃ _, _ ∧ _))

instance (st st' : RetireState) (sid x : ℕ) (p : ℕ × ℕ) : Decidable (BlockSafe P st st' sid x p) :=
  inferInstanceAs (Decidable (_ ∨ _ ∨ ∃ _ ∈ _, _))

instance (st st' : RetireState) : Decidable (RetiresSafely P st st') :=
  inferInstanceAs (Decidable (∀ _ < _, ∀ _ ∈ _, _ → _ → _ → ∀ _ ∈ _, _))

/-- Two journaled writes of one transaction as `fsync` issues them, committed and
flushed, and the two halves of a wrap of the journal. -/
def fsyncThenScan : List RetireOp :=
  [.alloc 5 (pages 10 1), .insert 0, .alloc 5 (pages 11 1), .insert 0, .commit 5 1,
    .flush 5 [⟨0, 1⟩], .scan 5 fun _ _ => .unlocked]

/-- Both entries leave the ring and none of their blocks was sent home. -/
theorem fsync_retired_unwritten :
    (Run.run (RetireState.step Params.tiny fun _ => 7)
      (RetireState.fresh tinyMounted) fsyncThenScan).bind
        (fun st => (st.step Params.tiny (fun _ => 7) (.retire 5)).map fun st' =>
          ((st.committedSlots Params.tiny 5, liveSlots Params.tiny (st'.o.stream 5)),
            decide (RetiresSafely Params.tiny st st')))
      = some (([0, 1], []), false) := by
  decide +kernel

/-- A transaction between a BEGIN and an END entry, both of in-place writes. -/
def bracketedThenScan : List RetireOp :=
  [.commit 5 1, .inPlace 5 (pages 9 1), .alloc 5 (pages 10 1), .insert 0,
    .inPlace 5 { pages 11 1 with opf := { txSync 0 with txCommit := true } }, .commit 5 2,
    .flush 5 [⟨0, 1⟩], .scan 5 fun _ _ => .unlocked]

theorem run_retires_safely_bracketed :
    Run.Along (RetireState.step Params.tiny fun _ => 7) (SafeRetire Params.tiny fun _ => 7)
        (RetireState.fresh tinyMounted)
        (bracketedThenScan ++ [.retire 5]) ∧
      ∃ st st', Run.run (RetireState.step Params.tiny fun _ => 7)
          (RetireState.fresh tinyMounted)
          bracketedThenScan = some st ∧
        st.step Params.tiny (fun _ => 7) (.retire 5) = some st' ∧
        st.committedSlots Params.tiny 5 = [1] ∧ RetiresSafely Params.tiny st st' := by
  have hsafe : Run.Along (RetireState.step Params.tiny fun _ => 7)
      (SafeRetire Params.tiny fun _ => 7)
      (RetireState.fresh tinyMounted)
      (bracketedThenScan ++ [.retire 5]) := by decide +kernel
  have hslots : (Run.run (RetireState.step Params.tiny fun _ => 7)
      (RetireState.fresh tinyMounted)
      bracketedThenScan).bind (fun st => (st.step Params.tiny (fun _ => 7) (.retire 5)).map
        fun _ => st.committedSlots Params.tiny 5) = some [1] := by decide +kernel
  obtain ⟨st, hrun, hrest⟩ := Option.bind_eq_some_iff.mp hslots
  obtain ⟨st', hstep, hone⟩ := Option.map_eq_some_iff.mp hrest
  exact ⟨hsafe, st, st', hrun, hstep, hone, run_retires_safely Params.tiny (fun _ => 7) _
    (fun _ _ => Ometa.zero) (fun _ => 0) (fun _ => rfl) bracketedThenScan _ st st' hsafe hrun hstep⟩

end CcNvme

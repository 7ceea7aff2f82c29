/-
CcNvme/OrderedWrites.lean

Ordered and barrier writes between and inside transactions.  A write with `REQ_ORDERED` or
`REQ_BARRIER` alone goes through the same entry points as the writes of a transaction; its
`flag` keeps the initial 0, which is `HORAE_TX_BEGIN`, so that its entry is tagged BEGIN.

`logOf` lists, from the flags and sizes of the calls alone, what the entries of a run look
like, and `HoldsLog` says that the ring holds those of them that it has not dropped: nothing is
flushed during the run, so a submit that finds the ring full empties it.

`ordered_writes_transparent_iff`: on every stream, from every idle state and for every list of
calls, leaving out the ordered writes changes nothing in what the scan of `commit_write` hands
over exactly when they are `Harmless`.  As long as the ring does not fill up and block 0 of the
journal is not met this says that each journaled write that has a BEGIN entry before it and a
`REQ_TX_COMMIT` write behind it belongs to a transaction that a write of its own opened
(`OwnBegins`); an ordered write can also take the slot, or the journal block, that a
transactional write would have had without it.
-/
import Mathlib.Data.List.Sort
import CcNvme.PlbaField
import CcNvme.Scanners

namespace CcNvme

/-! ### Calls and their entries -/

/-- A write through either entry point, or `stream_commit_tx`. -/
inductive StreamCall where
  | submitBio (b : Bio)
  | submitBioIpu (b : Bio) (forced : Bool)
  | commitTx (txid : ℕ)

def StreamCall.op (bc : BufferCache) : StreamCall → ClientOp
  | .submitBio b => .submitBio bc b
  | .submitBioIpu b forced => .submitBioIpu bc b forced
  | .commitTx txid => .commitTx txid

/-- `REQ_ORDERED` or `REQ_BARRIER`, without `REQ_TX` and `REQ_TX_COMMIT`. -/
def ReqFlags.orderedOnly (f : ReqFlags) : Bool :=
  (opIsOrderedWrite f || opIsBarrierWrite f) && !f.tx && !f.txCommit

/-- The call is an ordered or barrier write outside every transaction. -/
def StreamCall.ordered : StreamCall → Bool
  | .submitBio b => b.opf.orderedOnly
  | .submitBioIpu b _ => b.opf.orderedOnly
  | .commitTx _ => false

/-- What an entry of the run looks like to the scanner, and which kind of write it is. -/
structure LoggedWrite where
  ordered : Bool
  begins : Bool
  ends : Bool
  /-- the journal address is not 0 -/
  journaled : Bool
  deriving DecidableEq, Repr

/-- What decides how the next entry looks: `stream->committed` and the journal pointer. -/
structure EntryContext where
  committed : Bool
  ptr : ℕ

def Stream.context (s : Stream) : EntryContext := ⟨s.committed, s.jWritePtr⟩

/-- The journal pointer after a request for `nr` blocks. -/
def ptrAfter (P : Params) (sid ptr nr : ℕ) : ℕ :=
  if P.nrJournalBlock < nr then ptr
  else if P.offInJournal sid + P.nrJournalBlock < ptr + nr then P.offInJournal sid + nr
  else ptr + nr

/-- The address of a request for `nr` blocks is not 0. -/
def showsJournal (P : Params) (sid ptr nr : ℕ) : Bool :=
  P.nrJournalBlock < nr ∨ ¬ MeetsBlockZero P sid ptr nr

/-- The entry of a write that finds the given `committed` flag. -/
def Bio.logged (b : Bio) (committed journaled : Bool) : LoggedWrite where
  ordered := b.opf.orderedOnly
  begins := txFlag b.opf = .txBegin || (txFlag b.opf = .tx && committed)
  ends := txFlag b.opf = .txEnd
  journaled := journaled

/-- The entry of a call, if it stores one, and what it leaves for the next. -/
def StreamCall.log (P : Params) (sid : ℕ) (q : EntryContext) :
    StreamCall → List LoggedWrite × EntryContext
  | .submitBio b =>
      if horaePath b.opf then
        ([b.logged q.committed false], ⟨submitCommitted q.committed (txFlag b.opf), q.ptr⟩)
      else ([], q)
  | .submitBioIpu b forced =>
      if horaePath b.opf && (P.versionConsistency || forced) then
        ([b.logged q.committed (showsJournal P sid q.ptr (horaeGetSecs b))],
          ⟨submitCommitted q.committed (txFlag b.opf), ptrAfter P sid q.ptr (horaeGetSecs b)⟩)
      else ([], q)
  | .commitTx _ => ([], ⟨true, q.ptr⟩)

/-- The entries of a run. -/
def logOf (P : Params) (sid : ℕ) : EntryContext → List StreamCall → List LoggedWrite
  | _, [] => []
  | q, x :: xs => (x.log P sid q).1 ++ logOf P sid (x.log P sid q).2 xs

/-- Run the calls and a flush, and scan as `commit_write` does: the slots handed over. -/
def handedAfter (P : Params) (bc : BufferCache) (fuel sid : ℕ) (bdev : BlockDevice) (o : Olayer)
    (calls : List StreamCall) : Option (List ℕ) :=
  (Run.run (runClientOp P fuel sid) o (calls.map (·.op bc))).bind fun o' =>
    (commitWriteScan P ((streamBlkdevIssueFlush P o' [bdev] sid).stream sid)).map
      (·.flatMap Segment.handed)

/-- Of `t` entries stored without a flush in a ring of `n` slots, those dropped: every submit
that finds `n - 1` entries empties the ring. -/
def retired (n t : ℕ) : ℕ := (t - 1) / (n - 1) * (n - 1)

/-- The slots are those of the entries `ks` of a run of `t` entries that began at the counter
`T`, all of them in the ring still, so that no two of them share a slot. -/
structure InSlots (P : Params) (T t : ℕ) (ks slots : List ℕ) : Prop where
  slots : slots = ks.map fun k => (T + k) % P.nrOmeta
  live : ∀ k ∈ ks, retired P.nrOmeta t ≤ k ∧ k < t

/-- The number of transactional entries before entry `k`. -/
def txRank (log : List LoggedWrite) (k : ℕ) : ℕ := ((log.take k).filter (!·.ordered)).length

/-- **The property**, for the entries handed over with and without the ordered writes: no
ordered write is among the former, and they are the same transactional entries in the same
order. -/
structure Transparent (log : List LoggedWrite) (handed handed' : List ℕ) : Prop where
  transactional : ∀ k ∈ handed, ∃ w, log[k]? = some w ∧ w.ordered = false
  same : handed.map (txRank log) = handed'

/-- The entries since the last END. -/
def sinceEnd (log : List LoggedWrite) : List LoggedWrite :=
  Bracket.sinceCloser LoggedWrite.ends log

/-- Entry `j` of those in the ring is journaled, no END, and has a BEGIN before it since the
last END and an END behind it. -/
def Enclosed (ring : List LoggedWrite) (j : ℕ) : Prop :=
  ∃ w, ring[j]? = some w ∧ w.journaled = true ∧ w.ends = false ∧
    (∃ b ∈ sinceEnd (ring.take j), b.begins = true) ∧ ∃ e ∈ ring.drop (j + 1), e.ends = true

/-- Entry `k` of the run is enclosed by entries that, as it is itself, are in the ring still. -/
def EnclosedInRing (n : ℕ) (log : List LoggedWrite) (k : ℕ) : Prop :=
  retired n log.length ≤ k ∧
    Enclosed (log.drop (retired n log.length)) (k - retired n log.length)

/-- No ordered write is enclosed, and a transactional write is with the ordered writes exactly
if it is without them. -/
def Harmless (n : ℕ) (log log' : List LoggedWrite) : Prop :=
  ∀ k, ∀ _ : k < log.length,
    if log[k].ordered then ¬ EnclosedInRing n log k
    else (EnclosedInRing n log k ↔ EnclosedInRing n log' (txRank log k))

/-- A journaled entry, other than an END, that has a BEGIN before it since the last END and an
END behind it, is transactional, and a transactional BEGIN is among those before it. -/
def OwnBegins (log : List LoggedWrite) : Prop :=
  ∀ k, ∀ _ : k < log.length, log[k].journaled = true → log[k].ends = false →
    (∃ e ∈ log.drop (k + 1), e.ends = true) →
    (∃ b ∈ sinceEnd (log.take k), b.begins = true) →
    log[k].ordered = false ∧ ∃ b ∈ sinceEnd (log.take k), b.begins = true ∧ b.ordered = false

variable {P : Params} {bc : BufferCache} {o : Olayer} {sid fuel : ℕ} {c : Bool}
  {q q' : EntryContext}

/-! ### The log without the ordered writes -/

theorem ReqFlags.txFlag_of_orderedOnly {f : ReqFlags} (h : f.orderedOnly = true) :
    txFlag f = .txBegin := by
  simp only [ReqFlags.orderedOnly, Bool.and_eq_true, Bool.not_eq_true'] at h
  simp [txFlag, h.1.2, h.2]

/-- A call stores one entry, or none, or raises `committed`. -/
theorem StreamCall.log_cases (P : Params) (sid : ℕ) (q : EntryContext) (x : StreamCall) :
    (∃ (b : Bio) (j : Bool) (ptr : ℕ), x.ordered = b.opf.orderedOnly ∧
      x.log P sid q
        = ([b.logged q.committed j], ⟨submitCommitted q.committed (txFlag b.opf), ptr⟩)) ∨
    x.log P sid q = ([], q) ∨ x.ordered = false ∧ x.log P sid q = ([], ⟨true, q.ptr⟩) := by
  cases x with
  | submitBio b =>
      by_cases hpath : horaePath b.opf
      · exact Or.inl ⟨b, false, _, rfl, if_pos hpath⟩
      · exact Or.inr (Or.inl (if_neg hpath))
  | submitBioIpu b forced =>
      by_cases hpath : horaePath b.opf && (P.versionConsistency || forced)
      · exact Or.inl ⟨b, _, _, rfl, if_pos hpath⟩
      · exact Or.inr (Or.inl (if_neg hpath))
  | commitTx txid => exact Or.inr (Or.inr ⟨rfl, rfl⟩)

/-- An ordered write stores an ordered entry, and leaves `committed` alone. -/
theorem StreamCall.log_ordered {x : StreamCall} (h : x.ordered = true) :
    (∀ w ∈ (x.log P sid q).1, w.ordered = true) ∧
      (x.log P sid q).2.committed = q.committed := by
  rcases x.log_cases P sid q with ⟨b, j, ptr, hord, hlog⟩ | hlog | ⟨hord, -⟩
  · have hflag := ReqFlags.txFlag_of_orderedOnly (hord ▸ h)
    rw [hlog]
    exact ⟨by simpa [Bio.logged] using hord ▸ h, by simp [submitCommitted, hflag]⟩
  · rw [hlog]
    exact ⟨fun w hw => absurd hw List.not_mem_nil, rfl⟩
  · rw [hord] at h
    cases h

theorem StreamCall.log_transactional {x : StreamCall} (h : x.ordered = false) :
    ∀ w ∈ (x.log P sid q).1, w.ordered = false := by
  rcases x.log_cases P sid q with ⟨b, j, ptr, hord, hlog⟩ | hlog | ⟨-, hlog⟩
  · rw [hlog]
    simpa [Bio.logged] using hord ▸ h
  · rw [hlog]
    exact fun w hw => absurd hw List.not_mem_nil
  · rw [hlog]
    exact fun w hw => absurd hw List.not_mem_nil

/-- Where two contexts with the same `committed` flag lead a call to entries with the relation
`R`, and to contexts that keep `Q`, the transactional entries of a run are in that relation to
the entries of the run without the ordered writes. -/
theorem logOf_filter_rel {R : LoggedWrite → LoggedWrite → Prop} {Q : EntryContext → Prop}
    (hcall : ∀ (x : StreamCall) (q q' : EntryContext), q.committed = q'.committed → Q q → Q q' →
      List.Forall₂ R (x.log P sid q).1 (x.log P sid q').1 ∧
        (x.log P sid q).2.committed = (x.log P sid q').2.committed ∧
        Q (x.log P sid q).2 ∧ Q (x.log P sid q').2)
    (calls : List StreamCall) (hcommitted : q.committed = q'.committed) (hq : Q q) (hq' : Q q') :
    List.Forall₂ R ((logOf P sid q calls).filter (!·.ordered))
      (logOf P sid q' (calls.filter (!·.ordered))) := by
  induction calls generalizing q q' with
  | nil => exact List.Forall₂.nil
  | cons x xs ih =>
      obtain ⟨hrel, hnext, hQ, hQ'⟩ := hcall x q q' hcommitted hq hq'
      rw [logOf, List.filter_append]
      rcases hx : x.ordered with - | -
      · have hkeep : (x.log P sid q).1.filter (!·.ordered) = (x.log P sid q).1 :=
          List.filter_eq_self.mpr fun w hw => by simp [x.log_transactional hx w hw]
        rw [List.filter_cons_of_pos (by simp [hx]), logOf, hkeep]
        exact List.rel_append hrel (ih hnext hQ hQ')
      · obtain ⟨hlog, hc⟩ : (∀ w ∈ (x.log P sid q).1, w.ordered = true) ∧
            (x.log P sid q).2.committed = q.committed := StreamCall.log_ordered hx
        have hdrop : (x.log P sid q).1.filter (!·.ordered) = [] :=
          List.filter_eq_nil_iff.mpr fun w hw => by simp [hlog w hw]
        rw [List.filter_cons_of_neg (by simp [hx]), hdrop, List.nil_append]
        exact ih (hc.trans hcommitted) hQ hq'

/-- The run without the ordered writes stores the transactional entries. -/
theorem length_logOf_filter (calls : List StreamCall) (q : EntryContext) :
    (logOf P sid q (calls.filter (!·.ordered))).length
      = ((logOf P sid q calls).filter (!·.ordered)).length := by
  refine (logOf_filter_rel (R := fun _ _ => True) (Q := fun _ => True)
    (fun x q q' hc _ _ => ?_) calls rfl trivial trivial).length_eq.symm
  cases x with
  | submitBio b =>
      simp only [StreamCall.log]
      split_ifs
      · exact ⟨.cons trivial .nil, by rw [hc], trivial, trivial⟩
      · exact ⟨.nil, hc, trivial, trivial⟩
  | submitBioIpu b forced =>
      simp only [StreamCall.log]
      split_ifs
      · exact ⟨.cons trivial .nil, by rw [hc], trivial, trivial⟩
      · exact ⟨.nil, hc, trivial, trivial⟩
  | commitTx txid => exact ⟨.nil, rfl, trivial, trivial⟩

/-- Behind a partition that does not begin with block 0 the address is never 0. -/
theorem showsJournal_of_pos (hoff : 0 < P.offInJournal sid) {ptr : ℕ} (hptr : 0 < ptr) (nr : ℕ) :
    showsJournal P sid ptr nr = true ∧ 0 < ptrAfter P sid ptr nr := by
  constructor
  · refine decide_eq_true (Or.inr ?_)
    unfold MeetsBlockZero
    split_ifs <;> omega
  · unfold ptrAfter
    split_ifs <;> omega

/-- There the entries look the same with and without the ordered writes. -/
theorem logOf_filter_of_pos (hoff : 0 < P.offInJournal sid) (hptr : 0 < q.ptr)
    (calls : List StreamCall) :
    logOf P sid q (calls.filter (!·.ordered)) = (logOf P sid q calls).filter (!·.ordered) := by
  symm
  rw [← List.forall₂_eq_eq_eq]
  refine logOf_filter_rel (Q := fun q => 0 < q.ptr) (fun x q q' hc hq hq' => ?_) calls rfl hptr
    hptr
  cases x with
  | submitBio b =>
      simp only [StreamCall.log]
      split_ifs
      · exact ⟨.cons (by rw [hc]) .nil, by rw [hc], hq, hq'⟩
      · exact ⟨.nil, hc, hq, hq'⟩
  | submitBioIpu b forced =>
      obtain ⟨hshows, hnext⟩ := showsJournal_of_pos hoff hq (horaeGetSecs b)
      obtain ⟨hshows', hnext'⟩ := showsJournal_of_pos hoff hq' (horaeGetSecs b)
      simp only [StreamCall.log, hshows, hshows']
      split_ifs
      · exact ⟨.cons (by rw [hc]) .nil, by rw [hc], hnext, hnext'⟩
      · exact ⟨.nil, hc, hq, hq'⟩
  | commitTx txid => exact ⟨.nil, rfl, hq, hq'⟩

theorem Bio.logged_ends {b : Bio} {j : Bool} (h : (b.logged c j).ends = true) :
    (b.logged c j).ordered = false ∧ (b.logged c j).begins = false := by
  have hflag : txFlag b.opf = .txEnd := of_decide_eq_true h
  refine ⟨?_, by simp [Bio.logged, hflag]⟩
  rcases hord : b.opf.orderedOnly with - | -
  · exact hord
  · rw [ReqFlags.txFlag_of_orderedOnly hord] at hflag
    cases hflag

/-- An END entry is transactional and not a BEGIN. -/
theorem logOf_ends {calls : List StreamCall} {w : LoggedWrite} (hw : w ∈ logOf P sid q calls)
    (h : w.ends = true) : w.ordered = false ∧ w.begins = false := by
  induction calls generalizing q with
  | nil => cases hw
  | cons x xs ih =>
      rcases List.mem_append.mp hw with hw | hw
      · rcases x.log_cases P sid q with ⟨b, j, ptr, -, hlog⟩ | hlog | ⟨-, hlog⟩
        · rw [hlog] at hw
          obtain rfl := List.mem_singleton.mp hw
          exact Bio.logged_ends h
        · rw [hlog] at hw
          cases hw
        · rw [hlog] at hw
          cases hw
      · exact ih hw

/-! ### What a full ring drops -/

theorem retired_le (n t : ℕ) : retired n t ≤ t :=
  (Nat.div_mul_le_self (t - 1) (n - 1)).trans (Nat.sub_le t 1)

theorem retired_of_lt {n t : ℕ} (h : t < n) : retired n t = 0 := by
  rcases Nat.eq_zero_or_pos (t - 1) with ht | ht
  · rw [retired, ht, Nat.zero_div, Nat.zero_mul]
  · rw [retired, Nat.div_eq_of_lt (by omega), Nat.zero_mul]

/-- **The next entry**: it goes behind the others while there is room, and otherwise it is the
only one. -/
theorem retired_succ {n : ℕ} (hn : 2 ≤ n) (t : ℕ) :
    retired n (t + 1) = if t + 1 < retired n t + n then retired n t else t := by
  obtain ⟨m, rfl⟩ : ∃ m, n = m + 1 := ⟨n - 1, by omega⟩
  unfold retired
  rw [Nat.add_sub_cancel, Nat.add_sub_cancel]
  rcases t with - | t
  · rw [if_pos (by omega), Nat.zero_div]
  rw [Nat.add_sub_cancel]
  have hdiv : t / m * m + t % m = t := by
    rw [Nat.mul_comm]
    exact Nat.div_add_mod t m
  have hmod := Nat.mod_lt t (show 0 < m by omega)
  split_ifs with hroom
  · -- the remainder grows and stays below `m`
    have hsplit : t + 1 = (t % m + 1) + m * (t / m) := by
      rw [Nat.mul_comm m]
      omega
    rw [hsplit, Nat.add_mul_div_left _ _ (by omega), Nat.div_eq_of_lt (by omega), Nat.zero_add]
  · have hfull : t + 1 = (t / m + 1) * m := by
      rw [Nat.add_mul, Nat.one_mul]
      omega
    rw [hfull, Nat.mul_div_cancel _ (by omega)]

/-! ### The ring holds the log -/

theorem submitBio_stream (o : Olayer) (b : Bio) : (submitBio o b).stream = o.stream := rfl

/-- The entry looks like the write, to the scanner. -/
structure LoggedWrite.Shown (w : LoggedWrite) (e : Ometa) : Prop where
  begins : e.isBegin = w.begins
  ends : e.isEnd = w.ends
  journaled : e.plba ≠ 0 ↔ w.journaled = true

/-- A stream that has stored the log from the counter `T` on holds the entries from the `r`-th
on, nothing of them flushed. -/
structure HoldsLog (P : Params) (T r : ℕ) (s : Stream) (q : EntryContext)
    (log : List LoggedWrite) : Prop where
  cursors : Cursors P s (T + r) (T + r) (T + log.length)
  context : s.context = q
  shown : ∀ (i : ℕ) (w : LoggedWrite), r ≤ i → log[i]? = some w →
    w.Shown (s.ometa ((T + i) % P.nrOmeta))

theorem Stream.alloc_jWritePtr (hsid : sid < P.nrStreams) (s : Stream) (nr : ℕ) :
    (s.alloc P sid nr).jWritePtr = ptrAfter P sid s.jWritePtr nr := by
  unfold Stream.alloc Stream.allocRoom ptrAfter
  rw [Nat.mod_eq_of_lt (P.offInJournal_add_lt hsid), Nat.add_comm nr]
  split_ifs <;> rfl

theorem Stream.showsJournal_iff (hsid : sid < P.nrStreams) (s : Stream) (nr : ℕ) :
    s.allocAddr P sid nr % 2 ^ 32 ≠ 0 ↔ showsJournal P sid s.jWritePtr nr = true := by
  rw [showsJournal, decide_eq_true_eq]
  rcases Nat.lt_or_ge P.nrJournalBlock nr with hlarge | hfits
  · have haddr : s.allocAddr P sid nr = 2 ^ 32 - 1 := if_pos hlarge
    rw [haddr]
    exact iff_of_true (by decide) (Or.inl hlarge)
  · have haddr : s.allocAddr P sid nr % 2 ^ 32 = s.allocAddr P sid nr := by
      rw [Stream.allocAddr, if_neg (Nat.not_lt.mpr hfits), Nat.mod_mod]
    rw [haddr, ne_eq, Stream.allocAddr_eq_zero_iff hsid s hfits]
    exact (or_iff_right (Nat.not_lt.mpr hfits)).symm

/-- The entry of a write with the given journal address. -/
theorem Bio.shown_fillOmeta (b : Bio) (c : Bool) {plba : ℕ} {j : Bool}
    (hj : plba % 2 ^ 32 ≠ 0 ↔ j = true) (old : Ometa) :
    (b.logged c j).Shown (fillOmeta old c
      ⟨horaeGetLba b, horaeGetSecs b, b.dev.diskMinor, plba, txFlag b.opf⟩) := by
  refine ⟨?_, ?_, hj⟩
  · rcases e : txFlag b.opf with - | - | - <;> cases c <;>
      simp [Ometa.isBegin, fillOmeta, submitTag, Bio.logged, e, HoraeFlag.bit, HoraeFlag.val]
  · rcases e : txFlag b.opf with - | - | - <;> cases c <;>
      simp [Ometa.isEnd, fillOmeta, submitTag, Bio.logged, e, HoraeFlag.bit, HoraeFlag.val]

namespace HoldsLog

variable {s : Stream} {log : List LoggedWrite} {T r : ℕ}

/-- An idle stream holds the empty log. -/
theorem init (h : Cursors P s T T T) :
    HoldsLog P T (retired P.nrOmeta ([] : List LoggedWrite).length) s s.context [] := by
  rw [List.length_nil, retired_of_lt nrOmeta_pos]
  exact ⟨h, rfl, fun i w _ hw => by simp at hw⟩

/-- Publishing an entry appends it to the log. -/
theorem publish (h : HoldsLog P T r (o.stream sid) q log) (hroom : log.length + 1 < r + P.nrOmeta)
    {a : SubmitArgs} {w : LoggedWrite} (hw : ∀ old, w.Shown (fillOmeta old q.committed a)) :
    HoldsLog P T r ((publish P o sid a ((T + log.length) % P.nrOmeta)
        ((T + log.length + 1) % P.nrOmeta)).stream sid)
      ⟨submitCommitted q.committed a.flags, q.ptr⟩ (log ++ [w]) := by
  have hcur := h.cursors.publish a (by omega)
  have hcommitted : (o.stream sid).committed = q.committed :=
    congrArg EntryContext.committed h.context
  refine ⟨by rw [List.length_append]; exact hcur, ?_, fun i v hi hv => ?_⟩
  · rw [publish_stream, ← h.context]
    rfl
  · rw [publish_stream]
    show v.Shown (Function.update (o.stream sid).ometa ((T + log.length) % P.nrOmeta) _
      ((T + i) % P.nrOmeta))
    rw [hcommitted]
    rcases Nat.lt_trichotomy i log.length with hlt | rfl | hgt
    · rw [List.getElem?_append_left hlt] at hv
      rw [Function.update_of_ne (h.cursors.tail_not_live (by omega) (by omega))]
      exact h.shown i v hi hv
    · rw [List.getElem?_concat_length, Option.some.injEq] at hv
      rw [Function.update_self, ← hv]
      exact hw _
    · rw [List.getElem?_eq_none (by rw [List.length_append, List.length_singleton]; omega)] at hv
      cases hv

/-- An allocation moves the journal pointer only, since nothing is flushed. -/
theorem alloc (hsid : sid < P.nrStreams) (h : HoldsLog P T r s q log) (nr : ℕ) :
    HoldsLog P T r (s.alloc P sid nr) ⟨q.committed, ptrAfter P sid q.ptr nr⟩ log := by
  obtain ⟨H, hle, hcur⟩ := h.cursors.alloc sid nr
  obtain rfl : H = T + r := le_antisymm hcur.head_le hle
  refine ⟨hcur, ?_, fun i w hi hw => ?_⟩
  · rw [Stream.context, Stream.alloc_committed, Stream.alloc_jWritePtr hsid, ← h.context]
    rfl
  · rw [Stream.alloc_ometa]
    exact h.shown i w hi hw

/-- A checkpoint of a full ring drops all entries, since none of them is flushed. -/
theorem makeRoom (h : HoldsLog P T r s q log) (sid : ℕ) :
    HoldsLog P T (if log.length + 1 < r + P.nrOmeta then r else log.length) (s.makeRoom P sid) q
      log := by
  have hle : T + r ≤ T + log.length := h.cursors.flushed_le
  have hcur := h.cursors.makeRoom sid
  have hcond : (T + log.length - (T + r) + 1 < P.nrOmeta) ↔ log.length + 1 < r + P.nrOmeta := by
    omega
  simp only [roomCounters, hcond, if_true] at hcur
  refine ⟨?_, ?_, fun i w hi hw => ?_⟩
  · split_ifs at hcur ⊢
    · exact hcur
    · exact hcur
  · rw [← h.context]
    unfold Stream.makeRoom
    rw [if_pos (h.cursors.head_eq_flushed_iff.mpr rfl)]
    split_ifs <;> rfl
  · rw [Stream.makeRoom_ometa]
    refine h.shown i w ?_ hw
    split_ifs at hi <;> omega

/-- **An entry is stored**, after the checkpoint that makes room for it. -/
theorem stored (hN : 2 ≤ P.nrOmeta)
    (h : HoldsLog P T (retired P.nrOmeta log.length) (o.stream sid) q log) {o₁ : Olayer}
    (hck : CheckpointOf P bc sid o o₁) {a : SubmitArgs} {w : LoggedWrite}
    (hw : ∀ old, w.Shown (fillOmeta old q.committed a)) :
    HoldsLog P T (retired P.nrOmeta (log ++ [w]).length)
      ((CcNvme.publish P o₁ sid a ((T + log.length) % P.nrOmeta)
        ((T + log.length + 1) % P.nrOmeta)).stream sid)
      ⟨submitCommitted q.committed a.flags, q.ptr⟩ (log ++ [w]) := by
  have hroom := h.makeRoom sid
  rw [← retired_succ hN, ← hck.self] at hroom
  rw [List.length_append, List.length_singleton]
  refine hroom.publish ?_ hw
  rw [retired_succ hN]
  split_ifs <;> omega

theorem submitBio (hN : 2 ≤ P.nrOmeta) (hfuel : 2 ≤ fuel) (hsid : sid < P.nrStreams)
    (h : HoldsLog P T (retired P.nrOmeta log.length) (o.stream sid) q log) (b : Bio) :
    ∃ o', streamSubmitBio P bc fuel o b sid = some o' ∧
      HoldsLog P T (retired P.nrOmeta (log ++ ((StreamCall.submitBio b).log P sid q).1).length)
        (o'.stream sid) ((StreamCall.submitBio b).log P sid q).2
        (log ++ ((StreamCall.submitBio b).log P sid q).1) := by
  by_cases hpath : horaePath b.opf
  · have hlog : (StreamCall.submitBio b).log P sid q = ([b.logged q.committed false],
        ⟨submitCommitted q.committed (txFlag b.opf), q.ptr⟩) := if_pos hpath
    rw [hlog]
    obtain ⟨o₁, hck, hcore⟩ := streamSubmitBioCore_spec bc hN hfuel
      ⟨horaeGetLba b, horaeGetSecs b, b.dev.diskMinor, 0, txFlag b.opf⟩ h.cursors
    have hentry := h.stored hN hck
      (b.shown_fillOmeta q.committed (by simp : 0 % 2 ^ 32 ≠ 0 ↔ false = true))
    simp only [streamSubmitBio, clampSid_of_lt hsid, hpath, Bool.not_true, Bool.false_eq_true,
      if_false, hcore, Option.map_some]
    refine ⟨_, rfl, ?_⟩
    rw [submitBio_stream]
    exact hentry
  · have hlog : (StreamCall.submitBio b).log P sid q = ([], q) := if_neg hpath
    rw [hlog, List.append_nil]
    refine ⟨CcNvme.submitBio o { b with opf := submitOpf b.opf }, ?_, h⟩
    simp only [streamSubmitBio, hpath, Bool.not_false, if_true]

theorem submitBioIpu (hN : 2 ≤ P.nrOmeta) (hfuel : 2 ≤ fuel) (hsid : sid < P.nrStreams)
    (h : HoldsLog P T (retired P.nrOmeta log.length) (o.stream sid) q log) (b : Bio)
    (forced : Bool) :
    ∃ o', streamSubmitBioIpu P bc fuel o b sid forced = some o' ∧
      HoldsLog P T
        (retired P.nrOmeta (log ++ ((StreamCall.submitBioIpu b forced).log P sid q).1).length)
        (o'.stream sid) ((StreamCall.submitBioIpu b forced).log P sid q).2
        (log ++ ((StreamCall.submitBioIpu b forced).log P sid q).1) := by
  by_cases hpath : horaePath b.opf && (P.versionConsistency || forced)
  · have hlog : (StreamCall.submitBioIpu b forced).log P sid q
        = ([b.logged q.committed (showsJournal P sid q.ptr (horaeGetSecs b))],
          ⟨submitCommitted q.committed (txFlag b.opf), ptrAfter P sid q.ptr (horaeGetSecs b)⟩) :=
      if_pos hpath
    rw [hlog]
    obtain ⟨hp, hv⟩ := Bool.and_eq_true_iff.mp hpath
    have hforce : streamSubmitBioIpu P bc fuel o b sid forced
        = streamSubmitBioIpu P bc fuel o b sid true := by
      rw [streamSubmitBioIpu, streamSubmitBioIpu, hv, Bool.or_true]
    obtain ⟨o₁, o₂, b', halloc, hck, heq⟩ :=
      streamSubmitBioIpu_spec bc hN hfuel hsid hp h.cursors
    have hptr : (o.stream sid).jWritePtr = q.ptr := congrArg EntryContext.ptr h.context
    have haddr := (o.stream sid).showsJournal_iff hsid (horaeGetSecs b)
    rw [hptr] at haddr
    have h₁ := h.alloc hsid (horaeGetSecs b)
    rw [← halloc.self] at h₁
    refine ⟨_, hforce.trans heq, ?_⟩
    rw [submitBio_stream]
    exact h₁.stored hN hck (b.shown_fillOmeta q.committed haddr)
  · have hlog : (StreamCall.submitBioIpu b forced).log P sid q = ([], q) := if_neg hpath
    rw [hlog, List.append_nil]
    refine ⟨CcNvme.submitBio o { b with opf := ipuOpf b.opf }, ?_, h⟩
    unfold streamSubmitBioIpu
    dsimp only
    split_ifs with hp hv
    · rfl
    · exact absurd (Bool.and_eq_true_iff.mpr ⟨by simpa using hp, hv⟩) hpath
    · rfl

theorem commitTx (h : HoldsLog P T r (o.stream sid) q log) (txid : ℕ) :
    HoldsLog P T r ((streamCommitTx o sid txid).stream sid) ⟨true, q.ptr⟩ log := by
  refine ⟨h.cursors.commitTx txid, ?_, fun i w hi hw => ?_⟩
  · rw [streamCommitTx_stream, ← h.context]
    rfl
  · obtain ⟨hlt, -⟩ := List.getElem?_eq_some_iff.mp hw
    rw [h.cursors.commitTx_ometa txid (by omega) (by omega)]
    exact h.shown i w hi hw

/-- **One call** appends its entry to the log. -/
theorem call (hN : 2 ≤ P.nrOmeta) (hfuel : 2 ≤ fuel) (hsid : sid < P.nrStreams)
    (h : HoldsLog P T (retired P.nrOmeta log.length) (o.stream sid) q log) (x : StreamCall) :
    ∃ o', runClientOp P fuel sid o (x.op bc) = some o' ∧
      HoldsLog P T (retired P.nrOmeta (log ++ (x.log P sid q).1).length) (o'.stream sid)
        (x.log P sid q).2 (log ++ (x.log P sid q).1) := by
  cases x with
  | submitBio b => exact h.submitBio hN hfuel hsid b
  | submitBioIpu b forced => exact h.submitBioIpu hN hfuel hsid b forced
  | commitTx txid => exact ⟨_, rfl, (List.append_nil log).symm ▸ h.commitTx txid⟩

/-- **A run** appends its log. -/
theorem run (bc : BufferCache) (hN : 2 ≤ P.nrOmeta) (hfuel : 2 ≤ fuel) (hsid : sid < P.nrStreams)
    (h : HoldsLog P T (retired P.nrOmeta log.length) (o.stream sid) q log)
    (calls : List StreamCall) :
    ∃ o', Run.run (runClientOp P fuel sid) o (calls.map (·.op bc)) = some o' ∧
      ∃ q', HoldsLog P T (retired P.nrOmeta (log ++ logOf P sid q calls).length)
        (o'.stream sid) q' (log ++ logOf P sid q calls) := by
  induction calls generalizing o q log with
  | nil => exact ⟨o, rfl, q, by rwa [logOf, List.append_nil]⟩
  | cons x xs ih =>
      rw [logOf, ← List.append_assoc]
      obtain ⟨o₁, h₁, hlog₁⟩ := h.call hN hfuel hsid x
      obtain ⟨o₂, h₂, hlog₂⟩ := ih hlog₁
      exact ⟨o₂, Run.run_cons_eq_some.mpr ⟨o₁, h₁, h₂⟩, hlog₂⟩

end HoldsLog

/-! ### The scan -/

section Scan

variable {e : ℕ → Ometa} {ring : List LoggedWrite}

/-- The positions handed over, of the entries `e` in the order of the ring. -/
def handedPositions (e : ℕ → Ometa) (t : ℕ) : List ℕ :=
  (Bracket.groups (fun j => (e j).isBegin) (fun j => (e j).isEnd) (List.range t)).flatten.filter
    fun j => (e j).plba ≠ 0

theorem parse_eq_handedPositions {s : Stream} {H T : ℕ} (hcur : Cursors P s H T T) :
    s.parse P = (handedPositions (fun j => s.ometa ((H + j) % P.nrOmeta)) (T - H)).map
      fun j => (H + j) % P.nrOmeta := by
  rw [Stream.parse, hcur.head_eq, hcur.flushed_eq, slotsOf_mod hcur.head_le hcur.window,
    Bracket.groups_map, List.flatMap_def, ← List.filter_flatten, List.map_flatten.symm,
    List.filter_map]
  rfl

/-- A BEGIN since the last END is one of the log. -/
theorem open_iff (hshown : ∀ (i : ℕ) (w : LoggedWrite), ring[i]? = some w → w.Shown (e i))
    (k : ℕ) :
    (∃ b ∈ Bracket.sinceCloser (fun i => (e i).isEnd) ((List.range ring.length).take k),
        (e b).isBegin = true) ↔
      ∃ b ∈ sinceEnd (ring.take k), b.begins = true := by
  simp only [sinceEnd, Bracket.mem_sinceCloser_take_iff]
  constructor
  · rintro ⟨b, ⟨i, hi, hb, hno⟩, hB⟩
    obtain ⟨hlen, rfl⟩ : i < ring.length ∧ i = b := by simpa using List.getElem?_eq_some_iff.mp hb
    have hw := List.getElem?_eq_getElem hlen
    refine ⟨ring[i], ⟨i, hi, hw, fun j hj hij y hy => ?_⟩, (hshown i _ hw).begins ▸ hB⟩
    obtain ⟨hjlen, -⟩ := List.getElem?_eq_some_iff.mp hy
    rw [← (hshown j y hy).ends]
    exact hno j hj hij j (by simp [hjlen])
  · rintro ⟨w, ⟨i, hi, hw, hno⟩, hB⟩
    obtain ⟨hlen, -⟩ := List.getElem?_eq_some_iff.mp hw
    refine ⟨i, ⟨i, hi, by simp [hlen], fun j hj hij y hy => ?_⟩, (hshown i w hw).begins ▸ hB⟩
    obtain ⟨hjlen, rfl⟩ : j < ring.length ∧ j = y := by simpa using List.getElem?_eq_some_iff.mp hy
    have hwj := List.getElem?_eq_getElem hjlen
    rw [(hshown j _ hwj).ends]
    exact hno j hj hij _ hwj

/-- What the scan hands over can be read off the log. -/
theorem mem_handedPositions_iff
    (hshown : ∀ (i : ℕ) (w : LoggedWrite), ring[i]? = some w → w.Shown (e i))
    (hends : ∀ w ∈ ring, w.ends = true → w.begins = false) {k : ℕ} :
    k ∈ handedPositions e ring.length ↔ Enclosed ring k := by
  have hexcl : ∀ i ∈ (List.range ring.length).take k,
      (e i).isBegin = true → (e i).isEnd = false := by
    intro i hi hB
    have hw := List.getElem?_eq_getElem (List.mem_range.mp (List.mem_of_mem_take hi))
    rw [(hshown i _ hw).begins] at hB
    rw [(hshown i _ hw).ends, Bool.eq_false_iff]
    intro hE
    rw [hends _ (List.mem_of_getElem? hw) hE] at hB
    cases hB
  rw [handedPositions, List.mem_filter, Bracket.mem_groups_iff]
  constructor
  · rintro ⟨⟨us, vs, hsplit, hopen, hE, e, he, hEe⟩, hplba⟩
    have hat : (List.range ring.length)[us.length]? = some k := by rw [hsplit]; simp
    obtain ⟨hk, hlen⟩ : us.length < ring.length ∧ us.length = k := by
      simpa using List.getElem?_eq_some_iff.mp hat
    have hus : us = (List.range ring.length).take k := by
      rw [hsplit, ← hlen, List.take_left]
    rw [hlen] at hk
    have hw := List.getElem?_eq_getElem hk
    have hshownk := hshown k _ hw
    rw [hus, Bracket.isSome_rest_iff hexcl, open_iff hshown] at hopen
    refine ⟨ring[k], hw, hshownk.journaled.mp (by simpa using hplba), hshownk.ends ▸ hE, hopen, ?_⟩
    -- the END behind `k`
    obtain ⟨i, hi⟩ := List.getElem?_of_mem he
    have hate : (List.range ring.length)[k + 1 + i]? = some e := by
      rw [hsplit, ← hlen, List.getElem?_append_right (by omega)]
      simpa [show us.length + 1 + i - us.length = i + 1 by omega] using hi
    obtain ⟨hlt, rfl⟩ : k + 1 + i < ring.length ∧ k + 1 + i = e := by
      simpa using List.getElem?_eq_some_iff.mp hate
    have hwe := List.getElem?_eq_getElem hlt
    refine ⟨ring[k + 1 + i], ?_, (hshown _ _ hwe).ends ▸ hEe⟩
    rw [← List.getElem?_drop] at hwe
    exact List.mem_of_getElem? hwe
  · rintro ⟨w, hw, hj, hE, hopen, e, he, hEe⟩
    obtain ⟨hk, -⟩ := List.getElem?_eq_some_iff.mp hw
    have hshownk := hshown k w hw
    refine ⟨⟨(List.range ring.length).take k, (List.range ring.length).drop (k + 1), ?_, ?_,
      hshownk.ends.trans hE, ?_⟩, by simpa using hshownk.journaled.mpr hj⟩
    · have hdrop := List.drop_eq_getElem_cons (l := List.range ring.length) (by simpa using hk)
      rw [List.getElem_range] at hdrop
      rw [← hdrop, List.take_append_drop]
    · exact (Bracket.isSome_rest_iff hexcl).mpr ((open_iff hshown k).mpr hopen)
    · obtain ⟨i, hi⟩ := List.getElem?_of_mem he
      rw [List.getElem?_drop] at hi
      obtain ⟨hlt, -⟩ := List.getElem?_eq_some_iff.mp hi
      refine ⟨k + 1 + i, ?_, (hshown _ e hi).ends.trans hEe⟩
      apply List.mem_of_getElem? (i := i)
      rw [List.getElem?_drop]
      simp [hlt]

theorem handedPositions_increasing (e : ℕ → Ometa) (t : ℕ) :
    (handedPositions e t).Pairwise (· < ·) :=
  (List.pairwise_lt_range.sublist (Bracket.groups_flatten_sublist _)).filter _

end Scan

/-! ### With and without the ordered writes -/

section Compare

variable {log : List LoggedWrite}

theorem enclosed_append {us vs : List LoggedWrite} {w : LoggedWrite} :
    Enclosed (us ++ w :: vs) us.length ↔ w.journaled = true ∧ w.ends = false ∧
      (∃ b ∈ sinceEnd us, b.begins = true) ∧ ∃ e ∈ vs, e.ends = true := by
  simp [Enclosed]

/-- A transactional entry is enclosed in the run without the ordered writes when a transactional
BEGIN stands before it. -/
theorem enclosed_filter {us vs : List LoggedWrite} {w : LoggedWrite}
    (hends : ∀ v ∈ us ++ w :: vs, v.ends = true → v.ordered = false) (hw : w.ordered = false) :
    Enclosed ((us ++ w :: vs).filter (!·.ordered)) (us.filter (!·.ordered)).length ↔
      w.journaled = true ∧ w.ends = false ∧
        (∃ b ∈ sinceEnd us, b.begins = true ∧ b.ordered = false) ∧ ∃ e ∈ vs, e.ends = true := by
  have hus : sinceEnd (us.filter (!·.ordered)) = (sinceEnd us).filter (!·.ordered) :=
    Bracket.sinceCloser_filter fun x hx hE => by simp [hends x (List.mem_append_left _ hx) hE]
  rw [List.filter_append, List.filter_cons_of_pos (by simp [hw]), enclosed_append, hus]
  refine and_congr_right fun _ => and_congr_right fun _ => and_congr ?_ ?_
  · constructor
    · rintro ⟨b, hb, hB⟩
      obtain ⟨hb, hord⟩ := List.mem_filter.mp hb
      exact ⟨b, hb, hB, by simpa using hord⟩
    · rintro ⟨b, hb, hB, hord⟩
      exact ⟨b, List.mem_filter.mpr ⟨hb, by simpa using hord⟩, hB⟩
  · constructor
    · rintro ⟨e, he, hE⟩
      exact ⟨e, List.mem_of_mem_filter he, hE⟩
    · rintro ⟨e, he, hE⟩
      have hord := hends e (by simp [he]) hE
      exact ⟨e, List.mem_filter.mpr ⟨he, by simpa using hord⟩, hE⟩

theorem exists_split {k : ℕ} {w : LoggedWrite} (h : log[k]? = some w) :
    ∃ us vs, log = us ++ w :: vs ∧ us.length = k := by
  obtain ⟨hk, rfl⟩ := List.getElem?_eq_some_iff.mp h
  refine ⟨log.take k, log.drop (k + 1), ?_, by simp; omega⟩
  rw [← List.drop_eq_getElem_cons hk, List.take_append_drop]

theorem txRank_append {us vs : List LoggedWrite} :
    txRank (us ++ vs) us.length = (us.filter (!·.ordered)).length := by
  rw [txRank, List.take_left]

theorem txRank_lt {i j : ℕ} {w : LoggedWrite} (hi : log[i]? = some w) (hw : w.ordered = false)
    (hij : i < j) : txRank log i < txRank log j := by
  obtain ⟨us, vs, rfl, rfl⟩ := exists_split hi
  obtain ⟨d, rfl⟩ := Nat.exists_eq_add_of_lt hij
  rw [txRank_append, txRank, List.take_append, List.take_of_length_le (by omega),
    show us.length + d + 1 - us.length = d + 1 by omega, List.take_succ_cons, List.filter_append,
    List.filter_cons_of_pos (by simp [hw]), List.length_append, List.length_cons]
  omega

/-- The same at a position of the run with them. -/
theorem enclosed_txRank {k : ℕ} {w : LoggedWrite}
    (hends : ∀ v ∈ log, v.ends = true → v.ordered = false) (hw : log[k]? = some w)
    (hord : w.ordered = false) :
    Enclosed (log.filter (!·.ordered)) (txRank log k) ↔ w.journaled = true ∧ w.ends = false ∧
      (∃ b ∈ sinceEnd (log.take k), b.begins = true ∧ b.ordered = false) ∧
        ∃ e ∈ log.drop (k + 1), e.ends = true := by
  obtain ⟨us, vs, rfl, rfl⟩ := exists_split hw
  rw [txRank_append, enclosed_filter hends hord, List.take_left]
  simp

/-- An entry of the run without the ordered writes has a place in the run with them. -/
theorem exists_txRank {j : ℕ} {w : LoggedWrite}
    (hw : (log.filter (!·.ordered))[j]? = some w) :
    ∃ k, log[k]? = some w ∧ w.ordered = false ∧ txRank log k = j := by
  obtain ⟨us', vs', hsplit, rfl⟩ := exists_split hw
  obtain ⟨us, rest, rfl, rfl, hrest⟩ := List.filter_eq_append_iff.mp hsplit
  obtain ⟨skip, vs, rfl, hskip, hord, -⟩ := List.filter_eq_cons_iff.mp hrest
  have hnone : skip.filter (!·.ordered) = [] :=
    List.filter_eq_nil_iff.mpr fun x hx => hskip x hx
  refine ⟨(us ++ skip).length, by simp, by simpa using hord, ?_⟩
  rw [← List.append_assoc, txRank_append, List.filter_append, hnone, List.append_nil]

theorem txRank_inj {i j : ℕ} {v w : LoggedWrite} (hi : log[i]? = some v) (hv : v.ordered = false)
    (hj : log[j]? = some w) (hw : w.ordered = false) (h : txRank log i = txRank log j) : i = j := by
  rcases Nat.lt_trichotomy i j with hlt | rfl | hgt
  · exact absurd h (txRank_lt hi hv hlt).ne
  · rfl
  · exact absurd h (txRank_lt hj hw hgt).ne'

/-- Of the entries handed over in the two runs, the property holds exactly when the ordered
writes are harmless. -/
theorem transparent_iff_harmless {n : ℕ} {log' : List LoggedWrite} {handed handed' : List ℕ}
    (hlen : log'.length = (log.filter (!·.ordered)).length)
    (hmem : ∀ k, k ∈ handed ↔ EnclosedInRing n log k)
    (hmem' : ∀ k, k ∈ handed' ↔ EnclosedInRing n log' k)
    (hlive : ∀ k ∈ handed, k < log.length) (hlive' : ∀ k ∈ handed', k < log'.length)
    (hlt : handed.Pairwise (· < ·)) (hlt' : handed'.Pairwise (· < ·)) :
    Transparent log handed handed' ↔ Harmless n log log' := by
  constructor
  · intro h k hk
    have hw := List.getElem?_eq_getElem hk
    rcases hord : log[k].ordered with - | -
    · rw [if_neg Bool.false_ne_true, ← hmem, ← hmem', ← h.same]
      refine ⟨fun hat => List.mem_map_of_mem hat, fun hrank => ?_⟩
      obtain ⟨i, hi, heq⟩ := List.mem_map.mp hrank
      obtain ⟨v, hv, hvord⟩ := h.transactional i hi
      obtain rfl := txRank_inj hv hvord hw hord heq
      exact hi
    · rw [if_pos rfl, ← hmem]
      intro hat
      obtain ⟨w, hw', hworder⟩ := h.transactional k hat
      obtain rfl := Option.some.inj (hw.symm.trans hw')
      rw [hord] at hworder
      cases hworder
  · intro h
    have htx : ∀ k ∈ handed, ∃ w, log[k]? = some w ∧ w.ordered = false ∧
        txRank log k ∈ handed' := by
      intro k hat
      have hk := hlive k hat
      have hiff := h k hk
      rcases hord : log[k].ordered with - | -
      · rw [hord, if_neg Bool.false_ne_true, ← hmem, ← hmem'] at hiff
        exact ⟨_, List.getElem?_eq_getElem hk, hord, hiff.mp hat⟩
      · rw [hord, if_pos rfl, ← hmem] at hiff
        exact absurd hat hiff
    refine ⟨fun k hk => ?_, ?_⟩
    · obtain ⟨w, hw, hord, -⟩ := htx k hk
      exact ⟨w, hw, hord⟩
    · refine List.Pairwise.eq_of_mem_iff (r := (· < ·)) ?_ hlt' fun j => ?_
      · refine List.pairwise_map.mpr (hlt.imp_of_mem fun {i j} hi _ hij => ?_)
        obtain ⟨w, hw, hord, -⟩ := htx i hi
        exact txRank_lt hw hord hij
      · constructor
        · intro hj
          obtain ⟨k, hk, rfl⟩ := List.mem_map.mp hj
          obtain ⟨w, -, -, hat⟩ := htx k hk
          exact hat
        · intro hj
          have hjlen : j < (log.filter (!·.ordered)).length := hlen ▸ hlive' j hj
          obtain ⟨k, hk, hord, rfl⟩ := exists_txRank (List.getElem?_eq_getElem hjlen)
          obtain ⟨hklen, hget⟩ := List.getElem?_eq_some_iff.mp hk
          have hiff := h k hklen
          rw [hget, hord, if_neg Bool.false_ne_true, ← hmem, ← hmem'] at hiff
          exact List.mem_map_of_mem (hiff.mpr hj)

/-- When the ring drops nothing and the entries look the same without the ordered writes, these
are harmless if every enclosed write belongs to a transaction that a write of its own opened. -/
theorem harmless_iff_ownBegins {n : ℕ} (hfits : log.length < n)
    (hends : ∀ v ∈ log, v.ends = true → v.ordered = false) :
    Harmless n log (log.filter (!·.ordered)) ↔ OwnBegins log := by
  have hring : ∀ k, EnclosedInRing n log k ↔ Enclosed log k := by
    intro k
    rw [EnclosedInRing, retired_of_lt hfits]
    simp
  have hring' : ∀ k, EnclosedInRing n (log.filter (!·.ordered)) k ↔
      Enclosed (log.filter (!·.ordered)) k := by
    intro k
    rw [EnclosedInRing, retired_of_lt ((List.length_filter_le _ _).trans_lt hfits)]
    simp
  refine forall_congr' fun k => forall_congr' fun hk => ?_
  have hw := List.getElem?_eq_getElem hk
  have hat : Enclosed log k ↔ log[k].journaled = true ∧ log[k].ends = false ∧
      (∃ b ∈ sinceEnd (log.take k), b.begins = true) ∧
        ∃ e ∈ log.drop (k + 1), e.ends = true := by
    simp [Enclosed, hw]
  rw [hring, hring']
  rcases hord : log[k].ordered with - | -
  · rw [if_neg Bool.false_ne_true, enclosed_txRank hends hw hord, hat]
    constructor
    · intro h hj hE hclose hopen
      exact ⟨rfl, (h.mp ⟨hj, hE, hopen, hclose⟩).2.2.1⟩
    · intro h
      constructor
      · rintro ⟨hj, hE, hopen, hclose⟩
        exact ⟨hj, hE, (h hj hE hclose hopen).2, hclose⟩
      · rintro ⟨hj, hE, ⟨b, hb, hB, -⟩, hclose⟩
        exact ⟨hj, hE, ⟨b, hb, hB⟩, hclose⟩
  · rw [if_pos rfl, hat]
    constructor
    · intro h hj hE hclose hopen
      exact absurd ⟨hj, hE, hopen, hclose⟩ h
    · rintro h ⟨hj, hE, hopen, hclose⟩
      exact Bool.false_ne_true (h hj hE hclose hopen).1.symm

end Compare

/-- The run returns, and the scan hands over the entries that the log says. -/
theorem handedAfter_spec (hN : 2 ≤ P.nrOmeta) (hfuel : 2 ≤ fuel) (hsid : sid < P.nrStreams)
    {T : ℕ} (ho : Cursors P (o.stream sid) T T T) (bc : BufferCache) (bdev : BlockDevice)
    (calls : List StreamCall) {log : List LoggedWrite}
    (hlog : logOf P sid (o.stream sid).context calls = log) :
    ∃ slots ks, handedAfter P bc fuel sid bdev o calls = some slots ∧
      InSlots P T log.length ks slots ∧ (∀ k, k ∈ ks ↔ EnclosedInRing P.nrOmeta log k) ∧
      ks.Pairwise (· < ·) := by
  obtain ⟨o', hrun, q', hholds⟩ := (HoldsLog.init ho).run bc hN hfuel hsid calls
  rw [List.nil_append, hlog] at hholds
  have hends : ∀ w ∈ log, w.ends = true → w.begins = false :=
    fun w hw hE => (logOf_ends (hlog ▸ hw) hE).2
  generalize hr : retired P.nrOmeta log.length = r at hholds
  have hle : r ≤ log.length := hr ▸ retired_le _ _
  have hcur := hholds.cursors.flush hsid (by simp : [bdev].length ≠ 0)
  -- the entries in the ring, by their position there
  have hshown : ∀ (i : ℕ) (w : LoggedWrite), (log.drop r)[i]? = some w →
      w.Shown (((streamBlkdevIssueFlush P o' [bdev] sid).stream sid).ometa
        ((T + r + i) % P.nrOmeta)) := by
    intro i w hw
    rw [List.getElem?_drop] at hw
    rw [(flush_stream o' hsid [bdev]).1, Nat.add_assoc]
    exact hholds.shown (r + i) w (Nat.le_add_right r i) hw
  have hmem : ∀ j, _ ↔ Enclosed (log.drop r) j := fun j =>
    mem_handedPositions_iff hshown (fun w hw => hends w (List.mem_of_mem_drop hw)) (k := j)
  have hparse := parse_eq_handedPositions hcur
  rw [show T + log.length - (T + r) = (log.drop r).length by rw [List.length_drop]; omega] at hparse
  have hpos := handedPositions_increasing (fun j => ((streamBlkdevIssueFlush P o' [bdev]
    sid).stream sid).ometa ((T + r + j) % P.nrOmeta)) (log.drop r).length
  generalize handedPositions _ _ = js at hmem hparse hpos
  refine ⟨js.map fun j => (T + r + j) % P.nrOmeta, js.map (r + ·), ?_, ⟨?_, fun k hk => ?_⟩,
    fun k => ?_, ?_⟩
  · rw [handedAfter, hrun, Option.bind_some, commitWriteScan_eq hcur.inRing.head_lt
      hcur.inRing.flushed_lt, Option.map_some, Stream.delimited, Segment.flatMap_handed,
      pairs_flatMap_between hcur.inRing.head_lt fun _ _ => rfl, hparse]
  · rw [List.map_map]
    exact List.map_congr_left fun j _ => by simp only [Function.comp_apply, Nat.add_assoc]
  · obtain ⟨j, hj, rfl⟩ := List.mem_map.mp hk
    obtain ⟨w, hw, -⟩ := (hmem j).mp hj
    obtain ⟨hlt, -⟩ := List.getElem?_eq_some_iff.mp hw
    rw [List.length_drop] at hlt
    exact ⟨hr ▸ Nat.le_add_right r j, by omega⟩
  · rw [EnclosedInRing, hr, List.mem_map]
    constructor
    · rintro ⟨j, hj, rfl⟩
      rw [Nat.add_sub_cancel_left]
      exact ⟨Nat.le_add_right r j, (hmem j).mp hj⟩
    · rintro ⟨hk, hat⟩
      exact ⟨k - r, (hmem _).mpr hat, by omega⟩
  · exact List.pairwise_map.mpr (hpos.imp fun hij => Nat.add_lt_add_left hij r)

/-- **Ordered writes among transactions.**  For every stream that is idle, wherever its cursors
and its journal pointer are, and for every list of calls, the scan returns with and without the
ordered writes, and these are transparent to it exactly when they are harmless.  As long as the
ring does not fill up and the partition does not begin with block 0, that is when each enclosed
write belongs to a transaction that a write of its own opened. -/
theorem ordered_writes_transparent_iff (P : Params) (hN : 2 ≤ P.nrOmeta) {fuel : ℕ}
    (hfuel : 2 ≤ fuel) {sid : ℕ} (hsid : sid < P.nrStreams) (bc : BufferCache)
    (bdev : BlockDevice) (o : Olayer) {T : ℕ} (ho : Cursors P (o.stream sid) T T T)
    (calls : List StreamCall) {log log' : List LoggedWrite}
    (hlog : logOf P sid (o.stream sid).context calls = log)
    (hlog' : logOf P sid (o.stream sid).context (calls.filter (!·.ordered)) = log') :
    (∃ slots slots' ks ks', handedAfter P bc fuel sid bdev o calls = some slots ∧
      InSlots P T log.length ks slots ∧
      handedAfter P bc fuel sid bdev o (calls.filter (!·.ordered)) = some slots' ∧
      InSlots P T log'.length ks' slots' ∧
      (Transparent log ks ks' ↔ Harmless P.nrOmeta log log')) ∧
    (log.length < P.nrOmeta → 0 < P.offInJournal sid → 0 < (o.stream sid).jWritePtr →
      (Harmless P.nrOmeta log log' ↔ OwnBegins log)) := by
  obtain ⟨slots, ks, hrun, hslots, hmem, hlt⟩ :=
    handedAfter_spec hN hfuel hsid ho bc bdev calls hlog
  obtain ⟨slots', ks', hrun', hslots', hmem', hlt'⟩ :=
    handedAfter_spec hN hfuel hsid ho bc bdev (calls.filter (!·.ordered)) hlog'
  have hlen : log'.length = (log.filter (!·.ordered)).length := by
    rw [← hlog, ← hlog', length_logOf_filter]
  refine ⟨⟨slots, slots', ks, ks', hrun, hslots, hrun', hslots', ?_⟩, fun hfits hoff hptr => ?_⟩
  · exact transparent_iff_harmless hlen hmem hmem' (fun k hk => (hslots.live k hk).2)
      (fun k hk => (hslots'.live k hk).2) hlt hlt'
  · rw [← hlog', logOf_filter_of_pos hoff hptr, hlog]
    exact harmless_iff_ownBegins hfits fun w hw hE => (logOf_ends (hlog ▸ hw) hE).1

/-- A page at block `lba`, written with the given flags. -/
def pageWith (lba : ℕ) (opf : ReqFlags) : Bio := ⟨⟨0, 1⟩, lba * 8, 4096, opf⟩

def txPage (lba : ℕ) : StreamCall := .submitBioIpu (pageWith lba (txSync 0)) true

def commitPage (lba : ℕ) : StreamCall :=
  .submitBioIpu (pageWith lba { txSync 0 with tx := false, txCommit := true }) true

def orderedPage (lba : ℕ) : Bio := pageWith lba { txSync 0 with tx := false, ordered := true }

/-- The slots handed over with and without the ordered writes. -/
def handedBoth (calls : List StreamCall) : Option (List ℕ) × Option (List ℕ) :=
  (handedAfter Params.roomy (fun _ _ => .unlocked) 2 5 ⟨0, 1⟩ roomyLoaded calls,
    handedAfter Params.roomy (fun _ _ => .unlocked) 2 5 ⟨0, 1⟩ roomyLoaded
      (calls.filter (!·.ordered)))

/-- An ordered write before the first transaction, between two, or inside one.  The first two
open a transaction of their own, so that the next write is handed over; the third, journaled,
is itself handed over. -/
theorem ordered_write_opens_transaction :
    handedBoth [.submitBio (orderedPage 10), txPage 11, commitPage 12] = (some [1], some []) ∧
    handedBoth [.commitTx 1, txPage 10, commitPage 11, .submitBio (orderedPage 12), .commitTx 2,
        txPage 13, commitPage 14] = (some [3], some []) ∧
    handedBoth [.commitTx 1, txPage 10, .submitBioIpu (orderedPage 11) true, commitPage 12]
      = (some [1], some []) := by
  decide +kernel

instance decidableEnclosed (ring : List LoggedWrite) (j : ℕ) : Decidable (Enclosed ring j) :=
  Run.decidableExistsSome ring[j]? fun w => w.journaled = true ∧ w.ends = false ∧
    (∃ b ∈ sinceEnd (ring.take j), b.begins = true) ∧ ∃ e ∈ ring.drop (j + 1), e.ends = true

instance decidableEnclosedInRing (n : ℕ) (log : List LoggedWrite) (k : ℕ) :
    Decidable (EnclosedInRing n log k) :=
  inferInstanceAs (Decidable (_ ∧ _))

instance decidableHarmless (n : ℕ) (log log' : List LoggedWrite) :
    Decidable (Harmless n log log') :=
  inferInstanceAs (Decidable (∀ k, ∀ _ : k < log.length, if log[k].ordered then
    ¬ EnclosedInRing n log k else (EnclosedInRing n log k ↔ EnclosedInRing n log' (txRank log k))))

/-- An ordered write in place inside a transaction, and a journaled one behind the last. -/
def harmlessCalls : List StreamCall :=
  [.commitTx 1, txPage 10, .submitBio (orderedPage 11), txPage 12, commitPage 13, .commitTx 2,
    .submitBioIpu (orderedPage 14) true]

theorem ordered_writes_transparent_iff_harmlessCalls :
    handedBoth harmlessCalls = (some [2], some [1]) ∧
    ∃ ks ks', InSlots Params.roomy 0 5 ks [2] ∧ InSlots Params.roomy 0 3 ks' [1] ∧
      Transparent (logOf Params.roomy 5 (roomyLoaded.stream 5).context harmlessCalls) ks ks' := by
  obtain ⟨⟨slots, slots', ks, ks', hrun, hslots, hrun', hslots', hiff⟩, -⟩ :=
    ordered_writes_transparent_iff Params.roomy (by decide) le_rfl
      (by decide : 5 < Params.roomy.nrStreams) (fun _ _ => .unlocked) ⟨0, 1⟩ roomyLoaded
      (T := 0) (cursors_zero rfl rfl rfl rfl) harmlessCalls rfl rfl
  have hboth : handedBoth harmlessCalls = (some [2], some [1]) := by decide +kernel
  obtain ⟨h, h'⟩ := Prod.mk.inj hboth
  obtain rfl := Option.some.inj (hrun.symm.trans h)
  obtain rfl := Option.some.inj (hrun'.symm.trans h')
  exact ⟨hboth, ks, ks', hslots, hslots', hiff.mpr (by decide +kernel)⟩

end CcNvme

/-
CcNvme/TagRoundTrip.lean

The tags as a code for lists of transactions.  The client of `ccnvme-test`
submits each transaction as some `REQ_TX` writes, one `REQ_TX_COMMIT` write
and `stream_commit_tx`; the decoder is the scanner of `commit_write`, read
from `head` to `tail`.

The encoder stores a BEGIN tag only on the first write after a commit, and
`committed` is clear when a stream is initialised, so the first transaction
never gets one.  `ClientLog` counts: BEGIN tags plus the pending `committed`
flag never exceed the number of commits.  With one delimited transaction per
BEGIN tag at most, the decoder returns fewer transactions than were encoded.
-/
import CcNvme.Fsync
import CcNvme.RingLog

namespace CcNvme

/-! ### Encoder and decoder -/

/-- A write with `REQ_TX_COMMIT`. -/
structure CommitBio extends Bio where
  commit : toBio.opf.txCommit = true

/-- One transaction of the client. -/
structure ClientTx where
  writes : List TxBio
  writes_ne : writes ≠ []
  last : CommitBio
  txid : ℕ

/-- The writes of a transaction, in the order they are submitted. -/
def ClientTx.bios (t : ClientTx) : List Bio := t.writes.map (·.toBio) ++ [t.last.toBio]

/-- Submit one transaction, every write journaled. -/
def submitClientTx (P : Params) (bc : BufferCache) (fuel sid : ℕ) (o : Olayer) (t : ClientTx) :
    Option Olayer :=
  (Run.run (fun o b => streamSubmitBioIpu P bc fuel o b sid true) o t.bios).map
    (streamCommitTx · sid t.txid)

/-- Submit the transactions one after another. -/
def submitClientTxs (P : Params) (bc : BufferCache) (fuel sid : ℕ) (o : Olayer)
    (txs : List ClientTx) : Option Olayer :=
  Run.run (submitClientTx P bc fuel sid) o txs

/-- The scan of `commit_write`, from `head` to `tail`. -/
def parseTags (P : Params) (s : Stream) : Option (List Segment) :=
  commitWriteScan P { s with flushed := s.tail }

/-- The transactions a parse hands to write-back. -/
def handedTargets (s : Stream) (segs : List Segment) : List (List WriteTarget) :=
  segs.map fun seg => seg.handed.map fun k => (s.ometa k).target

/-! ### Counting BEGIN tags -/

def LogRecord.isBegin (r : LogRecord) : Bool := (r.tag &&& HoraeFlag.txBegin.bit) != 0#3

/-- The stream holds the whole log of `n` writes, nothing of it flushed, and its
BEGIN tags together with the pending `committed` flag are at most `k`. -/
def ClientLog (P : Params) (s : Stream) (c : Bool) (k n : ℕ) : Prop :=
  ∃ g : QueueLog P.nrOmeta, Refines P s g ∧ g.H = 0 ∧ g.F = 0 ∧ g.committed = c ∧
    g.entries.length = n ∧ g.entries.countP LogRecord.isBegin + c.toNat ≤ k

variable {P : Params} {o : Olayer} {sid fuel k n : ℕ} {c : Bool}

/-- Allocating journal blocks changes nothing while nothing is flushed. -/
theorem refines_alloc {s : Stream} {g : QueueLog P.nrOmeta} (h : Refines P s g)
    (hHF : g.H = g.F) (nr : ℕ) : Refines P (s.alloc P sid nr) g := by
  obtain ⟨H', hle, hcur⟩ := h.cursors.alloc sid nr
  obtain rfl : H' = g.H := by have := hcur.head_le; omega
  refine ⟨hcur, by rw [Stream.alloc_committed, h.committed], fun i h₁ h₂ => ?_⟩
  rw [Stream.alloc_ometa]
  exact h.slots i h₁ h₂

/-- One tagged write uses up the pending flag when it stores BEGIN. -/
theorem isBegin_record_add (c : Bool) {a : SubmitArgs} (ha : a.flags ≠ .txBegin) :
    (a.record c).isBegin.toNat + (submitCommitted c a.flags).toNat ≤ c.toNat := by
  rcases e : a.flags with - | - | -
  · exact absurd e ha
  all_goals
    cases c <;> simp [SubmitArgs.record, LogRecord.isBegin, submitTag, submitCommitted, e,
      HoraeFlag.bit, HoraeFlag.val]

/-- Step: one write of a transaction. -/
theorem clientLog_write (bc : BufferCache) (hN : 2 ≤ P.nrOmeta) (hfuel : 2 ≤ fuel)
    (hsid : sid < P.nrStreams) (h : ClientLog P (o.stream sid) c k n)
    (hroom : n + 1 < P.nrOmeta) {b : Bio} (hb : b.opf.tx = true ∨ b.opf.txCommit = true) :
    ∃ o', streamSubmitBioIpu P bc fuel o b sid true = some o' ∧
      ClientLog P (o'.stream sid) (submitCommitted c (txFlag b.opf)) k (n + 1) := by
  obtain ⟨g, href, hH, hF, rfl, rfl, hk⟩ := h
  have hpath : horaePath b.opf = true := by
    rcases hb with hb | hb <;> simp [horaePath, hb]
  have hflag : txFlag b.opf ≠ .txBegin := by
    unfold txFlag
    rcases hb with hb | hb
    · split_ifs <;> simp
    · simp [hb]
  obtain ⟨o₁, o₂, b', halloc, hck, heq⟩ :=
    streamSubmitBioIpu_spec bc hN hfuel hsid hpath href.cursors
  have hs₁ := halloc.self
  -- nothing is flushed, so a wrap of the journal retires nothing
  have href₁ : Refines P (o₁.stream sid) g :=
    hs₁ ▸ refines_alloc href (hH.trans hF.symm) (horaeGetSecs b)
  refine ⟨_, heq, g.append hN ⟨horaeGetLba b, horaeGetSecs b, b.dev.diskMinor,
    (o.stream sid).allocAddr P sid (horaeGetSecs b), txFlag b.opf⟩,
    refines_publish hN href₁ _ hck, ?_, ?_, rfl, ?_, ?_⟩
  · simp only [QueueLog.append, roomCounters, QueueLog.T, hH, Nat.sub_zero, if_pos hroom]
  · simp only [QueueLog.append, roomCounters, QueueLog.T, hH, hF, Nat.sub_zero, if_pos hroom]
  · simp [QueueLog.append]
  · have := isBegin_record_add g.committed (a := ⟨horaeGetLba b, horaeGetSecs b, b.dev.diskMinor,
      (o.stream sid).allocAddr P sid (horaeGetSecs b), txFlag b.opf⟩) hflag
    have htoNat : ∀ b : Bool, b.toNat = if b = true then 1 else 0 := by decide
    simp only [QueueLog.append, List.countP_append, List.countP_singleton]
    rw [htoNat (LogRecord.isBegin _)] at this
    dsimp only at this
    omega

/-- Run: the writes of a transaction. -/
theorem clientLog_writes (bc : BufferCache) (hN : 2 ≤ P.nrOmeta) (hfuel : 2 ≤ fuel)
    (hsid : sid < P.nrStreams) {bs : List Bio}
    (hbs : ∀ b ∈ bs, b.opf.tx = true ∨ b.opf.txCommit = true)
    (h : ClientLog P (o.stream sid) c k n) (hroom : n + bs.length < P.nrOmeta) :
    ∃ o', Run.run (fun o b => streamSubmitBioIpu P bc fuel o b sid true) o bs = some o' ∧
      ∃ c', ClientLog P (o'.stream sid) c' k (n + bs.length) := by
  induction bs generalizing o c n with
  | nil => exact ⟨o, rfl, c, h⟩
  | cons b bs ih =>
      rw [List.length_cons] at hroom
      obtain ⟨o₁, h₁, hlog₁⟩ :=
        clientLog_write bc hN hfuel hsid h (by omega) (hbs b List.mem_cons_self)
      obtain ⟨o₂, h₂, c', hlog₂⟩ :=
        ih (fun b hb => hbs b (List.mem_cons_of_mem _ hb)) hlog₁ (by omega)
      refine ⟨o₂, Run.run_cons_eq_some.mpr ⟨o₁, h₁, h₂⟩, c', ?_⟩
      rw [List.length_cons, Nat.add_comm bs.length, ← Nat.add_assoc]
      exact hlog₂

theorem ClientTx.bios_tagged (t : ClientTx) :
    ∀ b ∈ t.bios, b.opf.tx = true ∨ b.opf.txCommit = true := by
  intro b hb
  rcases List.mem_append.mp hb with hb | hb
  · obtain ⟨w, -, rfl⟩ := List.mem_map.mp hb
    exact Or.inl w.tx
  · obtain rfl := List.mem_singleton.mp hb
    exact Or.inr t.last.commit

/-- Step: one transaction sets the flag, which the next one may use up. -/
theorem clientLog_tx (bc : BufferCache) (hN : 2 ≤ P.nrOmeta) (hfuel : 2 ≤ fuel)
    (hsid : sid < P.nrStreams) (t : ClientTx) (h : ClientLog P (o.stream sid) c k n)
    (hroom : n + t.bios.length < P.nrOmeta) :
    ∃ o', submitClientTx P bc fuel sid o t = some o' ∧
      ClientLog P (o'.stream sid) true (k + 1) (n + t.bios.length) := by
  obtain ⟨o₁, h₁, c', g, href, hH, hF, -, hlen, hk⟩ :=
    clientLog_writes bc hN hfuel hsid t.bios_tagged h hroom
  refine ⟨streamCommitTx o₁ sid t.txid, by rw [submitClientTx, h₁, Option.map_some],
    { g with committed := true }, refines_commitTx href t.txid, hH, hF, rfl, hlen, ?_⟩
  simp only [Bool.toNat_true]
  omega

/-- Run: after any number of transactions. -/
theorem clientLog_txs (bc : BufferCache) (hN : 2 ≤ P.nrOmeta) (hfuel : 2 ≤ fuel)
    (hsid : sid < P.nrStreams) (txs : List ClientTx) (h : ClientLog P (o.stream sid) c k n)
    (hroom : n + (txs.flatMap ClientTx.bios).length < P.nrOmeta) :
    ∃ o', submitClientTxs P bc fuel sid o txs = some o' ∧
      ClientLog P (o'.stream sid) (c || !txs.isEmpty) (k + txs.length)
        (n + (txs.flatMap ClientTx.bios).length) := by
  induction txs generalizing o c k n with
  | nil => exact ⟨o, rfl, by simpa using h⟩
  | cons t txs ih =>
      rw [List.flatMap_cons, List.length_append] at hroom ⊢
      obtain ⟨o₁, h₁, hlog₁⟩ := clientLog_tx bc hN hfuel hsid t h (by omega)
      obtain ⟨o₂, h₂, hlog₂⟩ := ih hlog₁ (by omega)
      refine ⟨o₂, Run.run_cons_eq_some.mpr ⟨o₁, h₁, h₂⟩, ?_⟩
      rw [List.length_cons, Nat.add_comm txs.length, ← Nat.add_assoc, ← Nat.add_assoc]
      simpa using hlog₂

/-! ### Decoding -/

/-- A parse returns at most one transaction per BEGIN tag. -/
theorem parseTags_spec {s : Stream} {g : QueueLog P.nrOmeta} (h : Refines P s g) (hH : g.H = 0) :
    ∃ segs, parseTags P s = some segs ∧ segs.length ≤ g.entries.countP LogRecord.isBegin := by
  refine ⟨_, commitWriteScan_eq h.cursors.inRing.head_lt h.cursors.inRing.tail_lt, ?_⟩
  rw [Stream.delimited, List.length_map]
  refine (Bracket.length_pairs_le _).1.trans (le_of_eq ?_)
  have hrec := h.live_records
  rw [hH, List.drop_zero] at hrec
  rw [← hrec, List.countP_map]
  rfl

/-- **Decoding after encoding.**  For every list of transactions that fits the ring
of a freshly initialised stream, the parse of `[head, tail)` returns, and it
returns the list exactly when the list is empty.  How the journal partition
wraps does not matter. -/
theorem parse_recovers_transactions_iff (P : Params) (hN : 2 ≤ P.nrOmeta) {fuel : ℕ}
    (hfuel : 2 ≤ fuel) {sid : ℕ} (hsid : sid < P.nrStreams) (bc : BufferCache) (o : Olayer)
    (mem : ℕ → Ometa) (lastTxid : ℕ) (ho : o.stream sid = initStream P mem lastTxid sid)
    (txs : List ClientTx) (hroom : (txs.flatMap ClientTx.bios).length < P.nrOmeta) :
    ∃ o' segs, submitClientTxs P bc fuel sid o txs = some o' ∧
      parseTags P (o'.stream sid) = some segs ∧
      (handedTargets (o'.stream sid) segs = txs.map (fun t => t.bios.map Bio.target)
        ↔ txs = []) := by
  have hinit : ClientLog P (o.stream sid) false 0 0 := by
    refine ⟨QueueLog.empty hN, ?_, rfl, rfl, rfl, rfl, le_rfl⟩
    rw [ho]
    exact ⟨cursors_zero rfl rfl rfl rfl, rfl, fun i _ hi => absurd hi (Nat.not_lt_zero i)⟩
  obtain ⟨o', hrun, g, href, hH, -, -, -, hk⟩ :=
    clientLog_txs bc hN hfuel hsid txs hinit (by omega)
  obtain ⟨segs, hparse, hlen⟩ := parseTags_spec href hH
  refine ⟨o', segs, hrun, hparse, ?_⟩
  constructor
  · intro h
    have hlen' : segs.length = txs.length := by
      simpa [handedTargets] using congrArg List.length h
    rcases txs with - | ⟨t, txs⟩
    · rfl
    · -- the flag set by the last commit is still pending
      simp only [List.isEmpty_cons, Bool.not_false, Bool.or_true, Bool.toNat_true] at hk
      omega
  · rintro rfl
    have : segs = [] := by
      apply List.eq_nil_of_length_eq_zero
      simp only [List.length_nil] at hk
      omega
    rw [this]
    rfl

/-- A transaction with one `REQ_TX` write and a `REQ_TX_COMMIT` write. -/
def smallClientTx : ClientTx where
  writes := [onePage 20]
  writes_ne := by decide
  last := ⟨⟨⟨0, 1⟩, 21 * 8, 4096, { txSync 0 with tx := false, txCommit := true }⟩, rfl⟩
  txid := 1

/-- The first transaction of a stream is never delimited: the tags of its two
entries are TX and END, and the parse returns nothing. -/
theorem parse_loses_first_transaction :
    ((submitClientTxs Params.tiny (fun _ _ => .unlocked) 2 5 tinyLoaded [smallClientTx]).bind
        fun o => (parseTags Params.tiny (o.stream 5)).map fun segs =>
          ((o.stream 5).head, (o.stream 5).tail, ([0, 1].map fun i => ((o.stream 5).ometa i).tag),
            handedTargets (o.stream 5) segs))
      = some (0, 2, [HoraeFlag.tx.bit, HoraeFlag.txEnd.bit], []) ∧
    [smallClientTx].map (fun t => t.bios.map Bio.target) = [[⟨0, 20, 1⟩, ⟨0, 21, 1⟩]] := by
  decide +kernel

theorem parse_recovers_transactions_iff_tiny :
    ∃ o' segs, submitClientTxs Params.tiny (fun _ _ => .unlocked) 2 5 tinyLoaded [smallClientTx]
        = some o' ∧
      parseTags Params.tiny (o'.stream 5) = some segs ∧
      (handedTargets (o'.stream 5) segs = [smallClientTx].map (fun t => t.bios.map Bio.target)
        ↔ [smallClientTx] = []) :=
  parse_recovers_transactions_iff Params.tiny (by decide) le_rfl (by decide) _ tinyLoaded
    (fun _ => Ometa.zero) 0 rfl [smallClientTx] (by decide)

end CcNvme

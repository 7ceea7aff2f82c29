/-
CcNvme/PageSharing/Locks.lean

Who holds the buffer locks.  A bio in flight holds the lock of the buffer it was sent from, and a
call that copies a block out holds the lock of the block; so nothing is sent from a block while it
is copied, and a buffer that is not locked has no bio in flight.
-/
import CcNvme.PageSharing.Later

namespace CcNvme.PageSharing

open Snapshot (floor)

variable {ι β : Type} {blk : ι → β} {bios : List (Bio ι β)} {heads : β → Head}
  {copies : List (Copy ι β)} {calls : List (Call ι β)}

structure Locks (blk : ι → β) (bios : List (Bio ι β)) (heads : β → Head)
    (copies : List (Copy ι β)) (calls : List (Call ι β)) : Prop where
  shared : ∀ (k : ℕ) (x : Bio ι β), bios[k]? = some x → x.source = none → x.done = false →
    (heads x.block).lock = some (.io k)
  copy : ∀ (k : ℕ) (x : Bio ι β) (c : ℕ), bios[k]? = some x → x.source = some c →
    x.done = false → ∃ y, copies[c]? = some y ∧ y.freed = false ∧ y.head.lock = some (.io k)
  copying : ∀ (t : ℕ) (u : Call ι β) (got : ι → Option ℕ), calls[t]? = some u →
    u.stage = .copying got → (heads (blk u.inode)).lock = some (.copy t)
  /-- the device has read all of a completed bio -/
  taken : ∀ x ∈ bios, x.done = true → ∀ j, blk j = x.block → (x.taken j).isSome
  /-- a block that is not being written is up to date, or its last write has failed -/
  known : ∀ b, (∀ k, (heads b).lock ≠ some (.io k)) →
    (heads b).uptodate = true ∨ (heads b).ioError = true

namespace Locks

/-- **A buffer that is not locked has no bio in flight.** -/
theorem done_of_unlocked (h : Locks blk bios heads copies calls) {k : ℕ} {x : Bio ι β}
    (hx : bios[k]? = some x) (hs : x.source = none) (hl : (heads x.block).lock = none) :
    x.done = true := by
  by_contra hd
  have hlock := h.shared k x hx hs (Bool.eq_false_of_not_eq_true hd)
  rw [hl] at hlock
  cases hlock

/-- The change that a bio carries is covered as soon as the buffer is not locked. -/
theorem covered {w : World ι β} (h : Locks blk w.bios w.heads w.copies w.calls) {i : ι} {v : ℕ}
    (hc : Carried blk w i v) (hl : (w.heads (blk i)).lock = none) (err : ℤ) :
    Covered blk w i v err := by
  rcases hc with hv | ⟨k, x, hx, hb, hs, hv⟩
  · exact Or.inl hv
  · have hd : x.done = true := h.done_of_unlocked hx hs (by rw [hb]; exact hl)
    obtain ⟨n, hn⟩ := Option.isSome_iff_exists.mp
      (h.taken x (List.mem_of_getElem? hx) hd i hb.symm)
    rw [Snapshot.floor_of_some hn] at hv
    exact Or.inr ⟨k, x, n, hx, hb, hd, hn, hv, fun _ hne => absurd hs hne⟩

theorem setCall (h : Locks blk bios heads copies calls) {t : ℕ} {u : Call ι β}
    (hu : ∀ got, u.stage = .copying got → (heads (blk u.inode)).lock = some (.copy t)) :
    Locks blk bios heads copies (calls.set t u) where
  shared := h.shared
  copy := h.copy
  copying := by
    intro t' u' got hu' hgot
    rcases Table.get_set_cases hu' with ⟨rfl, rfl⟩ | ⟨-, hold⟩
    · exact hu got hgot
    · exact h.copying t' u' got hold hgot
  taken := h.taken
  known := h.known

theorem addCall (h : Locks blk bios heads copies calls) {u : Call ι β}
    (hu : ∀ got, u.stage ≠ .copying got) : Locks blk bios heads copies (calls ++ [u]) where
  shared := h.shared
  copy := h.copy
  copying := by
    intro t' u' got hu' hgot
    rcases Table.get_concat_cases hu' with hold | ⟨-, rfl⟩
    · exact h.copying t' u' got hold hgot
    · exact absurd hgot (hu got)
  taken := h.taken
  known := h.known

/-- The lock moves from one holder that is not a bio to another. -/
theorem setLock [DecidableEq β] (h : Locks blk bios heads copies calls) {b : β} {hd : Head}
    (hold : ∀ k, (heads b).lock ≠ some (.io k)) (hup : hd.uptodate = (heads b).uptodate)
    (hio : hd.ioError = (heads b).ioError)
    (hcalls : ∀ (t : ℕ) (u : Call ι β) (got : ι → Option ℕ), calls[t]? = some u →
      u.stage = .copying got → blk u.inode = b → hd.lock = some (.copy t)) :
    Locks blk bios (Function.update heads b hd) copies calls where
  shared := by
    intro k x hx hs hdone
    have hlock := h.shared k x hx hs hdone
    have hne : x.block ≠ b := by
      rintro rfl
      exact hold k hlock
    rw [Function.update_of_ne hne]
    exact hlock
  copy := h.copy
  copying := by
    intro t u got hu hgot
    by_cases hb : blk u.inode = b
    · rw [hb, Function.update_self]
      exact hcalls t u got hu hgot hb
    · rw [Function.update_of_ne hb]
      exact h.copying t u got hu hgot
  taken := h.taken
  known := by
    intro b' hb'
    by_cases hb : b' = b
    · subst hb
      rw [Function.update_self, hup, hio]
      exact h.known b' hold
    · rw [Function.update_of_ne hb] at hb' ⊢
      exact h.known b' hb'

/-- Other bits of a buffer change. -/
theorem setBits [DecidableEq β] (h : Locks blk bios heads copies calls) {b : β} {hd : Head}
    (hl : hd.lock = (heads b).lock)
    (hk : (heads b).uptodate = true ∨ (heads b).ioError = true →
      hd.uptodate = true ∨ hd.ioError = true) :
    Locks blk bios (Function.update heads b hd) copies calls := by
  have hlock : ∀ b', (Function.update heads b hd b').lock = (heads b').lock := by
    intro b'
    by_cases hb : b' = b
    · subst hb
      rw [Function.update_self, hl]
    · rw [Function.update_of_ne hb]
  refine ⟨fun k x hx hs hdone => ?_, h.copy, fun t u got hu hgot => ?_, h.taken, fun b' hb' => ?_⟩
  · rw [hlock]
    exact h.shared k x hx hs hdone
  · rw [hlock]
    exact h.copying t u got hu hgot
  · rw [hlock] at hb'
    have hknown := h.known b' hb'
    by_cases hb : b' = b
    · subst hb
      rw [Function.update_self]
      exact hk hknown
    · rw [Function.update_of_ne hb]
      exact hknown

/-- A bio is sent from a buffer that was not locked. -/
theorem sendShared [DecidableEq β] (h : Locks blk bios heads copies calls) {b : β}
    (hl : (heads b).lock = none) (stream : Option ℕ) :
    Locks blk (bios ++ [⟨b, none, stream, fun _ => none, false, false⟩])
      (Function.update heads b ((heads b).bh2bio bios.length)) copies calls where
  shared := by
    intro k x hx hs hdone
    rcases Table.get_concat_cases hx with hold | ⟨rfl, rfl⟩
    · have hlock := h.shared k x hold hs hdone
      have hne : x.block ≠ b := by
        rintro rfl
        rw [hl] at hlock
        cases hlock
      rw [Function.update_of_ne hne]
      exact hlock
    · show (Function.update heads b _ b).lock = _
      rw [Function.update_self]
      rfl
  copy := by
    intro k x c hx hs hdone
    rcases Table.get_concat_cases hx with hold | ⟨rfl, rfl⟩
    · exact h.copy k x c hold hs hdone
    · cases hs
  copying := by
    intro t u got hu hgot
    have hlock := h.copying t u got hu hgot
    have hne : blk u.inode ≠ b := by
      rintro rfl
      rw [hl] at hlock
      cases hlock
    rw [Function.update_of_ne hne]
    exact hlock
  taken := by
    intro x hx hdone
    rcases List.mem_append.mp hx with hold | hnew
    · exact h.taken x hold hdone
    · obtain rfl := List.mem_singleton.mp hnew
      cases hdone
  known := by
    intro b' hb'
    by_cases hb : b' = b
    · subst hb
      refine absurd ?_ (hb' bios.length)
      rw [Function.update_self]
      rfl
    · rw [Function.update_of_ne hb] at hb' ⊢
      exact h.known b' hb'

/-- The device reads an inode for a bio in flight. -/
theorem fetch [DecidableEq ι] (h : Locks blk bios heads copies calls) {k : ℕ} {x : Bio ι β}
    (hx : bios[k]? = some x) (hd : x.done = false) (taken : ι → Option ℕ) :
    Locks blk (bios.set k { x with taken := taken }) heads copies calls where
  shared := by
    intro m z hz hs hdone
    rcases Table.get_set_cases hz with ⟨rfl, rfl⟩ | ⟨-, hold⟩
    · exact h.shared m x hx hs hd
    · exact h.shared m z hold hs hdone
  copy := by
    intro m z c hz hs hdone
    rcases Table.get_set_cases hz with ⟨rfl, rfl⟩ | ⟨-, hold⟩
    · exact h.copy m x c hx hs hd
    · exact h.copy m z c hold hs hdone
  copying := h.copying
  taken := by
    refine Table.forall_set h.taken fun hdone => ?_
    rw [show ({ x with taken := taken } : Bio ι β).done = x.done from rfl, hd] at hdone
    cases hdone
  known := h.known

/-- A bio that was sent from the buffer is completed. -/
theorem completeShared [DecidableEq β] (h : Locks blk bios heads copies calls) {k : ℕ}
    {x : Bio ι β} (hx : bios[k]? = some x) (hs : x.source = none) (hd : x.done = false)
    (htaken : ∀ j, blk j = x.block → (x.taken j).isSome) (failed : Bool) :
    Locks blk (bios.set k { x with done := true, failed := failed })
      (Function.update heads x.block ((heads x.block).endBufferWriteSync failed)) copies
      calls where
  shared := by
    intro m z hz hsz hdone
    rcases Table.get_set_cases hz with ⟨rfl, rfl⟩ | ⟨hm, hold⟩
    · cases hdone
    · have hlock := h.shared m z hold hsz hdone
      have hne : z.block ≠ x.block := by
        intro heq
        rw [heq, h.shared k x hx hs hd] at hlock
        exact hm (Holder.io.inj (Option.some.inj hlock)).symm
      rw [Function.update_of_ne hne]
      exact hlock
  copy := by
    intro m z c hz hsz hdone
    rcases Table.get_set_cases hz with ⟨rfl, rfl⟩ | ⟨-, hold⟩
    · cases hdone
    · exact h.copy m z c hold hsz hdone
  copying := by
    intro t u got hu hgot
    have hlock := h.copying t u got hu hgot
    have hne : blk u.inode ≠ x.block := by
      intro heq
      rw [heq, h.shared k x hx hs hd] at hlock
      cases hlock
    rw [Function.update_of_ne hne]
    exact hlock
  taken := Table.forall_set h.taken fun _ => htaken
  known := by
    intro b hb
    by_cases heq : b = x.block
    · subst heq
      rw [Function.update_self]
      cases failed
      · exact Or.inl rfl
      · exact Or.inr (Bool.or_true _)
    · rw [Function.update_of_ne heq] at hb ⊢
      exact h.known b hb

/-- A bio is sent from a copy that was not locked. -/
theorem sendCopy (h : Locks blk bios heads copies calls) {c : ℕ} {y : Copy ι β}
    (hy : copies[c]? = some y) (hfreed : y.freed = false) (hl : y.head.lock = none)
    (stream : ℕ) :
    Locks blk (bios ++ [⟨y.block, some c, some stream, fun j => some (y.data j), false, false⟩])
      heads (copies.set c { y with head := y.head.bh2bio bios.length }) calls where
  shared := by
    intro k x hx hs hdone
    rcases Table.get_concat_cases hx with hold | ⟨rfl, rfl⟩
    · exact h.shared k x hold hs hdone
    · cases hs
  copy := by
    intro k x c' hx hs hdone
    rcases Table.get_concat_cases hx with hold | ⟨rfl, rfl⟩
    · obtain ⟨z, hz, hzf, hzl⟩ := h.copy k x c' hold hs hdone
      have hne : z ≠ y := by
        rintro rfl
        rw [hl] at hzl
        cases hzl
      exact ⟨z, Table.get_set_of_ne hy hz hne _, hzf, hzl⟩
    · obtain rfl := Option.some.inj hs
      exact ⟨_, Table.get_set_self hy _, hfreed, rfl⟩
  copying := h.copying
  taken := by
    intro x hx hdone
    rcases List.mem_append.mp hx with hold | hnew
    · exact h.taken x hold hdone
    · obtain rfl := List.mem_singleton.mp hnew
      cases hdone
  known := h.known

/-- A bio that was sent from a copy is completed. -/
theorem completeCopy (h : Locks blk bios heads copies calls) {k c : ℕ} {x : Bio ι β}
    {y : Copy ι β} (hx : bios[k]? = some x) (hs : x.source = some c) (hd : x.done = false)
    (htaken : ∀ j, blk j = x.block → (x.taken j).isSome) (hy : copies[c]? = some y)
    (failed : Bool) :
    Locks blk (bios.set k { x with done := true, failed := failed }) heads
      (copies.set c { y with head := y.head.endBufferWriteSync failed }) calls where
  shared := by
    intro m z hz hsz hdone
    rcases Table.get_set_cases hz with ⟨rfl, rfl⟩ | ⟨-, hold⟩
    · cases hdone
    · exact h.shared m z hold hsz hdone
  copy := by
    intro m z c' hz hsz hdone
    rcases Table.get_set_cases hz with ⟨rfl, rfl⟩ | ⟨hm, hold⟩
    · cases hdone
    · obtain ⟨u, hu, huf, hul⟩ := h.copy m z c' hold hsz hdone
      -- the copy of another bio in flight is another copy
      have hne : c' ≠ c := by
        rintro rfl
        obtain ⟨u', hu', -, hul'⟩ := h.copy k x c' hx hs hd
        obtain rfl := Option.some.inj (hu.symm.trans hu')
        rw [hul] at hul'
        exact hm (Holder.io.inj (Option.some.inj hul'))
      exact ⟨u, (List.getElem?_set_ne (Ne.symm hne)).trans hu, huf, hul⟩
  copying := h.copying
  taken := Table.forall_set h.taken fun _ => htaken
  known := h.known

theorem addCopy (h : Locks blk bios heads copies calls) (z : Copy ι β) :
    Locks blk bios heads (copies ++ [z]) calls where
  shared := h.shared
  copy := by
    intro k x c hx hs hdone
    obtain ⟨y, hy, hrest⟩ := h.copy k x c hx hs hdone
    exact ⟨y, Table.get_concat hy z, hrest⟩
  copying := h.copying
  taken := h.taken
  known := h.known

/-- A copy that is not locked is freed. -/
theorem freeCopy (h : Locks blk bios heads copies calls) {c : ℕ} {y : Copy ι β}
    (hy : copies[c]? = some y) (hl : y.head.lock = none) :
    Locks blk bios heads (copies.set c { y with freed := true }) calls where
  shared := h.shared
  copy := by
    intro k x c' hx hs hdone
    obtain ⟨z, hz, hzf, hzl⟩ := h.copy k x c' hx hs hdone
    have hne : z ≠ y := by
      rintro rfl
      rw [hl] at hzl
      cases hzl
    exact ⟨z, Table.get_set_of_ne hy hz hne _, hzf, hzl⟩
  copying := h.copying
  taken := h.taken
  known := h.known

end Locks

end CcNvme.PageSharing

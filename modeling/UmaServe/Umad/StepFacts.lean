/-
What one step does to what the descriptors share: the sequence counter
(`step_nextSeqId`), the scheduler (`step_sched`), and the memory with the ids
of closed sessions (`step_removes`; the tick is in
`UmaServe.Sched.MemoryFacts`).
-/
import UmaServe.Umad.Moves

namespace UmaServe

/-! ## The sequence counter -/

section Counter

variable {pf : Platform} {cfg : RuntimeConfig} {d : Daemon} {fd : Int} {s : ClientSession}

theorem writable_nextSeqId (writes : List WriteRes) (nowNs : Nat) :
    (d.writable fd writes nowNs).mgr.nextSeqId = d.mgr.nextSeqId := by
  cases hs : d.find fd with
  | none => rw [writable_none hs]
  | some s =>
    obtain ⟨tx, act, -, h | ⟨-, h⟩ | ⟨-, h⟩⟩ := writable_some writes nowNs hs
    · rw [h, Daemon.close_nextSeqId]; rfl
    · rw [h]; rfl
    · rw [h, finishWrite_nextSeqId]; rfl

theorem foldl_close_nextSeqId (l : List Int) (d : Daemon) :
    (l.foldl Daemon.close d).mgr.nextSeqId = d.mgr.nextSeqId := by
  induction l generalizing d with
  | nil => rfl
  | cons fd l ih => rw [List.foldl_cons, ih, Daemon.close_nextSeqId]

/-- The counter moves only when it gives its value to a session that has no
sequence yet. -/
theorem step_nextSeqId (pf : Platform) (cfg : RuntimeConfig) (d : Daemon) (a : Action) :
    (d.step pf cfg a).mgr.nextSeqId = d.mgr.nextSeqId ∨
      (d.step pf cfg a).mgr.nextSeqId = d.mgr.nextSeqId + 1 ∧
        ∃ fd reads now nowNs s s', a = .readable fd reads now nowNs ∧ d.find fd = some s ∧ s.seq < 0 ∧
          (d.step pf cfg a).find fd = some s' ∧ s'.seq = d.mgr.nextSeqId := by
  cases a with
  | accept cfd order nowNs => left; simp only [Daemon.step, Daemon.accept]; split <;> rfl
  | writable fd writes nowNs => exact .inl (writable_nextSeqId writes nowNs)
  | idle nowNs => exact .inl (foldl_close_nextSeqId _ d)
  | tick nowNs out =>
    left
    rw [Daemon.step, Daemon.tick_nextSeqId]
  | readable fd reads now nowNs =>
    cases hs : d.find fd with
    | none => left; rw [Daemon.step, readable_none hs]
    | some s =>
      obtain ⟨json, h⟩ := readable_some pf cfg reads now nowNs hs
      have hn := readable_nextSeqId pf cfg reads now nowNs hs
      have hr : Reading cfg pf.vocab nowNs d.mgr.nextSeqId reads s _ := read_reading
      simp only [Daemon.step]
      rw [hn]
      dsimp only at h
      generalize s.read cfg pf.vocab nowNs d.mgr.nextSeqId reads = o at hr h
      cases hr with
      | quiet | rejected | admin | empty => exact .inl rfl
      | @started t _ js seq _ hp ht _ _ hne hw ha hseq =>
        rcases hseq with ⟨hneg, hseq, hnext⟩ | ⟨-, -, hnext⟩
        · refine .inr ⟨hnext, fd, reads, now, nowNs, s,
            t.openWindow.acceptWindow.start cfg nowNs (promptOf pf.vocab js) seq, rfl, hs, hneg, ?_, hseq⟩
          rcases h with ⟨-, h⟩ | ⟨hww, -⟩
          · rw [h, heard_find_self hs]
            simp [ReadOutcome.replied, ha]
          · rw [hw] at hww; cases hww
        · exact .inl hnext

end Counter

/-! ## The scheduler -/

section Scheduler

variable {pf : Platform} {cfg : RuntimeConfig} {d : Daemon} {fd : Int} {s : ClientSession}

@[simp] theorem finishWrite_sched : (d.finishWrite fd s).sched = d.sched := by
  unfold Daemon.finishWrite
  split
  · simp
  · split
    · split
      · simp
      · rfl
    · rfl

@[simp] theorem finishRead_sched : (d.finishRead fd s).sched = d.sched := by
  rcases finishRead_eq d fd s with h | h
  · rw [h, finishWrite_sched]
  · rw [h]
    exact finishWrite_sched

theorem foldl_close_sched (l : List Int) (d : Daemon) : (l.foldl Daemon.close d).sched = d.sched := by
  induction l generalizing d with
  | nil => rfl
  | cons fd l ih => rw [List.foldl_cons, ih, Daemon.close_sched]

theorem step_sched {a : Action} (ha : ∀ nowNs out, a ≠ .tick nowNs out) : (d.step pf cfg a).sched = d.sched := by
  cases a with
  | accept cfd order nowNs => simp only [Daemon.step, Daemon.accept]; split <;> rfl
  | readable fd reads now nowNs =>
    simp only [Daemon.step]
    cases hs : d.find fd with
    | none => rw [readable_none hs]
    | some s =>
      obtain ⟨json, ⟨-, h⟩ | ⟨-, tx, -, ⟨-, h⟩ | ⟨-, h⟩⟩⟩ := readable_some pf cfg reads now nowNs hs
      · rw [h]; rfl
      · rw [h]; rfl
      · rw [h, finishRead_sched]; rfl
  | writable fd writes nowNs =>
    simp only [Daemon.step]
    cases hs : d.find fd with
    | none => rw [writable_none hs]
    | some s =>
      obtain ⟨tx, act, -, h | ⟨-, h⟩ | ⟨-, h⟩⟩ := writable_some writes nowNs hs
      · rw [h, Daemon.close_sched]; rfl
      · rw [h]; rfl
      · rw [h, finishWrite_sched]; rfl
  | idle nowNs => exact foldl_close_sched _ d
  | tick nowNs out => exact absurd rfl (ha nowNs out)

end Scheduler

/-! ## The memory and the closed sessions -/

/-- `q` is the sequence of a session that is gone in `d'`. -/
def Removed (d d' : Daemon) (q : Int) : Prop :=
  ∃ fd s, d.find fd = some s ∧ d'.find fd = none ∧ s.seq = q ∧ 0 ≤ q

/-- Outside the tick, exactly the sequences of the sessions that go are
cleared and noted. -/
structure Removes (d d' : Daemon) : Prop where
  noted : ∀ q, q ∈ d'.closedSeqs ↔ q ∈ d.closedSeqs ∨ Removed d d' q
  cleared : ∀ q, Removed d d' q → d'.memory q = []
  kept : ∀ q, ¬ Removed d d' q → d'.memory q = d.memory q

section Removes

variable {pf : Platform} {cfg : RuntimeConfig} {d d' d₁ : Daemon} {fd : Int} {s t : ClientSession}

theorem Removes.of_kept (hf : ∀ fd s, d.find fd = some s → d'.find fd ≠ none) (hm : d'.memory = d.memory)
    (hc : d'.closedSeqs = d.closedSeqs) : Removes d d' := by
  have hnot : ∀ q, ¬ Removed d d' q := fun q ⟨fd, s, hs, hn, _⟩ => hf fd s hs hn
  exact ⟨fun q => by simp [hc, hnot q], fun q h => absurd h (hnot q), fun q _ => by rw [hm]⟩

theorem Removes.refl (d : Daemon) : Removes d d :=
  .of_kept (fun fd s hs hn => by rw [hs] at hn; cases hn) rfl rfl

theorem Removes.of_put (ht : d'.find fd = some t) (hne : ∀ k, k ≠ fd → d'.find k = d.find k)
    (hm : d'.memory = d.memory) (hc : d'.closedSeqs = d.closedSeqs) : Removes d d' := by
  refine .of_kept (fun k u hu hn => ?_) hm hc
  by_cases hk : k = fd
  · subst hk; rw [ht] at hn; cases hn
  · rw [hne k hk, hu] at hn; cases hn

theorem Removes.of_close (hs : d.find fd = some s) (ht : d₁.find fd = some t) (hseq : t.seq = s.seq)
    (hne : ∀ k, k ≠ fd → d₁.find k = d.find k) (hm : d₁.memory = d.memory) (hc : d₁.closedSeqs = d.closedSeqs) :
    Removes d (d₁.close fd) := by
  have hiff : ∀ q, Removed d (d₁.close fd) q ↔ s.seq = q ∧ 0 ≤ q := by
    intro q
    constructor
    · rintro ⟨k, u, hu, hn, rfl, h0⟩
      by_cases hk : k = fd
      · subst hk
        rw [hs] at hu
        cases hu
        exact ⟨rfl, h0⟩
      · rw [Daemon.find_close_ne hk, hne k hk, hu] at hn
        cases hn
    · rintro ⟨rfl, h0⟩
      exact ⟨fd, s, hs, Daemon.find_close_self, rfl, h0⟩
  have hmem : (d₁.close fd).memory = if 0 ≤ s.seq then d.memory.seqRm s.seq else d.memory := by
    rw [Daemon.close_eq_some ht, hseq, hm]
  have hcl : (d₁.close fd).closedSeqs = if 0 ≤ s.seq then s.seq :: d.closedSeqs else d.closedSeqs := by
    rw [Daemon.close_eq_some ht, hseq, hc]
  refine ⟨fun q => ?_, fun q hq => ?_, fun q hq => ?_⟩
  · rw [hiff, hcl]
    split
    next h0 =>
      rw [List.mem_cons]
      constructor
      · rintro (rfl | h)
        · exact .inr ⟨rfl, h0⟩
        · exact .inl h
      · rintro (h | ⟨rfl, -⟩)
        · exact .inr h
        · exact .inl rfl
    next h0 =>
      refine ⟨.inl, ?_⟩
      rintro (h | ⟨rfl, h⟩)
      · exact h
      · exact absurd h h0
  · obtain ⟨rfl, h0⟩ := (hiff q).mp hq
    rw [hmem, if_pos h0, seqRm_self]
  · rw [hmem]
    split
    next h0 => exact seqRm_ne d.memory fun he => hq ((hiff q).mpr ⟨he.symm, he ▸ h0⟩)
    next => rfl

theorem Removes.foldl_close (l : List Int) (d : Daemon) : Removes d (l.foldl Daemon.close d) := by
  induction l generalizing d with
  | nil => exact .refl d
  | cons fd l ih =>
    rw [List.foldl_cons]
    have h₁ : Removes d (d.close fd) := by
      cases hs : d.find fd with
      | none =>
        rw [Daemon.close_eq_none hs]
        exact .of_kept (fun k s hk hn => by rw [show d.find k = none from hn] at hk; cases hk) rfl rfl
      | some s => exact .of_close hs hs rfl (fun _ _ => rfl) rfl rfl
    have h₂ := ih (d.close fd)
    -- A session is gone after both when it is gone after one of them.
    have hiff : ∀ q, Removed d (l.foldl Daemon.close (d.close fd)) q ↔
        Removed d (d.close fd) q ∨ Removed (d.close fd) (l.foldl Daemon.close (d.close fd)) q := by
      intro q
      constructor
      · intro ⟨k, s, hs, hn, hq, h0⟩
        cases hk : (d.close fd).find k with
        | none => exact .inl ⟨k, s, hs, hk, hq, h0⟩
        | some t =>
          have hne : k ≠ fd := by
            rintro rfl
            rw [Daemon.find_close_self] at hk
            cases hk
          rw [Daemon.find_close_ne hne, hs] at hk
          cases hk
          exact .inr ⟨k, s, by rw [Daemon.find_close_ne hne, hs], hn, hq, h0⟩
      · rintro (⟨k, s, hs, hn, hq, h0⟩ | ⟨k, s, hs, hn, hq, h0⟩)
        · refine ⟨k, s, hs, ?_, hq, h0⟩
          rcases foldl_close_view l (d.close fd) k with h | h
          · exact (congrArg View.session h).trans hn
          · exact congrArg View.session h
        · have hne : k ≠ fd := by
            rintro rfl
            rw [Daemon.find_close_self] at hs
            cases hs
          exact ⟨k, s, by rw [← Daemon.find_close_ne hne, hs], hn, hq, h0⟩
    refine ⟨fun q => ?_, fun q hq => ?_, fun q hq => ?_⟩
    · rw [h₂.noted, h₁.noted, hiff, or_assoc]
    · by_cases h : Removed (d.close fd) (l.foldl Daemon.close (d.close fd)) q
      · exact h₂.cleared q h
      · rw [h₂.kept q h]
        exact h₁.cleared q (((hiff q).mp hq).resolve_right h)
    · rw [hiff, not_or] at hq
      rw [h₂.kept q hq.2, h₁.kept q hq.1]

theorem finishWrite_removes (hs : d.find fd = some s) (ht : d₁.find fd = some t) (hseq : t.seq = s.seq)
    (hne : ∀ k, k ≠ fd → d₁.find k = d.find k) (hm : d₁.memory = d.memory) (hc : d₁.closedSeqs = d.closedSeqs) :
    Removes d (d₁.finishWrite fd t) := by
  unfold Daemon.finishWrite
  have hclose := Removes.of_close hs ht hseq hne hm hc
  split
  · exact hclose
  · split
    · split
      · exact hclose
      · exact .of_put (Daemon.find_put_self ht) (fun k hk => (Daemon.find_put_ne hk).trans (hne k hk)) hm hc
    · exact .of_put ht hne hm hc

theorem finishRead_removes (hs : d.find fd = some s) (ht : d₁.find fd = some t) (hseq : t.seq = s.seq)
    (hne : ∀ k, k ≠ fd → d₁.find k = d.find k) (hm : d₁.memory = d.memory) (hc : d₁.closedSeqs = d.closedSeqs) :
    Removes d (d₁.finishRead fd t) := by
  have hwrite := finishWrite_removes hs ht hseq hne hm hc
  rcases finishRead_eq d₁ fd t with h | h
  · rw [h]
    exact hwrite
  · rw [h]
    exact ⟨hwrite.noted, hwrite.cleared, hwrite.kept⟩

theorem reading_seq {vocab : Vocab} {nowNs : Nat} {next : Int} {reads : List ReadRes} {o : ReadOutcome}
    (h : Reading cfg vocab nowNs next reads s o) (hw : o.rr.wantsWrite = true) (json : Bytes) :
    (o.replied json).seq = s.seq := by
  cases h with
  | quiet _ hw' _ => rw [hw'] at hw; cases hw
  | started _ _ _ _ _ hw' _ _ => rw [hw'] at hw; cases hw
  | rejected _ ht _ | admin _ ht _ _ => obtain ⟨rx, act, rc, id, temp, p, k, -, rfl⟩ := ht; rfl
  | empty _ ht _ _ _ _ ha =>
    obtain ⟨rx, act, rc, id, temp, p, k, -, rfl⟩ := ht
    simp only [ReadOutcome.replied, ha]
    rfl

theorem readable_removes (reads : List ReadRes) (now : WriteRes) (nowNs : Nat) :
    Removes d (d.readable pf cfg fd reads now nowNs) := by
  cases hs : d.find fd with
  | none => rw [readable_none hs]; exact .refl d
  | some s =>
    obtain ⟨json, h⟩ := readable_some pf cfg reads now nowNs hs
    have hr : Reading cfg pf.vocab nowNs d.mgr.nextSeqId reads s _ := read_reading
    dsimp only at h
    generalize s.read cfg pf.vocab nowNs d.mgr.nextSeqId reads = o at hr h
    have hf : (d.heard fd o (o.replied json)).find fd = some (o.replied json) := heard_find_self hs
    have hne : ∀ k, k ≠ fd → (d.heard fd o (o.replied json)).find k = d.find k := fun k hk =>
      congrArg View.session (heard_view_ne hk)
    obtain ⟨-, h⟩ | ⟨hw, tx, -, ⟨-, h⟩ | ⟨-, h⟩⟩ := h
    · rw [h]
      exact .of_put hf hne rfl rfl
    · rw [h]
      exact .of_put (Daemon.find_put_self hf) (fun k hk => (Daemon.find_put_ne hk).trans (hne k hk)) rfl rfl
    · rw [h]
      exact finishRead_removes hs (Daemon.find_put_self hf) (reading_seq hr hw json)
        (fun k hk => (Daemon.find_put_ne hk).trans (hne k hk)) rfl rfl

theorem writable_removes (writes : List WriteRes) (nowNs : Nat) : Removes d (d.writable fd writes nowNs) := by
  cases hs : d.find fd with
  | none => rw [writable_none hs]; exact .refl d
  | some s =>
    obtain ⟨tx, act, -, h | ⟨-, h⟩ | ⟨-, h⟩⟩ := writable_some writes nowNs hs
    · rw [h]
      exact .of_close hs (Daemon.find_put_self hs) rfl (fun k hk => Daemon.find_put_ne hk) rfl rfl
    · rw [h]
      exact .of_put (Daemon.find_put_self hs) (fun k hk => Daemon.find_put_ne hk) rfl rfl
    · rw [h]
      have hf : ((d.put fd { s with tx := tx, lastActivityNs := act }).unwatchWrite fd).find fd =
          some { s with tx := tx, lastActivityNs := act } := Daemon.find_put_self hs
      exact finishWrite_removes hs hf rfl (fun k hk => Daemon.find_put_ne hk) rfl rfl

/-- **Every step but the tick** clears and notes the sequences of the
sessions that go, and no others. -/
theorem step_removes {a : Action} (he : d.Enabled pf cfg a) (ha : ∀ nowNs out, a ≠ .tick nowNs out) :
    Removes d (d.step pf cfg a) := by
  cases a with
  | accept cfd order nowNs =>
    have hkept : ∀ k s, d.find k = some s → (d.accept cfg cfd order nowNs).find k ≠ none := by
      intro k s hs hn
      have hne : k ≠ cfd := by
        rintro rfl
        rw [he.2] at hs
        cases hs
      have hsame : (d.accept cfg cfd order nowNs).find k = d.find k := congrArg View.session (accept_view_ne hne)
      rw [hsame, hs] at hn
      cases hn
    refine .of_kept hkept ?_ ?_
    · simp only [Daemon.step, Daemon.accept]; split <;> rfl
    · simp only [Daemon.step, Daemon.accept]; split <;> rfl
  | readable fd reads now nowNs => exact readable_removes reads now nowNs
  | writable fd writes nowNs => exact writable_removes writes nowNs
  | idle nowNs => exact .foldl_close _ d
  | tick nowNs out => exact absurd rfl (ha nowNs out)

end Removes

end UmaServe

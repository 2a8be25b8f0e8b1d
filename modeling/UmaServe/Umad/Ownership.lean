/-
Who owns a sequence. `Owned` is what every run keeps about sequence ids and
the memory under them, whatever the clients send and whatever llama.cpp
returns: ids are handed out once, and a sequence that holds anything is held
for one live session.
-/
import UmaServe.Umad.StepFacts

namespace UmaServe

structure Owned (d : Daemon) : Prop where
  keyed : Keyed d.mgr.sessions
  next : 1 ≤ d.mgr.nextSeqId
  range : ∀ fd s, d.find fd = some s → s.seq = -1 ∨ 1 ≤ s.seq ∧ s.seq < d.mgr.nextSeqId
  /-- A request in flight has its sequence. -/
  busy : ∀ fd s, d.find fd = some s → s.state.busy = true → 1 ≤ s.seq
  distinct : ∀ fd fd' s s', d.find fd = some s → d.find fd' = some s' → 0 ≤ s.seq → s.seq = s'.seq → fd = fd'
  /-- A closed session's id was handed out, and nobody has it now. -/
  past : ∀ q ∈ d.closedSeqs, 0 ≤ q ∧ q < d.mgr.nextSeqId ∧ ∀ fd s, d.find fd = some s → s.seq ≠ q
  held : ∀ q, d.memory q ≠ [] → ∃ fd s, d.find fd = some s ∧ s.seq = q ∧ 0 ≤ q

theorem Owned.soleOwner {d : Daemon} (h : Owned d) {fd : Int} {s : ClientSession} (hs : d.find fd = some s)
    (h0 : 0 ≤ s.seq) : SoleOwner d.mgr.sessions fd s.seq :=
  fun fd' s' hs' hq => (h.distinct fd fd' s s' hs hs' h0 hq.symm).symm

/-! ## What a move does to the ids -/

section Ids

variable {pf : Platform} {cfg : RuntimeConfig} {d : Daemon} {next fd : Int} {a : Action} {v v' : View}
  {s s' : ClientSession}

theorem Served.ids {nowNs : Nat} {out : Decoded} {it : BatchItem} {i : Nat} (h : Served pf cfg nowNs out s it i s') :
    s'.fd = s.fd ∧ s'.seq = s.seq := by
  cases h with
  | failed | noRow => simp [ClientSession.decodeFailed, ClientSession.emit]
  | first => simp [prefillSampled_eq]
  | ended => simp [finish_eq]
  | more => simp [decodeSampled_eq]

theorem received_ids (nowNs : Nat) (reads : List ReadRes) :
    (s.received nowNs reads).fd = s.fd ∧ (s.received nowNs reads).seq = s.seq ∧
      (s.received nowNs reads).state = s.state := by
  obtain ⟨rx, act, rc, -, h⟩ := s.received_eq nowNs reads
  rw [h]
  exact ⟨rfl, rfl, rfl⟩

/-- A session after a move: a new one, one that kept its sequence, or one
that just got the counter's. -/
theorem Move.ids (hk : Keyed d.mgr.sessions) (h : Move pf cfg d next fd a v v') (hs' : v'.session = some s') :
    (v.session = none ∧ s'.fd = fd ∧ s'.seq = -1 ∧ s'.state = .recvReq) ∨
    (∃ s, v.session = some s ∧ s'.fd = s.fd ∧ s'.seq = s.seq ∧
      (s'.state.busy = true → s.state.busy = true ∨ 0 ≤ s.seq)) ∨
    (∃ s reads now nowNs, v.session = some s ∧ s'.fd = s.fd ∧ s.seq < 0 ∧ s'.seq = d.mgr.nextSeqId ∧
      next = d.mgr.nextSeqId + 1 ∧ a = .readable fd reads now nowNs ∧
      ∃ js, s.frame? nowNs reads = some js ∧ acceptsRequest cfg js = true ∧ promptOf pf.vocab js ≠ []) := by
  cases h with
  | same => exact .inr (.inl ⟨s', hs', rfl, rfl, .inl⟩)
  | accepted => cases hs'; exact .inl ⟨rfl, rfl, rfl, rfl⟩
  | @quiet reads now nowNs s =>
    cases hs'
    obtain ⟨h₁, h₂, h₃⟩ := received_ids (s := s) nowNs reads
    exact .inr (.inl ⟨s, rfl, h₁, h₂, fun hb => .inl (h₃ ▸ hb)⟩)
  | rejected _ ht | metrics _ ht | empty _ ht | emptied _ ht =>
    cases hs'
    obtain ⟨rx, act, rc, id, temp, p, k, -, rfl⟩ := ht
    exact .inr (.inl ⟨_, rfl, rfl, rfl, fun hb => by cases hb⟩)
  | started _ ht hf hacc hne _ hseq =>
    cases hs'
    obtain ⟨rx, act, rc, id, temp, p, k, -, rfl⟩ := ht
    rcases hseq with ⟨hneg, hseq, hnext⟩ | ⟨hpos, hseq, -⟩
    · exact .inr (.inr ⟨_, _, _, _, rfl, rfl, hneg, hseq, hnext, rfl, _, hf, hacc, hne⟩)
    · exact .inr (.inl ⟨_, rfl, rfl, hseq, fun _ => .inr hpos⟩)
  | sent | drained | idled => cases hs'; exact .inr (.inl ⟨_, rfl, rfl, rfl, .inl⟩)
  | finished => cases hs'; exact .inr (.inl ⟨_, rfl, rfl, rfl, fun hb => by cases hb⟩)
  | served hserves hserved =>
    cases hs'
    exact .inr (.inl ⟨_, rfl, hserved.ids.1, hserved.ids.2, fun _ => .inl (hserves.busy hk)⟩)
  | closed => cases hs'

end Ids

/-! ## Every run -/

section Runs

variable {pf : Platform} {cfg : RuntimeConfig} {d : Daemon} {a : Action}

theorem owned_init : Owned (umad pf cfg).init where
  keyed := fun fd s hs => by cases hs
  next := le_refl 1
  range := fun fd s hs => by cases hs
  busy := fun fd s hs => by cases hs
  distinct := fun fd fd' s s' hs => by cases hs
  past := fun q hq => by cases hq
  held := fun q hq => absurd rfl hq

/-- What the ids of a session after a step are. -/
theorem Owned.ids (h : Owned d) (he : d.Enabled pf cfg a) {fd : Int} {s' : ClientSession}
    (hs' : (d.step pf cfg a).find fd = some s') :
    (d.find fd = none ∧ s'.fd = fd ∧ s'.seq = -1 ∧ s'.state = .recvReq) ∨
    (∃ s, d.find fd = some s ∧ s'.fd = s.fd ∧ s'.seq = s.seq ∧
      (s'.state.busy = true → s.state.busy = true ∨ 0 ≤ s.seq)) ∨
    (∃ s reads now nowNs, d.find fd = some s ∧ s'.fd = s.fd ∧ s.seq < 0 ∧ s'.seq = d.mgr.nextSeqId ∧
      (d.step pf cfg a).mgr.nextSeqId = d.mgr.nextSeqId + 1 ∧ a = .readable fd reads now nowNs ∧
      ∃ js, s.frame? nowNs reads = some js ∧ acceptsRequest cfg js = true ∧ promptOf pf.vocab js ≠ []) :=
  (step_move h.keyed he fd).ids h.keyed hs'

theorem step_nextSeqId_le (pf : Platform) (cfg : RuntimeConfig) (d : Daemon) (a : Action) :
    d.mgr.nextSeqId ≤ (d.step pf cfg a).mgr.nextSeqId := by
  rcases step_nextSeqId pf cfg d a with hn | ⟨hn, -⟩ <;> omega

/-- A sequence that a session has after a step, if it is not new, was the
session's before. -/
theorem Owned.old (h : Owned d) (he : d.Enabled pf cfg a) {fd : Int} {s' : ClientSession}
    (hs' : (d.step pf cfg a).find fd = some s') (h0 : 0 ≤ s'.seq) (hlt : s'.seq < d.mgr.nextSeqId) :
    ∃ s, d.find fd = some s ∧ s'.seq = s.seq := by
  rcases h.ids he hs' with ⟨-, -, hseq, -⟩ | ⟨s, hs, -, hseq, -⟩ | ⟨s, _, _, _, -, -, -, hseq, -⟩
  · omega
  · exact ⟨s, hs, hseq⟩
  · omega

theorem Owned.stays (h : Owned d) (he : d.Enabled pf cfg a) {fd : Int} {s s' : ClientSession}
    (hs : d.find fd = some s) (h0 : 0 ≤ s.seq) (hs' : (d.step pf cfg a).find fd = some s') : s'.seq = s.seq := by
  rcases h.ids he hs' with ⟨hn, -⟩ | ⟨s₀, hs₀, -, hseq, -⟩ | ⟨s₀, _, _, _, hs₀, -, hneg, -⟩
  · rw [hs] at hn; cases hn
  · rw [hs] at hs₀; cases hs₀; exact hseq
  · rw [hs] at hs₀; cases hs₀; omega

theorem Owned.step_keyed (h : Owned d) (he : d.Enabled pf cfg a) : Keyed (d.step pf cfg a).mgr.sessions := by
  intro fd s' hs'
  rcases h.ids he hs' with ⟨-, hfd, -⟩ | ⟨s, hs, hfd, -⟩ | ⟨s, _, _, _, hs, hfd, -⟩
  · exact hfd
  · rw [hfd]; exact h.keyed fd s hs
  · rw [hfd]; exact h.keyed fd s hs

theorem Owned.step_range (h : Owned d) (he : d.Enabled pf cfg a) (fd : Int) (s' : ClientSession)
    (hs' : (d.step pf cfg a).find fd = some s') :
    s'.seq = -1 ∨ 1 ≤ s'.seq ∧ s'.seq < (d.step pf cfg a).mgr.nextSeqId := by
  have hn := h.next
  have hle := step_nextSeqId_le pf cfg d a
  rcases h.ids he hs' with ⟨-, -, hseq, -⟩ | ⟨s, hs, -, hseq, -⟩ | ⟨s, _, _, _, -, -, -, hseq, hnext, -⟩
  · exact .inl hseq
  · rcases h.range fd s hs with hr | hr <;> omega
  · omega

theorem Owned.step_busy (h : Owned d) (he : d.Enabled pf cfg a) (fd : Int) (s' : ClientSession)
    (hs' : (d.step pf cfg a).find fd = some s') (hb : s'.state.busy = true) : 1 ≤ s'.seq := by
  have hn := h.next
  rcases h.ids he hs' with ⟨-, -, -, hst⟩ | ⟨s, hs, -, hseq, hbusy⟩ | ⟨s, _, _, _, -, -, -, hseq, -⟩
  · rw [hst] at hb; cases hb
  · rcases hbusy hb with hb | h0
    · rw [hseq]; exact h.busy fd s hs hb
    · rcases h.range fd s hs with hr | hr <;> omega
  · omega

theorem Owned.step_distinct (h : Owned d) (he : d.Enabled pf cfg a) (fd fd' : Int) (s s' : ClientSession)
    (hs : (d.step pf cfg a).find fd = some s) (hs' : (d.step pf cfg a).find fd' = some s') (h0 : 0 ≤ s.seq)
    (heq : s.seq = s'.seq) : fd = fd' := by
  by_cases hlt : s.seq < d.mgr.nextSeqId
  · obtain ⟨t, ht, hts⟩ := h.old he hs h0 hlt
    obtain ⟨t', ht', hts'⟩ := h.old he hs' (heq ▸ h0) (heq ▸ hlt)
    exact h.distinct fd fd' t t' ht ht' (hts ▸ h0) (by rw [← hts, ← hts', heq])
  · -- Both have the counter's value, which went to the one descriptor read.
    have new : ∀ {k : Int} {u : ClientSession}, (d.step pf cfg a).find k = some u → u.seq = s.seq →
        ∃ reads now nowNs, a = .readable k reads now nowNs := by
      intro k u hu hus
      rcases h.ids he hu with ⟨-, -, hseq, -⟩ | ⟨t, ht, -, hseq, -⟩ | ⟨_, reads, now, nowNs, -, -, -, -, -, ha, -⟩
      · omega
      · rcases h.range k t ht with hr | hr <;> omega
      · exact ⟨reads, now, nowNs, ha⟩
    obtain ⟨_, _, _, ha⟩ := new hs rfl
    obtain ⟨_, _, _, ha'⟩ := new hs' heq.symm
    rw [ha] at ha'
    cases ha'
    rfl

theorem step_noted (he : d.Enabled pf cfg a) {q : Int} (hq : q ∈ (d.step pf cfg a).closedSeqs) :
    q ∈ d.closedSeqs ∨ Removed d (d.step pf cfg a) q := by
  cases a with
  | tick nowNs out =>
    rw [Daemon.step, Daemon.tick_closedSeqs] at hq
    exact .inl hq
  | accept | readable | writable | idle => exact ((step_removes he (by simp)).noted q).mp hq

theorem Owned.step_past (h : Owned d) (he : d.Enabled pf cfg a) (q : Int) (hq : q ∈ (d.step pf cfg a).closedSeqs) :
    0 ≤ q ∧ q < (d.step pf cfg a).mgr.nextSeqId ∧ ∀ fd s, (d.step pf cfg a).find fd = some s → s.seq ≠ q := by
  have hle := step_nextSeqId_le pf cfg d a
  rcases step_noted he hq with hold | ⟨k, t, ht, hgone, rfl, h0⟩
  · obtain ⟨h0, hlt, hno⟩ := h.past q hold
    refine ⟨h0, by omega, fun fd s hs hq => ?_⟩
    obtain ⟨t, ht, hst⟩ := h.old he hs (hq ▸ h0) (hq ▸ hlt)
    exact hno fd t ht (hst.symm.trans hq)
  · have hlt : t.seq < d.mgr.nextSeqId := by rcases h.range k t ht with hr | hr <;> omega
    refine ⟨h0, by omega, fun fd s hs hq => ?_⟩
    -- The only session that had it is gone.
    obtain ⟨u, hu, hsu⟩ := h.old he hs (hq ▸ h0) (hq ▸ hlt)
    have hfd := h.distinct fd k u t hu ht (by omega) (by omega)
    rw [hfd, hgone] at hs
    cases hs

/-- A session that owned a sequence and is still there owns it still. -/
theorem Owned.keeps (h : Owned d) (he : d.Enabled pf cfg a) {fd q : Int} {s : ClientSession} (hs : d.find fd = some s)
    (hq : s.seq = q) (h0 : 0 ≤ q) (hlive : (d.step pf cfg a).find fd ≠ none) :
    ∃ fd s, (d.step pf cfg a).find fd = some s ∧ s.seq = q ∧ 0 ≤ q := by
  cases hs' : (d.step pf cfg a).find fd with
  | none => exact absurd hs' hlive
  | some s' => exact ⟨fd, s', hs', (h.stays he hs (hq ▸ h0) hs').trans hq, h0⟩

theorem Owned.step_held (h : Owned d) (he : d.Enabled pf cfg a) (q : Int) (hq : (d.step pf cfg a).memory q ≠ []) :
    ∃ fd s, (d.step pf cfg a).find fd = some s ∧ s.seq = q ∧ 0 ≤ q := by
  cases a with
  | tick nowNs out =>
    have hlive : ∀ fd s, d.find fd = some s → (d.step pf cfg (.tick nowNs out)).find fd ≠ none := by
      intro fd s hs hn
      obtain ⟨s', hs'⟩ := tick_lookup_isSome pf cfg d.memory nowNs out h.keyed hs
      rw [Daemon.step, Daemon.tick_find, hs'] at hn
      cases hn
    have hmem : (d.ticked pf cfg nowNs out).memory q ≠ [] := by
      rw [Daemon.step, Daemon.tick_memory] at hq
      exact hq
    rcases tick_memory_owner h.keyed hmem with hm | ⟨fd, s, hs, hsq, hb⟩
    · obtain ⟨fd, s, hs, hsq, h0⟩ := h.held q hm
      exact h.keeps he hs hsq h0 (hlive fd s hs)
    · have h1 := h.busy fd s hs hb
      exact h.keeps he hs hsq (by omega) (hlive fd s hs)
  | accept | readable | writable | idle =>
    have hrem := step_removes he (by simp)
    have hnot : ¬ Removed d _ q := fun hr => hq (hrem.cleared q hr)
    rw [hrem.kept q hnot] at hq
    obtain ⟨fd, s, hs, hsq, h0⟩ := h.held q hq
    exact h.keeps he hs hsq h0 fun hn => hnot ⟨fd, s, hs, hn, hsq, h0⟩

theorem Owned.step (h : Owned d) (he : d.Enabled pf cfg a) : Owned (d.step pf cfg a) where
  keyed := h.step_keyed he
  next := le_trans h.next (step_nextSeqId_le pf cfg d a)
  range := h.step_range he
  busy := h.step_busy he
  distinct := h.step_distinct he
  past := h.step_past he
  held := h.step_held he

/-- **Every reachable state** is owned. -/
theorem owned_of_reach {C : Daemon → Action → Prop} (h : (umad pf cfg).Reach C d) : Owned d :=
  h.invariant owned_init fun _ _ _ hi he _ => hi.step he

/-- The invariant rule for what holds of each descriptor on its own. -/
theorem view_invariant {C : Daemon → Action → Prop} {I : View → Prop} (h₀ : I ⟨none, false, false⟩)
    (hs : ∀ d a fd next v v', (umad pf cfg).Reach C d → d.Enabled pf cfg a → C d a → d.view fd = v →
      Move pf cfg d next fd a v v' → I v → I v')
    (h : (umad pf cfg).Reach C d) (fd : Int) : I (d.view fd) := by
  refine h.invariant (I := fun d => ∀ fd, I (d.view fd)) (fun _ => h₀) ?_ fd
  intro d a hr hi he hc fd
  exact hs d a fd _ _ _ hr he hc rfl (step_move (owned_of_reach hr).keyed he fd) (hi fd)

/-- The same for what holds of each session: a move from a session to a
session has to keep it. -/
theorem session_invariant {C : Daemon → Action → Prop} {I : ClientSession → Prop}
    (h₀ : ∀ fd nowNs, I { fd, lastActivityNs := nowNs })
    (hm : ∀ d a fd next s s' r w r' w', (umad pf cfg).Reach C d → C d a → d.find fd = some s →
      Move pf cfg d next fd a ⟨some s, r, w⟩ ⟨some s', r', w'⟩ → I s → I s')
    (h : (umad pf cfg).Reach C d) {fd : Int} {s : ClientSession} (hs : d.find fd = some s) : I s := by
  refine view_invariant (I := fun v => ∀ s ∈ v.session, I s) (by simp) ?_ h fd s hs
  intro d a fd next v v' hr _ hc hv hmove hi s' hs'
  obtain ⟨o, r, w⟩ := v
  obtain ⟨o', r', w'⟩ := v'
  obtain rfl : o' = some s' := hs'
  cases o with
  | some s => exact hm d a fd next s s' r w r' w' hr hc (congrArg View.session hv) hmove (hi s rfl)
  | none =>
    cases hmove with
    | accepted => exact h₀ _ _

theorem step_session (hk : Keyed d.mgr.sessions) (he : d.Enabled pf cfg a) {fd : Int} {s' : ClientSession}
    (hs' : (d.step pf cfg a).find fd = some s') :
    (∃ order nowNs, a = .accept fd order nowNs ∧ s' = { fd, lastActivityNs := nowNs }) ∨
      ∃ s next r w r' w', d.find fd = some s ∧ Move pf cfg d next fd a ⟨some s, r, w⟩ ⟨some s', r', w'⟩ := by
  obtain ⟨next, r, w, r', w', hmove⟩ : ∃ next r w r' w',
      Move pf cfg d next fd a ⟨d.find fd, r, w⟩ ⟨(d.step pf cfg a).find fd, r', w'⟩ :=
    ⟨_, _, _, _, _, step_move hk he fd⟩
  rw [hs'] at hmove
  cases hs : d.find fd with
  | none =>
    rw [hs] at hmove
    cases hmove with
    | accepted => exact .inl ⟨_, _, rfl, rfl⟩
  | some s =>
    rw [hs] at hmove
    exact .inr ⟨s, next, r, w, r', w', rfl, hmove⟩

/-- A step other than the tick changes no list but those of the sessions
that go, and empties those. -/
theorem Owned.step_memory (h : Owned d) (he : d.Enabled pf cfg a) (ha : ∀ nowNs out, a ≠ .tick nowNs out) {fd : Int}
    {s : ClientSession} (hs : d.find fd = some s) :
    (d.step pf cfg a).memory s.seq = if (d.step pf cfg a).find fd = none then [] else d.memory s.seq := by
  have hrem := step_removes he ha
  have hunowned : ¬ 0 ≤ s.seq → d.memory s.seq = [] := by
    intro hneg
    by_contra hne
    obtain ⟨_, _, _, _, h0⟩ := h.held s.seq hne
    exact hneg h0
  by_cases hr : Removed d (d.step pf cfg a) s.seq
  · obtain ⟨k, t, ht, hgone, hq, h0⟩ := hr
    obtain rfl := h.distinct fd k s t hs ht h0 hq.symm
    rw [if_pos hgone]
    exact hrem.cleared s.seq ⟨fd, t, ht, hgone, hq, h0⟩
  · rw [hrem.kept s.seq hr]
    split
    next hgone => exact hunowned fun h0 => hr ⟨fd, s, hs, hgone, rfl, h0⟩
    next => rfl

/-- **KV ownership.** In every reachable state of every run, the sequence ids
of live sessions are distinct and none is a closed session's; a sequence that
holds tokens is that of exactly one live session; and a step that closes
sessions empties their lists and leaves those of the others alone. -/
theorem kv_ownership (h : (umad pf cfg).Reach Lib.Always d) :
    (∀ fd fd' s s', d.find fd = some s → d.find fd' = some s' → 0 ≤ s.seq → s.seq = s'.seq → fd = fd') ∧
    (∀ fd s, d.find fd = some s → s.seq ∉ d.closedSeqs) ∧
    (∀ q, d.memory q ≠ [] → ∃! fd, ∃ s, d.find fd = some s ∧ s.seq = q) ∧
    ∀ a, d.Enabled pf cfg a → (∀ nowNs out, a ≠ .tick nowNs out) → ∀ fd s, d.find fd = some s →
      (d.step pf cfg a).memory s.seq = if (d.step pf cfg a).find fd = none then [] else d.memory s.seq := by
  have ho := owned_of_reach h
  refine ⟨ho.distinct, fun fd s hs hq => (ho.past s.seq hq).2.2 fd s hs rfl, fun q hq => ?_,
    fun a he ha fd s hs => ho.step_memory he ha hs⟩
  obtain ⟨fd, s, hs, hsq, h0⟩ := ho.held q hq
  refine ⟨fd, ⟨s, hs, hsq⟩, ?_⟩
  intro fd' ⟨s', hs', hsq'⟩
  exact ho.distinct fd' fd s' s hs' hs (by omega) (by omega)

/-- Two clients with a request each. -/
def twoAsked : List Action :=
  [.accept 7 [7] 1, .accept 8 [8, 7] 1, .readable 7 (request "ab") .wouldBlock 2,
    .readable 8 (request "c") .wouldBlock 2]

/-- The same, and a tick that feeds both prompts. -/
def twoServed : List Action := twoAsked ++ [.tick 3 (choosing 1)]

theorem kv_ownership_two :
    ((umad small {}).after (umad small {}).init twoServed).memory 1 = [97, 98] ∧
      ∃! fd, ∃ s, ((umad small {}).after (umad small {}).init twoServed).find fd = some s ∧ s.seq = 1 := by
  have hr : (umad small {}).Reach Lib.Always ((umad small {}).after (umad small {}).init twoServed) :=
    Lib.System.Reach.init.run (by decide +kernel)
  have hm : ((umad small {}).after (umad small {}).init twoServed).memory 1 = [97, 98] := by decide +kernel
  exact ⟨hm, (kv_ownership hr).2.2.1 1 (by rw [hm]; simp)⟩

/-! ## The batch -/

/-- The batch `Scheduler::tick` builds in a state. -/
def Daemon.batch (d : Daemon) (cfg : RuntimeConfig) : Batch :=
  (enact d.mgr.sessions (d.sched.plan cfg d.mgr.sessions).items).batch

theorem batch_seq (ho : Owned d) {q : Int} (hq : q ∈ (d.batch cfg).seqIdVals) :
    ∃ fd s, d.find fd = some s ∧ s.state.busy = true ∧ s.seq = q := by
  rw [Daemon.batch, enact_batch (plan_ok ho.keyed d.sched cfg).nodup] at hq
  obtain ⟨r, hr, rfl⟩ := List.mem_map.mp hq
  obtain ⟨it, hit, s, hs, hrow⟩ := mem_planRows hr
  obtain ⟨before, hserves⟩ := exists_serves hit hs (List.ne_nil_of_mem hrow)
  exact ⟨it.fd, s, hs, hserves.busy ho.keyed, (itemRows_seq hrow).symm⟩

/-- The batch asks for logits at the row a session is sampled from. -/
theorem batch_logits_asked (hk : Keyed d.mgr.sessions) {fd : Int} {s : ClientSession} {before : List BatchItem}
    {it : BatchItem} (h : Serves d.mgr.sessions (d.sched.items cfg d.mgr.sessions) fd s before it) :
    sampleIndex d.mgr.sessions before s it < (d.batch cfg).logits.length ∧
      (d.batch cfg).logits.getD (sampleIndex d.mgr.sessions before s it) false = true := by
  obtain ⟨r, hget, -, hlog⟩ := h.sampled_row
  obtain ⟨hlt, -⟩ := List.getElem?_eq_some_iff.mp hget
  have hbatch : (d.batch cfg).logits = (planRows d.mgr.sessions (d.sched.items cfg d.mgr.sessions)).map Row.logits := by
    rw [Daemon.batch, enact_batch (plan_ok hk d.sched cfg).nodup]
    rfl
  refine ⟨by rw [hbatch, List.length_map]; exact hlt, ?_⟩
  rw [hbatch, List.getD_eq_getElem?_getD, List.getElem?_map, hget]
  exact hlog

end Runs

end UmaServe

/-
How much memory the daemon needs. There are at most `max_sessions` sessions,
and under the sequence of each, also while a decode runs and whatever it
returns, at most its prompt, the tokens generated up to the limit and one
more (`Holds`). So the context has room for every run if it has room for
that (`kv_capacity`).
-/
import Mathlib.Algebra.Order.BigOperators.Group.Finset
import UmaServe.Umad.Tracking

namespace UmaServe

/-- What is under the sequence of `s`, where prompts have at most `most`
tokens. -/
structure Holds (cfg : RuntimeConfig) (most : Nat) (held : List Token) (s : ClientSession) : Prop where
  bound : held.length ≤ most + cfg.maxTokens + 1
  idle : s.state.busyOrErrored = false → held = []
  prompt : s.state.busy = true → s.promptTokens.length ≤ most
  prefill : s.state = .prefill → held.length ≤ s.prefillIdx ∧ s.prefillIdx ≤ s.promptTokens.length ∧
    s.generatedCount = 0
  decode : s.state = .decode → s.hasPendingTok = true →
    held.length ≤ s.promptTokens.length + s.generatedCount ∧ s.generatedCount ≤ cfg.maxTokens

section Holds

variable {pf : Platform} {cfg : RuntimeConfig} {d : Daemon} {fd : Int} {s s' : ClientSession}
  {held held' : List Token} {most : Nat} {before : List BatchItem} {it : BatchItem} {out : Decoded}

/-- A session between requests, or after a failed decode. -/
theorem Holds.over (hb : s.state.busy = false) (hidle : s.state.busyOrErrored = false → held = [])
    (hbound : held.length ≤ most + cfg.maxTokens + 1) : Holds cfg most held s where
  bound := hbound
  idle := hidle
  prompt := fun hb' => by rw [hb] at hb'; cases hb'
  prefill := fun hst => by rw [hst] at hb; cases hb
  decode := fun hst => by rw [hst] at hb; cases hb

theorem Holds.nothing (hb : s.state.busy = false) : Holds cfg most [] s :=
  .over hb (fun _ => rfl) (Nat.zero_le _)

/-- The same list, and the fields for it as they were. -/
theorem Holds.still (h : Holds cfg most held s) (hst : s'.state = s.state) (hp : s'.promptTokens = s.promptTokens)
    (hi : s'.prefillIdx = s.prefillIdx) (hg : s'.generatedCount = s.generatedCount)
    (hpend : s'.hasPendingTok = s.hasPendingTok) : Holds cfg most held s' := by
  obtain ⟨hbound, hidle, hprompt, hprefill, hdecode⟩ := h
  rw [← hst] at hidle hprompt hprefill hdecode
  rw [← hp] at hprompt hprefill hdecode
  rw [← hi, ← hg] at hprefill
  rw [← hpend, ← hg] at hdecode
  exact ⟨hbound, hidle, hprompt, hprefill, hdecode⟩

theorem itemRows_length_prefill (hph : it.phase = .prefill) : (itemRows s it).length = it.nTokens.toNat := by
  simp [itemRows, hph]

theorem itemRows_length_decode (hph : it.phase = .decode) : (itemRows s it).length = 1 := by
  simp [itemRows, hph]

/-- The rows a tick decodes for a session fit. -/
theorem Holds.rows (h : Holds cfg most held s) (hk : Keyed d.mgr.sessions)
    (hserves : Serves d.mgr.sessions (d.sched.items cfg d.mgr.sessions) fd s before it) :
    held.length + (itemRows s it).length ≤ most + cfg.maxTokens + 1 := by
  have hprompt := h.prompt (hserves.busy hk)
  cases hph : it.phase with
  | prefill =>
    obtain ⟨hst, -, hpos, hle⟩ := hserves.prefill hk hph
    obtain ⟨hheld, hidx, -⟩ := h.prefill hst
    unfold ClientSession.remaining at hle
    rw [itemRows_length_prefill hph]
    omega
  | decode =>
    obtain ⟨hst, hpend⟩ := hserves.decode hk hph
    obtain ⟨hheld, hcount⟩ := h.decode hst hpend
    rw [itemRows_length_decode hph]
    omega

/-- A session in `PREFILL`. -/
theorem Holds.feeding (hst : s.state = .prefill) (hheld : held.length ≤ s.prefillIdx)
    (hidx : s.prefillIdx ≤ s.promptTokens.length) (hcount : s.generatedCount = 0)
    (hprompt : s.promptTokens.length ≤ most) : Holds cfg most held s where
  bound := by omega
  idle := fun hb => by rw [hst] at hb; cases hb
  prompt := fun _ => hprompt
  prefill := fun _ => ⟨hheld, hidx, hcount⟩
  decode := fun hd => by rw [hst] at hd; cases hd

/-- A session in `DECODE`. -/
theorem Holds.decoding (hst : s.state = .decode) (hbound : held.length ≤ most + cfg.maxTokens + 1)
    (hprompt : s.promptTokens.length ≤ most)
    (hpend : s.hasPendingTok = true →
      held.length ≤ s.promptTokens.length + s.generatedCount ∧ s.generatedCount ≤ cfg.maxTokens) :
    Holds cfg most held s where
  bound := hbound
  idle := fun hb => by rw [hst] at hb; cases hb
  prompt := fun _ => hprompt
  prefill := fun hp => by rw [hst] at hp; cases hp
  decode := fun _ => hpend

/-- **A tick that serves the session** leaves no more than it decodes. -/
theorem Holds.served {nowNs : Nat} {i : Nat} (h : Holds cfg most held s) (hk : Keyed d.mgr.sessions)
    (hserves : Serves d.mgr.sessions (d.sched.items cfg d.mgr.sessions) fd s before it)
    (hserved : Served pf cfg nowNs out s it i s')
    (hle : held'.length ≤ held.length + (itemRows s it).length) (hend : s'.state = .stream → held' = []) :
    Holds cfg most held' s' := by
  have hbound := hle.trans (h.rows hk hserves)
  have hprompt : (s.enacted it).promptTokens.length ≤ most := by
    rw [enacted_promptTokens]
    exact h.prompt (hserves.busy hk)
  cases hserved with
  | failed => exact .over rfl (fun hb => by cases hb) hbound
  | ended => exact .over rfl (fun _ => hend rfl) hbound
  | noRow =>
    cases hph : it.phase with
    | prefill =>
      obtain ⟨hst, -, hpos, hfit⟩ := hserves.prefill hk hph
      obtain ⟨hheld, hidx, hcount⟩ := h.prefill hst
      rw [itemRows_length_prefill hph] at hle
      unfold ClientSession.remaining at hfit
      refine .feeding (by rw [enacted_state, hst]) ?_ ?_ (by rw [enacted_generatedCount, hcount]) hprompt
      · simp only [ClientSession.enacted, hph]
        omega
      · simp only [ClientSession.enacted, hph]
        omega
    | decode =>
      obtain ⟨hst, -⟩ := hserves.decode hk hph
      refine .decoding (by rw [enacted_state, hst]) hbound hprompt fun hpend => ?_
      simp only [ClientSession.enacted, hph] at hpend
      cases hpend
  | first hrc hr hph =>
    obtain ⟨hst, -, hpos, hfit⟩ := hserves.prefill hk hph
    obtain ⟨hheld, hidx, hcount⟩ := h.prefill hst
    rw [itemRows_length_prefill hph] at hle
    unfold ClientSession.remaining at hfit
    rw [prefillSampled_eq]
    refine .decoding rfl hbound hprompt fun _ => ?_
    simp only [ClientSession.enacted, hph, hcount]
    omega
  | @more row hrc hr hph hnot =>
    obtain ⟨hst, hpend⟩ := hserves.decode hk hph
    obtain ⟨hheld, hcount⟩ := h.decode hst hpend
    rw [itemRows_length_decode hph] at hle
    simp only [ClientSession.atEnd, Bool.or_eq_false_iff, decide_eq_false_iff_not, enacted_generatedCount] at hnot
    rw [decodeSampled_eq]
    refine .decoding rfl hbound hprompt fun _ => ?_
    simp only [ClientSession.enacted, hph]
    omega

/-- Outside the tick, only a frame changes what a session says of its list,
and it finds the list empty. -/
theorem Holds.move {a : Action} {next : Int} {r w r' w' : Bool} (h : Holds cfg most held s)
    (hP : ∀ text : Bytes, text.length ≤ cfg.maxPromptBytes → (pf.vocab.tokens text true true).length ≤ most)
    (hc : Polite SessionState.busyOrErrored d a) (ha : ∀ nowNs out, a ≠ .tick nowNs out) (hs : d.find fd = some s)
    (hmove : Move pf cfg d next fd a ⟨some s, r, w⟩ ⟨some s', r', w'⟩) : Holds cfg most held s' := by
  have hidle : ∀ reads now nowNs, a = .readable fd reads now nowNs → s.parses nowNs reads = true → held = [] := by
    intro reads now nowNs hread hp
    refine h.idle ?_
    subst hread
    by_contra hb
    rw [hc s hs (by simpa using hb)] at hp
    cases hp
  cases hmove with
  | same => exact h
  | @quiet reads now nowNs =>
    obtain ⟨rx, act, rc, -, heq⟩ := s.received_eq nowNs reads
    rw [heq]
    exact h.still rfl rfl rfl rfl rfl
  | rejected hp | metrics hp | empty hp | emptied hp =>
    obtain rfl := hidle _ _ _ rfl hp
    exact .nothing rfl
  | started hp htaken hframe hacc =>
    obtain rfl := hidle _ _ _ rfl hp
    refine .feeding rfl (Nat.zero_le _) (Nat.zero_le _) rfl ?_
    simp only [acceptsRequest, Bool.and_eq_true, decide_eq_true_eq] at hacc
    exact (congrArg List.length (tokenize_eq _ _ true true)).trans_le (hP _ hacc.2)
  | sent | drained => exact h.still rfl rfl rfl rfl rfl
  | finished hst =>
    obtain rfl := h.idle (by rw [hst]; rfl)
    exact .nothing rfl
  | idled | served => exact absurd rfl (ha _ _)

/-! ## One decode -/

/-- A decode adds no more to a sequence than its rows, even where it stops
half-way. -/
theorem llamaDecode_length_le (mem : Memory) (b : Batch) (out : Decoded) (q : Int) :
    (llamaDecode mem b out q).length ≤ (mem q).length + (rowTokens b.rows q).length := by
  by_cases hrc : out.rc = 0
  · rw [llamaDecode, if_pos hrc, Memory.append, List.length_append]
  · have hsub : ((b.rows.zipIdx.filter fun r => out.stays r.2).map Prod.fst).Sublist b.rows := by
      have hfst := (List.filter_sublist (p := fun r => out.stays r.2) (l := b.rows.zipIdx)).map Prod.fst
      rwa [List.zipIdx_map_fst] at hfst
    rw [llamaDecode, if_neg hrc, Memory.append, List.length_append]
    exact Nat.add_le_add_left ((hsub.filter _).map _).length_le _

theorem Daemon.batch_rows (hk : Keyed d.mgr.sessions) :
    (d.batch cfg).rows = (planRows d.mgr.sessions (d.sched.items cfg d.mgr.sessions)).map Row.key := tick_batch_rows hk

theorem Owned.sole_served (ho : Owned d)
    (hserves : Serves d.mgr.sessions (d.sched.items cfg d.mgr.sessions) fd s before it) :
    SoleOwner d.mgr.sessions fd s.seq := by
  have hpos := ho.busy fd s hserves.lookup (hserves.busy ho.keyed)
  exact ho.soleOwner hserves.lookup (by omega)

theorem Owned.decode_served (ho : Owned d)
    (hserves : Serves d.mgr.sessions (d.sched.items cfg d.mgr.sessions) fd s before it) :
    (llamaDecode d.memory (d.batch cfg) out s.seq).length ≤ (d.memory s.seq).length + (itemRows s it).length := by
  have hrows : rowTokens (d.batch cfg).rows s.seq = (itemRows s it).map Row.token := by
    rw [Daemon.batch_rows ho.keyed]
    exact (hserves.rowTokens (plan_ok ho.keyed d.sched cfg).nodup (ho.sole_served hserves)).1
  have hle := llamaDecode_length_le d.memory (d.batch cfg) out s.seq
  rwa [hrows, List.length_map] at hle

theorem decode_other (hk : Keyed d.mgr.sessions) {q : Int}
    (h : ∀ fd s before it, Serves d.mgr.sessions (d.sched.items cfg d.mgr.sessions) fd s before it → s.seq ≠ q) :
    (llamaDecode d.memory (d.batch cfg) out q).length ≤ (d.memory q).length := by
  have hrows : rowTokens (d.batch cfg).rows q = [] := by
    rw [Daemon.batch_rows hk]
    refine rowTokens_eq_nil fun r hr => ?_
    obtain ⟨row, hrow, rfl⟩ := List.mem_map.mp hr
    obtain ⟨it, hit, s, hs, hrow⟩ := mem_planRows hrow
    obtain ⟨before, hserves⟩ := exists_serves hit hs (List.ne_nil_of_mem hrow)
    rw [Row.key, itemRows_seq hrow]
    exact h _ _ _ _ hserves
  have hle := llamaDecode_length_le d.memory (d.batch cfg) out q
  rwa [hrows, List.length_nil, Nat.add_zero] at hle

/-- A tick leaves no more under the sequence it serves than its decode. -/
theorem Owned.tick_le_decode (ho : Owned d) {nowNs : Nat}
    (hserves : Serves d.mgr.sessions (d.sched.items cfg d.mgr.sessions) fd s before it)
    (hs' : (d.ticked pf cfg nowNs out).sessions.lookup fd = some s') :
    ((d.ticked pf cfg nowNs out).memory s.seq).length ≤ (d.memory s.seq).length + (itemRows s it).length := by
  by_cases hrc : out.rc = 0
  · rw [Daemon.ticked, tick_memory_served ho.keyed hserves (ho.sole_served hserves) hrc hs']
    split
    · exact Nat.zero_le _
    · rw [List.length_append, List.length_map]
  · rw [Daemon.ticked, (tick_failed pf d.memory nowNs ho.keyed hserves.batch_ne hrc).2.1]
    exact ho.decode_served hserves

/-! ## Every run -/

/-- **What every session holds fits**, in every run in which no frame is
parsed on a session with a request in flight or a failed decode. -/
theorem holds_of_reach
    (hP : ∀ text : Bytes, text.length ≤ cfg.maxPromptBytes → (pf.vocab.tokens text true true).length ≤ most)
    (h : (umad pf cfg).Reach (Polite SessionState.busyOrErrored) d) (hs : d.find fd = some s) :
    Holds cfg most (d.memory s.seq) s := by
  refine memory_invariant (fun fd nowNs => .nothing rfl) ?_ ?_ h hs
  · intro d a fd next s s' r w r' w' _ hc ha hs hmove hi
    exact hi.move hP hc ha hs hmove
  · intro d nowNs out fd s s' before it hr _ hserves hserved hl hi
    have ho := owned_of_reach hr
    refine hi.served ho.keyed hserves hserved (ho.tick_le_decode hserves hl) fun hst => ?_
    have hrc : out.rc = 0 := by
      cases hserved with
      | failed => cases hst
      | noRow hrc | first hrc | ended hrc | more hrc => exact hrc
    rw [Daemon.ticked, tick_memory_served ho.keyed hserves (ho.sole_served hserves) hrc hl, if_pos hst]

/-- What is under any sequence fits. -/
theorem memory_fits
    (hP : ∀ text : Bytes, text.length ≤ cfg.maxPromptBytes → (pf.vocab.tokens text true true).length ≤ most)
    (h : (umad pf cfg).Reach (Polite SessionState.busyOrErrored) d) (q : Int) :
    (d.memory q).length ≤ most + cfg.maxTokens + 1 := by
  by_cases hheld : d.memory q = []
  · rw [hheld]
    exact Nat.zero_le _
  · obtain ⟨fd, s, hs, rfl, -⟩ := (owned_of_reach h).held q hheld
    exact (holds_of_reach hP h hs).bound

/-- It fits while a decode runs, too. -/
theorem decode_fits
    (hP : ∀ text : Bytes, text.length ≤ cfg.maxPromptBytes → (pf.vocab.tokens text true true).length ≤ most)
    (h : (umad pf cfg).Reach (Polite SessionState.busyOrErrored) d) (q : Int) :
    (llamaDecode d.memory (d.batch cfg) out q).length ≤ most + cfg.maxTokens + 1 := by
  have ho := owned_of_reach h
  by_cases hq : ∃ fd s before it, Serves d.mgr.sessions (d.sched.items cfg d.mgr.sessions) fd s before it ∧ s.seq = q
  · obtain ⟨fd, s, before, it, hserves, rfl⟩ := hq
    exact (ho.decode_served hserves).trans ((holds_of_reach hP h hserves.lookup).rows ho.keyed hserves)
  · refine (decode_other ho.keyed fun fd s before it hserves hseq => hq ⟨fd, s, before, it, hserves, hseq⟩).trans ?_
    exact memory_fits hP h q

/-- Only an accept adds a descriptor, and only where there is room. -/
theorem step_keys {a : Action} (hk : Keyed d.mgr.sessions) (he : d.Enabled pf cfg a) {k : Int}
    (hmem : k ∈ (d.step pf cfg a).mgr.sessions) :
    k ∈ d.mgr.sessions ∨
      d.mgr.sessions.entries.length < cfg.maxSessions ∧ ∃ order nowNs, a = .accept k order nowNs := by
  have hfind := hmem
  rw [← AList.lookup_isSome, Option.isSome_iff_exists] at hfind
  obtain ⟨s', hs'⟩ := hfind
  rcases step_session hk he hs' with ⟨order, nowNs, rfl, -⟩ | ⟨s, _, _, _, _, _, hs, -⟩
  · rcases Nat.lt_or_ge d.mgr.sessions.entries.length cfg.maxSessions with hroom | hfull
    · exact .inr ⟨hroom, order, nowNs, rfl⟩
    · rw [Daemon.step, Daemon.accept, if_pos hfull] at hmem
      exact .inl hmem
  · refine .inl (AList.lookup_isSome.mp ?_)
    rw [show d.mgr.sessions.lookup k = some s from hs]
    rfl

/-- **At most `max_sessions` sessions.** -/
theorem sessions_le {C : Daemon → Action → Prop} (h : (umad pf cfg).Reach C d) :
    d.mgr.sessions.entries.length ≤ cfg.maxSessions := by
  refine h.invariant (I := fun d => d.mgr.sessions.entries.length ≤ cfg.maxSessions) (Nat.zero_le _) ?_
  intro d a hr hi he _
  change d.Enabled pf cfg a at he
  have hk := (owned_of_reach hr).keyed
  have hlen : ∀ m : SessionPool, m.keys.length = m.entries.length := fun m => List.length_map _
  have hnodup := (d.step pf cfg a).mgr.sessions.keys_nodup
  show (d.step pf cfg a).mgr.sessions.entries.length ≤ _
  rw [← hlen] at hi ⊢
  by_cases hnew : ∃ cfd order nowNs, a = .accept cfd order nowNs ∧ d.mgr.sessions.entries.length < cfg.maxSessions
  · obtain ⟨cfd, order, nowNs, rfl, hroom⟩ := hnew
    rw [← hlen] at hroom
    have hsub : (d.step pf cfg (.accept cfd order nowNs)).mgr.sessions.keys ⊆ cfd :: d.mgr.sessions.keys := by
      intro k hmem
      rcases step_keys hk he hmem with hold | ⟨-, _, _, heq⟩
      · exact List.mem_cons_of_mem _ hold
      · cases heq
        exact List.mem_cons_self
    exact (hnodup.subperm hsub).length_le.trans hroom
  · have hsub : (d.step pf cfg a).mgr.sessions.keys ⊆ d.mgr.sessions.keys := by
      intro k hmem
      rcases step_keys hk he hmem with hold | ⟨hroom, order, nowNs, ha⟩
      · exact hold
      · exact absurd ⟨k, order, nowNs, ha, hroom⟩ hnew
    exact (hnodup.subperm hsub).length_le.trans hi

/-- The lists of any sequences, where only the sessions have lists and each
at most `bound`. -/
theorem sum_sequences_le (Q : Finset Int) {held : Memory} {bound : Nat}
    (hown : ∀ q, held q ≠ [] → ∃ fd s, d.find fd = some s ∧ s.seq = q) (hle : ∀ q, (held q).length ≤ bound) :
    ∑ q ∈ Q, (held q).length ≤ d.mgr.sessions.entries.length * bound := by
  have hsub : (Q.filter fun q => (held q).length ≠ 0) ⊆ (d.mgr.sessions.entries.map fun e => e.2.seq).toFinset := by
    intro q hq
    obtain ⟨-, hne⟩ := Finset.mem_filter.mp hq
    obtain ⟨fd, s, hs, hseq⟩ := hown q fun hnil => hne (by rw [hnil]; rfl)
    rw [List.mem_toFinset, List.mem_map]
    exact ⟨⟨fd, s⟩, AList.mem_lookup_iff.mp hs, hseq⟩
  have hcard := (Finset.card_le_card hsub).trans (List.toFinset_card_le _)
  rw [List.length_map] at hcard
  calc ∑ q ∈ Q, (held q).length
      = ∑ q ∈ Q.filter fun q => (held q).length ≠ 0, (held q).length := (Finset.sum_filter_ne_zero Q).symm
    _ ≤ (Q.filter fun q => (held q).length ≠ 0).card • bound := Finset.sum_le_card_nsmul _ _ _ fun q _ => hle q
    _ ≤ d.mgr.sessions.entries.length * bound := Nat.mul_le_mul_right _ hcard

theorem Owned.decode_held (ho : Owned d) {q : Int} (hne : llamaDecode d.memory (d.batch cfg) out q ≠ []) :
    ∃ fd s, d.find fd = some s ∧ s.seq = q := by
  by_contra hno
  have hnil : d.memory q = [] := by
    by_contra hheld
    obtain ⟨fd, s, hs, hq, -⟩ := ho.held q hheld
    exact hno ⟨fd, s, hs, hq⟩
  have hle : (llamaDecode d.memory (d.batch cfg) out q).length ≤ (d.memory q).length :=
    decode_other ho.keyed fun fd s _ _ hserves hq => hno ⟨fd, s, hserves.lookup, hq⟩
  rw [hnil, List.length_nil, Nat.le_zero, List.length_eq_zero_iff] at hle
  exact hne hle

/-- **The size of the context.** Let a prompt of at most `max_prompt_bytes`
have at most `most` tokens. In every run in which no frame is parsed on a
session with a request in flight or a failed decode, there are at most
`max_sessions` sessions, and the tokens held, for any sequences together, are
at most `max_sessions * (most + max_tokens + 1)`: between the steps, and with
the batch of the next tick decoded in whole or in part. -/
theorem kv_capacity
    (hP : ∀ text : Bytes, text.length ≤ cfg.maxPromptBytes → (pf.vocab.tokens text true true).length ≤ most)
    (h : (umad pf cfg).Reach (Polite SessionState.busyOrErrored) d) (Q : Finset Int) (out : Decoded) :
    d.mgr.sessions.entries.length ≤ cfg.maxSessions ∧
      ∑ q ∈ Q, (d.memory q).length ≤ cfg.maxSessions * (most + cfg.maxTokens + 1) ∧
      ∑ q ∈ Q, (llamaDecode d.memory (d.batch cfg) out q).length ≤ cfg.maxSessions * (most + cfg.maxTokens + 1) := by
  have ho := owned_of_reach h
  have hmany := sessions_le h
  have hfits := Nat.mul_le_mul_right (most + cfg.maxTokens + 1) hmany
  refine ⟨hmany, (sum_sequences_le Q (fun q hq => ?_) (memory_fits hP h)).trans hfits,
    (sum_sequences_le Q (fun q hq => ho.decode_held hq) (decode_fits hP h)).trans hfits⟩
  obtain ⟨fd, s, hs, hseq, -⟩ := ho.held q hq
  exact ⟨fd, s, hs, hseq⟩

/-- Two sessions whose prompts have three tokens in all, and the next token
of each. -/
theorem kv_capacity_two :
    let cfg : RuntimeConfig := {}
    let d := (umad small cfg).after (umad small cfg).init twoServed
    ∑ q ∈ ({1, 2} : Finset Int), (d.memory q).length = 3 ∧
      ∑ q ∈ ({1, 2} : Finset Int), (llamaDecode d.memory (d.batch cfg) (choosing 1) q).length = 5 ∧
      ∑ q ∈ ({1, 2} : Finset Int), (llamaDecode d.memory (d.batch cfg) (choosing 1) q).length ≤
        cfg.maxSessions * (cfg.maxPromptBytes + cfg.maxTokens + 1) := by
  intro cfg d
  have hr : (umad small cfg).Reach (Polite SessionState.busyOrErrored) d :=
    Lib.System.Reach.init.run (by decide +kernel)
  have hP : ∀ text : Bytes, text.length ≤ cfg.maxPromptBytes →
      (small.vocab.tokens text true true).length ≤ cfg.maxPromptBytes := by
    intro text ht
    exact (List.length_map _).trans_le ht
  exact ⟨by decide +kernel, by decide +kernel, (kv_capacity hP hr {1, 2} (choosing 1)).2.2⟩

end Holds
end UmaServe

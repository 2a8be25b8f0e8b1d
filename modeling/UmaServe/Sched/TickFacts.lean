/-
What one tick does, session by session (`tick_cases`), and the fds it
returns (`tick_resultFds`). Everything later proved about a tick is proved
from these and from `UmaServe.Sched.MemoryFacts`.
-/
import UmaServe.Sched.EnactFacts

namespace UmaServe

/-- What a sample does to its session. -/
def ClientSession.sampled (s : ClientSession) (pf : Platform) (cfg : RuntimeConfig) (nowNs : Nat) (out : Decoded)
    (sm : SampleRef) : ClientSession :=
  match out.rows sm.batchIndex with
  | none => s
  | some row =>
    let newId := sampleRow pf out s sm.batchIndex row
    if sm.stateBefore = .prefill then s.prefillSampled pf.vocab nowNs newId
    else if s.atEnd cfg pf.vocab newId then s.finish cfg nowNs newId
    else s.decodeSampled pf.vocab nowNs newId

/-- A sample that ends its response. -/
def SampleRef.Ends (sm : SampleRef) (pf : Platform) (cfg : RuntimeConfig) (out : Decoded) (s : ClientSession) : Prop :=
  ∃ row, out.rows sm.batchIndex = some row ∧ sm.stateBefore ≠ .prefill ∧
    s.atEnd cfg pf.vocab (sampleRow pf out s sm.batchIndex row) = true

/-! ## The outcomes, field by field -/

/-- The events a sampled token appends: its piece, unless it is empty. -/
def pieceEvents (vocab : Vocab) (id : Bytes) (t : Token) : List Event :=
  let piece := tokenToPieceStr vocab t true
  if piece.isEmpty then [] else [.token id piece t]

section Fields

variable {s : ClientSession} {vocab : Vocab} {cfg : RuntimeConfig} {nowNs : Nat} {t : Token} {it : BatchItem}

@[simp] theorem enacted_fd : (s.enacted it).fd = s.fd := by unfold ClientSession.enacted; split <;> rfl
@[simp] theorem enacted_rx : (s.enacted it).rx = s.rx := by unfold ClientSession.enacted; split <;> rfl
@[simp] theorem enacted_readClosed : (s.enacted it).readClosed = s.readClosed := by
  unfold ClientSession.enacted; split <;> rfl
@[simp] theorem enacted_seq : (s.enacted it).seq = s.seq := by unfold ClientSession.enacted; split <;> rfl
@[simp] theorem enacted_tx : (s.enacted it).tx = s.tx := by unfold ClientSession.enacted; split <;> rfl
@[simp] theorem enacted_state : (s.enacted it).state = s.state := by unfold ClientSession.enacted; split <;> rfl
@[simp] theorem enacted_hist : (s.enacted it).hist = s.hist := by unfold ClientSession.enacted; split <;> rfl
@[simp] theorem enacted_promptTokens : (s.enacted it).promptTokens = s.promptTokens := by
  unfold ClientSession.enacted; split <;> rfl
@[simp] theorem enacted_generatedCount : (s.enacted it).generatedCount = s.generatedCount := by
  unfold ClientSession.enacted; split <;> rfl
@[simp] theorem enacted_requestId : (s.enacted it).requestId = s.requestId := by
  unfold ClientSession.enacted; split <;> rfl
@[simp] theorem enacted_temperature : (s.enacted it).temperature = s.temperature := by
  unfold ClientSession.enacted; split <;> rfl

@[simp] theorem enacted_samplingParams : (s.enacted it).samplingParams = s.samplingParams := by
  unfold ClientSession.enacted; split <;> rfl

theorem emitPiece_eq : s.emitPiece vocab t =
    { s with
      tx := (pieceEvents vocab s.requestId t).foldl Event.append s.tx
      hist := { events := s.hist.events ++ pieceEvents vocab s.requestId t
                window := { s.hist.window with
                  events := s.hist.window.events ++ pieceEvents vocab s.requestId t } } } := by
  unfold ClientSession.emitPiece pieceEvents
  dsimp only
  split
  · simp
  · rfl

theorem prefillSampled_eq : s.prefillSampled vocab nowNs t =
    { s with
      tx := (pieceEvents vocab s.requestId t).foldl Event.append s.tx
      pendingTok := t
      hasPendingTok := true
      state := .decode
      firstEmitNs := if s.firstEmitNs = 0 then nowNs else s.firstEmitNs
      lastEmitNs := nowNs
      hist := { events := s.hist.events ++ pieceEvents vocab s.requestId t
                window := { s.hist.window with
                  events := s.hist.window.events ++ pieceEvents vocab s.requestId t
                  fed := s.promptTokens.take s.prefillIdx
                  sampled := s.hist.window.sampled ++ [t] } } } := by
  unfold ClientSession.prefillSampled
  dsimp only
  rw [emitPiece_eq]
  rfl

theorem decodeSampled_eq : s.decodeSampled vocab nowNs t =
    { s with
      tx := (pieceEvents vocab s.requestId t).foldl Event.append s.tx
      generatedCount := s.generatedCount + 1
      pendingTok := t
      hasPendingTok := true
      nPast := s.nPast + 1
      state := .decode
      firstEmitNs := if s.firstEmitNs = 0 then nowNs else s.firstEmitNs
      lastEmitNs := nowNs
      hist := { events := s.hist.events ++ pieceEvents vocab s.requestId t
                window := { s.hist.window with
                  events := s.hist.window.events ++ pieceEvents vocab s.requestId t
                  sampled := s.hist.window.sampled ++ [t] } } } := by
  unfold ClientSession.decodeSampled
  dsimp only
  rw [emitPiece_eq]
  rfl

/-- The event that ends a generation. -/
def eosEvent (cfg : RuntimeConfig) (s : ClientSession) : Event :=
  .eos s.requestId (if cfg.maxTokens ≤ s.generatedCount then bytes "length" else bytes "stop")

theorem finish_eq : s.finish cfg nowNs t =
    { s with
      tx := (eosEvent cfg s).append s.tx
      state := .stream
      nPast := 0
      firstEmitNs := if s.firstEmitNs = 0 then nowNs else s.firstEmitNs
      lastEmitNs := nowNs
      hist := { events := s.hist.events ++ [eosEvent cfg s]
                window := { s.hist.window with
                  events := s.hist.window.events ++ [eosEvent cfg s]
                  sampled := s.hist.window.sampled ++ [t] } } } := rfl

end Fields

/-! ## The loops over the samples -/

section Loops

variable {pf : Platform} {cfg : RuntimeConfig} {nowNs : Nat} {out : Decoded} {samples : List SampleRef}

theorem failOne_view (p : SessionPool) (sm : SampleRef) (k : Int) (hne : k ≠ sm.fd) :
    (failOne p sm).lookup k = p.lookup k := by
  unfold failOne
  split
  · rfl
  · exact AList.lookup_replace_ne hne

theorem failOne_view_self (p : SessionPool) (sm : SampleRef) :
    (failOne p sm).lookup sm.fd = (p.lookup sm.fd).map ClientSession.decodeFailed := by
  unfold failOne
  cases hl : p.lookup sm.fd with
  | none => exact hl
  | some s => exact AList.lookup_replace_self hl

theorem sampleOne_sessions (a : Sampling) (sm : SampleRef) {s : ClientSession} (hl : a.sessions.lookup sm.fd = some s)
    {row : Nat → ℚ} (hr : out.rows sm.batchIndex = some row) :
    (sampleOne pf cfg nowNs out a sm).sessions = a.sessions.replace sm.fd (s.sampled pf cfg nowNs out sm) := by
  simp only [sampleOne, hl, hr, ClientSession.sampled]
  split
  · rfl
  · split <;> rfl

theorem sampleOne_skip (a : Sampling) (sm : SampleRef)
    (h : a.sessions.lookup sm.fd = none ∨ out.rows sm.batchIndex = none) :
    sampleOne pf cfg nowNs out a sm = a := by
  unfold sampleOne
  split
  · rfl
  next s hs =>
    split
    · rfl
    next row hrow =>
      rw [hs, hrow] at h
      simp at h

theorem sampleOne_view (a : Sampling) (sm : SampleRef) (k : Int) (hne : k ≠ sm.fd) :
    (sampleOne pf cfg nowNs out a sm).sessions.lookup k = a.sessions.lookup k := by
  cases hl : a.sessions.lookup sm.fd with
  | none => rw [sampleOne_skip a sm (.inl hl)]
  | some s =>
    cases hr : out.rows sm.batchIndex with
    | none => rw [sampleOne_skip a sm (.inr hr)]
    | some row => rw [sampleOne_sessions a sm hl hr]; exact AList.lookup_replace_ne hne

theorem sampleOne_view_self (a : Sampling) (sm : SampleRef) :
    (sampleOne pf cfg nowNs out a sm).sessions.lookup sm.fd =
      (a.sessions.lookup sm.fd).map fun s => s.sampled pf cfg nowNs out sm := by
  cases hl : a.sessions.lookup sm.fd with
  | none => rw [sampleOne_skip a sm (.inl hl), hl]; rfl
  | some s =>
    cases hr : out.rows sm.batchIndex with
    | none => rw [sampleOne_skip a sm (.inr hr), hl]; simp [ClientSession.sampled, hr]
    | some row => rw [sampleOne_sessions a sm hl hr]; exact AList.lookup_replace_self hl

theorem foldl_failOne_lookup {p : SessionPool} (hn : (samples.map SampleRef.fd).Nodup) {sm : SampleRef}
    (hsm : sm ∈ samples) :
    (samples.foldl failOne p).lookup sm.fd = (p.lookup sm.fd).map ClientSession.decodeFailed :=
  Lib.foldl_local (fun (p : SessionPool) k => p.lookup k) (g := fun _ => Option.map ClientSession.decodeFailed)
    failOne_view failOne_view_self hn hsm

theorem foldl_sampleOne_lookup {a : Sampling} (hn : (samples.map SampleRef.fd).Nodup) {sm : SampleRef}
    (hsm : sm ∈ samples) :
    (samples.foldl (sampleOne pf cfg nowNs out) a).sessions.lookup sm.fd =
      (a.sessions.lookup sm.fd).map fun s => s.sampled pf cfg nowNs out sm :=
  Lib.foldl_local (fun (a : Sampling) k => a.sessions.lookup k)
    (g := fun sm => Option.map fun s => s.sampled pf cfg nowNs out sm) sampleOne_view sampleOne_view_self hn hsm

theorem sampleOne_memory_ends (a : Sampling) (sm : SampleRef) {s : ClientSession}
    (hl : a.sessions.lookup sm.fd = some s) (he : sm.Ends pf cfg out s) :
    (sampleOne pf cfg nowNs out a sm).memory = a.memory.seqRm s.seq := by
  obtain ⟨row, hr, hst, hend⟩ := he
  simp [sampleOne, hl, hr, hst, hend]

theorem sampleOne_memory_keep (a : Sampling) (sm : SampleRef)
    (h : ∀ s, a.sessions.lookup sm.fd = some s → ¬ sm.Ends pf cfg out s) :
    (sampleOne pf cfg nowNs out a sm).memory = a.memory := by
  unfold sampleOne
  split
  · rfl
  next s hs =>
    split
    · rfl
    next row hrow =>
      dsimp only
      split
      · rfl
      next hst =>
        split
        next hend => exact absurd ⟨row, hrow, hst, hend⟩ (h s hs)
        next => rfl

theorem foldl_sampleOne_memory {a : Sampling} {q : Int} (hn : (samples.map SampleRef.fd).Nodup)
    (h : ∀ sm ∈ samples, ∀ s, a.sessions.lookup sm.fd = some s → sm.Ends pf cfg out s → s.seq ≠ q) :
    (samples.foldl (sampleOne pf cfg nowNs out) a).memory q = a.memory q := by
  induction samples generalizing a with
  | nil => rfl
  | cons sm samples ih =>
    rw [List.map_cons, List.nodup_cons] at hn
    rw [List.foldl_cons, ih hn.2]
    · by_cases he : ∃ s, a.sessions.lookup sm.fd = some s ∧ sm.Ends pf cfg out s
      · obtain ⟨s, hs, he⟩ := he
        rw [sampleOne_memory_ends a sm hs he, seqRm_ne]
        exact (h sm List.mem_cons_self s hs he).symm
      · rw [sampleOne_memory_keep a sm fun s hs he' => he ⟨s, hs, he'⟩]
    · intro sm' hsm' s hs
      rw [sampleOne_view a sm sm'.fd fun he => hn.1 (he ▸ List.mem_map_of_mem hsm')] at hs
      exact h sm' (List.mem_cons_of_mem _ hsm') s hs

theorem foldl_sampleOne_memory_nil {a : Sampling} {q : Int} (h : a.memory q = []) :
    (samples.foldl (sampleOne pf cfg nowNs out) a).memory q = [] := by
  induction samples generalizing a with
  | nil => exact h
  | cons sm samples ih =>
    refine ih ?_
    by_cases he : ∃ s, a.sessions.lookup sm.fd = some s ∧ sm.Ends pf cfg out s
    · obtain ⟨s, hs, he⟩ := he
      rw [sampleOne_memory_ends a sm hs he]
      simp only [Memory.seqRm]
      split
      · rfl
      · exact h
    · rw [sampleOne_memory_keep a sm fun s hs he' => he ⟨s, hs, he'⟩]; exact h

theorem foldl_sampleOne_memory_ends {a : Sampling} (hn : (samples.map SampleRef.fd).Nodup) {sm : SampleRef}
    (hsm : sm ∈ samples) {s : ClientSession} (hs : a.sessions.lookup sm.fd = some s) (he : sm.Ends pf cfg out s) :
    (samples.foldl (sampleOne pf cfg nowNs out) a).memory s.seq = [] := by
  induction samples generalizing a with
  | nil => cases hsm
  | cons sm' samples ih =>
    rw [List.map_cons, List.nodup_cons] at hn
    rw [List.foldl_cons]
    rcases List.mem_cons.mp hsm with rfl | hsm
    · exact foldl_sampleOne_memory_nil (by rw [sampleOne_memory_ends a _ hs he, seqRm_self])
    · refine ih hn.2 hsm ?_
      rw [sampleOne_view a sm' sm.fd fun h => hn.1 (h ▸ List.mem_map_of_mem hsm)]
      exact hs

theorem sampleOne_resultFds_mono (a : Sampling) (sm : SampleRef) {fd : Int} (h : fd ∈ a.resultFds) :
    fd ∈ (sampleOne pf cfg nowNs out a sm).resultFds := by
  unfold sampleOne
  split
  · exact h
  · split
    · exact h
    · dsimp only
      split
      · dsimp only; split <;> simp [h]
      · split <;> (dsimp only; split <;> simp [h])

theorem foldl_sampleOne_resultFds_mono {a : Sampling} {fd : Int} (h : fd ∈ a.resultFds) :
    fd ∈ (samples.foldl (sampleOne pf cfg nowNs out) a).resultFds := by
  induction samples generalizing a with
  | nil => exact h
  | cons sm samples ih => exact ih (sampleOne_resultFds_mono a sm h)

theorem sampleOne_resultFds (a : Sampling) (sm : SampleRef) {s : ClientSession} {row : Nat → ℚ}
    (hl : a.sessions.lookup sm.fd = some s) (hr : out.rows sm.batchIndex = some row) (htx : s.tx = []) :
    s.fd ∈ (sampleOne pf cfg nowNs out a sm).resultFds := by
  simp only [sampleOne, hl, hr, htx, List.isEmpty_nil, if_true]
  split
  · simp
  · split <;> simp

theorem foldl_sampleOne_resultFds {a : Sampling} (hn : (samples.map SampleRef.fd).Nodup) {sm : SampleRef}
    (hsm : sm ∈ samples) {s : ClientSession} {row : Nat → ℚ} (hs : a.sessions.lookup sm.fd = some s)
    (hr : out.rows sm.batchIndex = some row) (htx : s.tx = []) :
    s.fd ∈ (samples.foldl (sampleOne pf cfg nowNs out) a).resultFds := by
  induction samples generalizing a with
  | nil => cases hsm
  | cons sm' samples ih =>
    rw [List.map_cons, List.nodup_cons] at hn
    rw [List.foldl_cons]
    rcases List.mem_cons.mp hsm with rfl | hsm
    · exact foldl_sampleOne_resultFds_mono (sampleOne_resultFds a _ hs hr htx)
    · refine ih hn.2 hsm ?_
      rw [sampleOne_view a sm' sm.fd fun h => hn.1 (h ▸ List.mem_map_of_mem hsm)]
      exact hs

end Loops

/-! ## The tick -/

section Tick

variable {pf : Platform} {cfg : RuntimeConfig} {sched : Scheduler} {sessions : SessionPool} {mem : Memory}
  {nowNs : Nat} {out : Decoded} {fd : Int} {s : ClientSession} {before : List BatchItem} {it : BatchItem}

/-- The items of the tick's plan. -/
abbrev Scheduler.items (sched : Scheduler) (cfg : RuntimeConfig) (sessions : SessionPool) : List BatchItem :=
  (sched.plan cfg sessions).items

/-- The rows of the tick's batch. -/
abbrev Scheduler.batchRows (sched : Scheduler) (cfg : RuntimeConfig) (sessions : SessionPool) : List Row :=
  planRows sessions (sched.items cfg sessions)

/-- What a tick does to a session that has a row in the batch, the last of
its rows at index `i`. -/
inductive Served (pf : Platform) (cfg : RuntimeConfig) (nowNs : Nat) (out : Decoded) (s : ClientSession)
    (it : BatchItem) (i : Nat) : ClientSession → Prop
  /-- `llama_decode` failed. -/
  | failed : out.rc ≠ 0 → Served pf cfg nowNs out s it i (s.enacted it).decodeFailed
  /-- There is no logits row. -/
  | noRow : out.rc = 0 → out.rows i = none → Served pf cfg nowNs out s it i (s.enacted it)
  /-- The first token of a response. -/
  | first {row : Nat → ℚ} : out.rc = 0 → out.rows i = some row → it.phase = .prefill →
      Served pf cfg nowNs out s it i
        ((s.enacted it).prefillSampled pf.vocab nowNs (sampleRow pf out (s.enacted it) i row))
  /-- The end of a response. -/
  | ended {row : Nat → ℚ} : out.rc = 0 → out.rows i = some row → it.phase = .decode →
      (s.enacted it).atEnd cfg pf.vocab (sampleRow pf out (s.enacted it) i row) = true →
      Served pf cfg nowNs out s it i ((s.enacted it).finish cfg nowNs (sampleRow pf out (s.enacted it) i row))
  /-- One more token. -/
  | more {row : Nat → ℚ} : out.rc = 0 → out.rows i = some row → it.phase = .decode →
      (s.enacted it).atEnd cfg pf.vocab (sampleRow pf out (s.enacted it) i row) = false →
      Served pf cfg nowNs out s it i
        ((s.enacted it).decodeSampled pf.vocab nowNs (sampleRow pf out (s.enacted it) i row))

theorem itemRows_eq_nil {it : BatchItem} (h : ItemOk sessions it) (hs : sessions.lookup it.fd = some s) :
    itemRows s it = [] ↔ it.phase = .prefill ∧ it.nTokens = 0 := by
  obtain ⟨s', hs', hm⟩ := h
  rw [hs] at hs'
  cases hs'
  cases hph : it.phase with
  | decode => simp [itemRows, hph]
  | prefill =>
    rw [hph] at hm
    have h0 := hm.2.1
    simp only [itemRows, hph, List.map_eq_nil_iff, List.range_eq_nil, true_and]
    omega

theorem enacted_eq_self (hph : it.phase = .prefill) (h0 : it.nTokens = 0) : s.enacted it = s := by
  simp [ClientSession.enacted, hph, h0]

theorem tick_samples (hk : Keyed sessions) :
    (enact sessions (sched.items cfg sessions)).samples = planSamples sessions 0 (sched.items cfg sessions) :=
  enact_samples (plan_ok hk sched cfg).nodup

theorem tick_samples_nodup (hk : Keyed sessions) :
    ((enact sessions (sched.items cfg sessions)).samples.map SampleRef.fd).Nodup := by
  rw [tick_samples hk]
  exact planSamples_nodup hk (plan_ok hk sched cfg).nodup

/-- No row in the batch: nothing changes but the cursors. -/
theorem tick_empty (pf : Platform) (mem : Memory) (nowNs : Nat) (out : Decoded) (hk : Keyed sessions)
    (h : sched.batchRows cfg sessions = []) :
    (sched.tick pf cfg sessions mem nowNs out).sessions = (enact sessions (sched.items cfg sessions)).sessions ∧
      (sched.tick pf cfg sessions mem nowNs out).memory = mem ∧
      (sched.tick pf cfg sessions mem nowNs out).resultFds = [] := by
  have he : (enact sessions (sched.plan cfg sessions).items).batch.tokens.isEmpty = true := by
    have h' : planRows sessions (sched.plan cfg sessions).items = [] := h
    rw [enact_batch (plan_ok hk sched cfg).nodup, h']; rfl
  simp only [Scheduler.tick, he, if_true, and_self]

theorem tick_failed (pf : Platform) (mem : Memory) (nowNs : Nat) (hk : Keyed sessions)
    (h : sched.batchRows cfg sessions ≠ []) (hrc : out.rc ≠ 0) :
    (sched.tick pf cfg sessions mem nowNs out).sessions =
        (enact sessions (sched.items cfg sessions)).samples.foldl failOne
          (enact sessions (sched.items cfg sessions)).sessions ∧
      (sched.tick pf cfg sessions mem nowNs out).memory =
        llamaDecode mem (enact sessions (sched.items cfg sessions)).batch out ∧
      (sched.tick pf cfg sessions mem nowNs out).resultFds = [] := by
  have he : (enact sessions (sched.plan cfg sessions).items).batch.tokens.isEmpty = false := by
    rw [enact_batch (plan_ok hk sched cfg).nodup]
    simpa [Batch.ofRows] using h
  simp only [Scheduler.tick, he, Bool.false_eq_true, if_false, if_pos hrc, and_self]

/-- The loop over the samples, as the tick starts it. -/
theorem tick_sampled (pf : Platform) (mem : Memory) (nowNs : Nat) (hk : Keyed sessions)
    (h : sched.batchRows cfg sessions ≠ []) (hrc : out.rc = 0) :
    ∃ m : Metrics,
      let a := (enact sessions (sched.items cfg sessions)).samples.foldl (sampleOne pf cfg nowNs out)
        { sessions := (enact sessions (sched.items cfg sessions)).sessions
          memory := mem.append (enact sessions (sched.items cfg sessions)).batch.rows, metrics := m }
      (sched.tick pf cfg sessions mem nowNs out).sessions = a.sessions ∧
        (sched.tick pf cfg sessions mem nowNs out).memory = a.memory ∧
        (sched.tick pf cfg sessions mem nowNs out).resultFds = a.resultFds := by
  have he : (enact sessions (sched.plan cfg sessions).items).batch.tokens.isEmpty = false := by
    rw [enact_batch (plan_ok hk sched cfg).nodup]
    simpa [Batch.ofRows] using h
  have hnot : ¬ (out.rc ≠ 0) := fun hne => hne hrc
  simp only [Scheduler.tick, he, Bool.false_eq_true, if_false, if_neg hnot, llamaDecode, if_pos hrc]
  exact ⟨_, rfl, rfl, rfl⟩

theorem Serves.batch_ne (h : Serves sessions (sched.items cfg sessions) fd s before it) :
    sched.batchRows cfg sessions ≠ [] := by
  obtain ⟨after, -, hrows⟩ := h.rows_eq
  intro hnil
  have h' : planRows sessions (sched.items cfg sessions) = [] := hnil
  rw [hrows] at h'
  simp only [List.append_eq_nil_iff] at h'
  exact h.rows_ne h'.1.2

theorem Serves.enact (hk : Keyed sessions) (h : Serves sessions (sched.items cfg sessions) fd s before it) :
    (UmaServe.enact sessions (sched.items cfg sessions)).sessions.lookup fd = some (s.enacted it) := by
  rw [← h.fd_eq, enact_lookup (plan_ok hk sched cfg).nodup h.mem, h.item_lookup]
  rfl

theorem Serves.sample (hk : Keyed sessions) (h : Serves sessions (sched.items cfg sessions) fd s before it) :
    ⟨fd, sampleIndex sessions before s it, it.phase.state⟩ ∈
      (UmaServe.enact sessions (sched.items cfg sessions)).samples := by
  rw [tick_samples hk, ← hk fd s h.lookup]
  exact h.sample_mem

theorem served_of_sampled (fd : Int) {i : Nat} (hrc : out.rc = 0) :
    Served pf cfg nowNs out s it i ((s.enacted it).sampled pf cfg nowNs out ⟨fd, i, it.phase.state⟩) := by
  cases hr : out.rows i with
  | none => simp only [ClientSession.sampled, hr]; exact .noRow hrc hr
  | some row =>
    cases hph : it.phase with
    | prefill => simpa [ClientSession.sampled, hr, Phase.state] using Served.first hrc hr hph
    | decode =>
      cases hend : (s.enacted it).atEnd cfg pf.vocab (sampleRow pf out (s.enacted it) i row) with
      | true => simpa [ClientSession.sampled, hr, Phase.state, hend] using Served.ended hrc hr hph hend
      | false => simpa [ClientSession.sampled, hr, Phase.state, hend] using Served.more hrc hr hph hend

/-- A session with a row in the batch is served. -/
theorem tick_served (pf : Platform) (mem : Memory) (nowNs : Nat) (out : Decoded) (hk : Keyed sessions)
    (h : Serves sessions (sched.items cfg sessions) fd s before it) :
    ∃ s', (sched.tick pf cfg sessions mem nowNs out).sessions.lookup fd = some s' ∧
      Served pf cfg nowNs out s it (sampleIndex sessions before s it) s' := by
  by_cases hrc : out.rc = 0
  · obtain ⟨m, hs, -, -⟩ := tick_sampled pf mem nowNs hk h.batch_ne hrc
    refine ⟨_, ?_, served_of_sampled fd hrc⟩
    rw [hs]
    refine (foldl_sampleOne_lookup (tick_samples_nodup hk) (h.sample hk)).trans ?_
    simp only [h.enact hk, Option.map_some]
  · obtain ⟨hs, -, -⟩ := tick_failed pf mem nowNs hk h.batch_ne hrc
    refine ⟨_, ?_, .failed hrc⟩
    rw [hs]
    refine (foldl_failOne_lookup (tick_samples_nodup hk) (h.sample hk)).trans ?_
    simp only [h.enact hk, Option.map_some]

theorem tick_idle (hk : Keyed sessions)
    (h : ∀ it ∈ sched.items cfg sessions, it.fd = fd → ∀ s, sessions.lookup fd = some s → itemRows s it = []) :
    (sched.tick pf cfg sessions mem nowNs out).sessions.lookup fd = sessions.lookup fd := by
  have hplan := plan_ok hk sched cfg
  -- The enact loop: no item, or one with an empty chunk.
  have henact : (UmaServe.enact sessions (sched.items cfg sessions)).sessions.lookup fd = sessions.lookup fd := by
    by_cases hit : ∃ it ∈ sched.items cfg sessions, it.fd = fd
    · obtain ⟨it, hit, rfl⟩ := hit
      rw [enact_lookup hplan.nodup hit]
      cases hs : sessions.lookup it.fd with
      | none => rfl
      | some s =>
        obtain ⟨hph, h0⟩ := (itemRows_eq_nil (hplan.ready it hit) hs).mp (h it hit rfl s hs)
        rw [Option.map_some, enacted_eq_self hph h0]
    · exact enact_lookup_other fun it hit' he => hit ⟨it, hit', he⟩
  -- No sample is its.
  have hsamples : ∀ sm ∈ (UmaServe.enact sessions (sched.items cfg sessions)).samples, sm.fd ≠ fd := by
    intro sm hsm he
    rw [tick_samples hk] at hsm
    obtain ⟨it, hit, s, hs, hne, hfd⟩ := mem_planSamples hsm
    have hfd' : it.fd = fd := by rw [← he, hfd]; exact (hk _ _ hs).symm
    rw [hfd'] at hs
    exact hne (h it hit hfd' s hs)
  by_cases hrows : sched.batchRows cfg sessions = []
  · rw [(tick_empty pf mem nowNs out hk hrows).1, henact]
  by_cases hrc : out.rc = 0
  · obtain ⟨m, hs, -, -⟩ := tick_sampled pf mem nowNs hk hrows hrc
    rw [hs, ← henact]
    exact Lib.foldl_frame (fun (a : Sampling) k => a.sessions.lookup k) sampleOne_view hsamples
  · rw [(tick_failed pf mem nowNs hk hrows hrc).1, ← henact]
    exact Lib.foldl_frame (fun (p : SessionPool) k => p.lookup k) failOne_view hsamples

/-- **A tick, session by session**: a session in the pool after it was there
before it, and either had no row in the batch and is as it was, or had one
and was served. -/
theorem tick_cases (hk : Keyed sessions) {s' : ClientSession}
    (h : (sched.tick pf cfg sessions mem nowNs out).sessions.lookup fd = some s') :
    ∃ s, sessions.lookup fd = some s ∧
      ((s' = s ∧ ∀ it ∈ sched.items cfg sessions, it.fd = fd → itemRows s it = []) ∨
        ∃ before it, Serves sessions (sched.items cfg sessions) fd s before it ∧
          Served pf cfg nowNs out s it (sampleIndex sessions before s it) s') := by
  by_cases hidle : ∀ it ∈ sched.items cfg sessions, it.fd = fd → ∀ s, sessions.lookup fd = some s → itemRows s it = []
  · rw [tick_idle hk hidle] at h
    exact ⟨s', h, .inl ⟨rfl, fun it hit hfd => hidle it hit hfd s' h⟩⟩
  · push Not at hidle
    obtain ⟨it, hit, rfl, s, hs, hne⟩ := hidle
    obtain ⟨before, hserves⟩ := exists_serves hit hs hne
    obtain ⟨s'', hs'', hserved⟩ := tick_served pf mem nowNs out hk hserves
    rw [h] at hs''
    cases hs''
    exact ⟨s, hs, .inr ⟨before, it, hserves, hserved⟩⟩

/-- The same for a session that was there before. -/
theorem tick_session (hk : Keyed sessions) {s' : ClientSession} (hs : sessions.lookup fd = some s)
    (hs' : (sched.tick pf cfg sessions mem nowNs out).sessions.lookup fd = some s') :
    (s' = s ∧ ∀ it ∈ sched.items cfg sessions, it.fd = fd → itemRows s it = []) ∨
      ∃ before it, Serves sessions (sched.items cfg sessions) fd s before it ∧
        Served pf cfg nowNs out s it (sampleIndex sessions before s it) s' := by
  obtain ⟨s₀, hs₀, h⟩ := tick_cases hk hs'
  obtain rfl : s = s₀ := Option.some.inj (hs.symm.trans hs₀)
  exact h

theorem tick_lookup_isSome (pf : Platform) (cfg : RuntimeConfig) (mem : Memory) (nowNs : Nat) (out : Decoded)
    (hk : Keyed sessions) (hs : sessions.lookup fd = some s) :
    ∃ s', (sched.tick pf cfg sessions mem nowNs out).sessions.lookup fd = some s' := by
  by_cases hidle : ∀ it ∈ sched.items cfg sessions, it.fd = fd → ∀ s, sessions.lookup fd = some s → itemRows s it = []
  · exact ⟨s, by rw [tick_idle hk hidle, hs]⟩
  · push Not at hidle
    obtain ⟨it, hit, rfl, s, hs, hne⟩ := hidle
    obtain ⟨before, hserves⟩ := exists_serves hit hs hne
    obtain ⟨s', hs', -⟩ := tick_served pf mem nowNs out hk hserves
    exact ⟨s', hs'⟩

theorem tick_resultFds (hk : Keyed sessions) (h : Serves sessions (sched.items cfg sessions) fd s before it)
    (hrc : out.rc = 0) {row : Nat → ℚ} (hr : out.rows (sampleIndex sessions before s it) = some row) (htx : s.tx = []) :
    fd ∈ (sched.tick pf cfg sessions mem nowNs out).resultFds := by
  obtain ⟨m, -, -, hres⟩ := tick_sampled pf mem nowNs hk h.batch_ne hrc
  have hfd : (s.enacted it).fd = fd := by rw [enacted_fd]; exact hk fd s h.lookup
  rw [hres, ← hfd]
  exact foldl_sampleOne_resultFds (tick_samples_nodup hk) (h.sample hk) (h.enact hk) hr (by simpa using htx)

end Tick
end UmaServe

/-
`sched/scheduler.cpp`: `Scheduler::tick`.

What the calls into llama.cpp return is an argument of the tick (`Decoded`),
as is what the platform's floating point makes of the batch target
(`Platform.shrink`); the elapsed time and its moving average are exact. The
pointers of `seq_ids` are indices into `seq_id_vals`.
-/
import Mathlib.Data.List.AList
import UmaServe.Ipc.SessionManager
import UmaServe.Sched.Bmt
import UmaServe.Sched.Metrics
import UmaServe.Sched.Sampling

namespace UmaServe

/-- The parts of the platform the daemon runs on. -/
structure Platform where
  vocab : Vocab
  /-- `llama_n_batch` of the context. -/
  nBatch : Int
  /-- `std::exp`. -/
  exp : ℚ → ℚ
  /-- `(int32_t)(target_batch_ * 0.7)`. -/
  shrink : Int → Int
  /-- The counters of the debug snapshot. -/
  debugMetrics : Metrics → Nat → DebugMetrics := fun _ _ => {}
  /-- The log level is `Debug`. -/
  debug : Bool := false

/-- The snapshot a metrics request is answered with, given the number of active
sessions. -/
def Platform.metricsJson (pf : Platform) (m : Metrics) (activeSessions : Nat) : Bytes :=
  m.toJson (pf.debugMetrics m activeSessions) activeSessions pf.debug

/-- One call of `llama_decode` and what follows from it. -/
structure Decoded where
  rc : Int := 0
  /-- The measured duration. -/
  durNs : Nat := 0
  /-- `llama_get_logits_ith`. -/
  rows : Nat → Option (Nat → ℚ)
  /-- Which rows a failed call leaves in the memory. -/
  stays : Nat → Bool := fun _ => false
  /-- The sampler's sort and draw for a row. -/
  idx : Nat → List Nat := fun _ => []
  draw : Nat → ℚ := fun _ => 0

/-- The arrays of the batch, in lockstep. -/
structure Batch where
  tokens : List Token := []
  nSeqId : List Nat := []
  seqIdVals : List Int := []
  seqIds : List Nat := []
  logits : List Bool := []
  pos : List Int := []
  deriving DecidableEq

def Batch.push (b : Batch) (t : Token) (seq pos : Int) (lg : Bool) : Batch where
  tokens := b.tokens ++ [t]
  nSeqId := b.nSeqId ++ [1]
  seqIdVals := b.seqIdVals ++ [seq]
  seqIds := b.seqIds ++ [(b.seqIdVals ++ [seq]).length - 1]
  logits := b.logits ++ [lg]
  pos := b.pos ++ [pos]

/-- The rows of the batch as llama.cpp sees them: sequence and token. -/
def Batch.rows (b : Batch) : List (Int × Token) :=
  (b.seqIds.map fun i => b.seqIdVals.getD i 0).zip b.tokens

structure SampleRef where
  fd : Int
  batchIndex : Nat
  stateBefore : SessionState
  deriving DecidableEq

/-- The sessions, the batch and the samples while a plan is enacted. -/
structure Enacted where
  sessions : SessionPool
  batch : Batch := {}
  samples : List SampleRef := []

/-- The session, batch and samples while one chunk is enacted. -/
structure ChunkRows where
  session : ClientSession
  batch : Batch
  samples : List SampleRef

/-- One turn of the loop over a prefill chunk. -/
def prefillRow (chunk basePos : Int) (c : ChunkRows) (j : Nat) : ChunkRows :=
  let s := c.session
  let t := s.promptTokens.getD s.prefillIdx 0
  let lg : Bool := (j : Int) = chunk - 1
  let batch := c.batch.push t s.seq (basePos + j) lg
  { session := { s with prefillIdx := s.prefillIdx + 1 }
    batch
    samples := if lg then c.samples ++ [⟨s.fd, batch.tokens.length - 1, .prefill⟩] else c.samples }

/-- One turn of the loop that enacts the plan. -/
def enactItem (e : Enacted) (item : BatchItem) : Enacted :=
  match e.sessions.lookup item.fd with
  | none => e
  | some s =>
    match item.phase with
    | .decode =>
      let batch := e.batch.push s.pendingTok s.seq s.nPast true
      { sessions := e.sessions.replace item.fd { s with hasPendingTok := false }
        batch
        samples := e.samples ++ [⟨s.fd, batch.tokens.length - 1, .decode⟩] }
    | .prefill =>
      let chunk := item.nTokens
      let basePos := s.nPast
      let c := (List.range chunk.toNat).foldl (prefillRow chunk basePos) ⟨s, e.batch, e.samples⟩
      { sessions := e.sessions.replace item.fd { c.session with nPast := basePos + chunk }
        batch := c.batch
        samples := c.samples }

def enact (sessions : SessionPool) (items : List BatchItem) : Enacted :=
  items.foldl enactItem { sessions }

/-- The memory after `llama_decode`: every row on success, and on failure
those that stay. -/
def llamaDecode (mem : Memory) (b : Batch) (out : Decoded) : Memory :=
  if out.rc = 0 then mem.append b.rows
  else mem.append ((b.rows.zipIdx.filter fun r => out.stays r.2).map Prod.fst)

/-! ## What an outcome does to a session -/

namespace ClientSession

/-- `dec_rc != 0`. -/
def decodeFailed (s : ClientSession) : ClientSession :=
  { { s with lastError := bytes "decode error", state := .errored }.emit
      (.error s.requestId (bytes "E_RUNTIME_DECODE") (bytes "decode failed")) with readClosed := true }

/-- A token event for the piece, unless it is empty. -/
def emitPiece (s : ClientSession) (vocab : Vocab) (t : Token) : ClientSession :=
  let piece := tokenToPieceStr vocab t true
  if piece.isEmpty then s else s.emit (.token s.requestId piece t)

/-- `first_emit_ns` and `last_emit_ns`. -/
def stamp (s : ClientSession) (nowNs : Nat) : ClientSession :=
  { s with firstEmitNs := if s.firstEmitNs = 0 then nowNs else s.firstEmitNs, lastEmitNs := nowNs }

/-- The sample at the end of a prefill chunk. -/
def prefillSampled (s : ClientSession) (vocab : Vocab) (nowNs : Nat) (newId : Token) : ClientSession :=
  let s := (s.noteFed).noteSample newId
  let s := { s with pendingTok := newId, hasPendingTok := true, state := .decode }
  (s.emitPiece vocab newId).stamp nowNs

/-- `llama_vocab_is_eog(vocab, new_id) || s.generated_count >= max_tokens`. -/
def atEnd (s : ClientSession) (cfg : RuntimeConfig) (vocab : Vocab) (newId : Token) : Bool :=
  vocab.isEog newId || cfg.maxTokens ≤ s.generatedCount

/-- The end of a generation. -/
def finish (s : ClientSession) (cfg : RuntimeConfig) (nowNs : Nat) (newId : Token) : ClientSession :=
  let s := s.noteSample newId
  let s := s.emit (.eos s.requestId (if cfg.maxTokens ≤ s.generatedCount then bytes "length" else bytes "stop"))
  { s with state := .stream, nPast := 0 }.stamp nowNs

/-- A generated token that goes on. -/
def decodeSampled (s : ClientSession) (vocab : Vocab) (nowNs : Nat) (newId : Token) : ClientSession :=
  let s := s.noteSample newId
  let s := s.emitPiece vocab newId
  { s with
    generatedCount := s.generatedCount + 1
    pendingTok := newId
    hasPendingTok := true
    nPast := s.nPast + 1
    state := .decode }.stamp nowNs

/-- The parameters `tick` passes to the sampler. -/
def samplingParams (s : ClientSession) : SamplingParams :=
  { temperature := s.temperature, topP := s.topP, topK := s.topK }

end ClientSession

/-- What the loop over the samples changes. -/
structure Sampling where
  sessions : SessionPool
  memory : Memory
  metrics : Metrics
  resultFds : List Int := []

/-- One turn of the loop after a failed decode. -/
def failOne (sessions : SessionPool) (sample : SampleRef) : SessionPool :=
  match sessions.lookup sample.fd with
  | none => sessions
  | some s => sessions.replace sample.fd s.decodeFailed

/-- The token sampled for a session from a row. -/
def sampleRow (pf : Platform) (out : Decoded) (s : ClientSession) (i : Nat) (row : Nat → ℚ) : Token :=
  sample pf.exp row pf.vocab.nTokens s.samplingParams (out.idx i) (out.draw i)

/-- One turn of the loop after a successful decode. -/
def sampleOne (pf : Platform) (cfg : RuntimeConfig) (nowNs : Nat) (out : Decoded) (a : Sampling)
    (sm : SampleRef) : Sampling :=
  match a.sessions.lookup sm.fd with
  | none => a
  | some s =>
    match out.rows sm.batchIndex with
    | none => a
    | some row =>
      let newId := sampleRow pf out s sm.batchIndex row
      let resultFds := if s.tx.isEmpty then a.resultFds ++ [s.fd] else a.resultFds
      let generated := { a.metrics with tokensGeneratedTotal := a.metrics.tokensGeneratedTotal + 1 }
      if sm.stateBefore = .prefill then
        { sessions := a.sessions.replace sm.fd (s.prefillSampled pf.vocab nowNs newId)
          memory := a.memory
          metrics := generated
          resultFds }
      else if s.atEnd cfg pf.vocab newId then
        { sessions := a.sessions.replace sm.fd (s.finish cfg nowNs newId)
          memory := a.memory.seqRm s.seq
          metrics := a.metrics
          resultFds }
      else
        { sessions := a.sessions.replace sm.fd (s.decodeSampled pf.vocab nowNs newId)
          memory := a.memory
          metrics := generated
          resultFds }

/-! ## The scheduler -/

structure Scheduler where
  batchCap : Int
  targetBatch : Int
  rrDecodeIdx : Nat := 0
  rrPrefillIdx : Nat := 0
  /-- In exact arithmetic; the `double` of the source rounds. -/
  decodeMsEwma : ℚ := 30
  metrics : Metrics := {}

/-- `tick_budget_ms_`. -/
def tickBudgetMs : ℚ := 30

/-- The constructor. -/
def Scheduler.new (pf : Platform) : Scheduler :=
  { batchCap := pf.nBatch, targetBatch := pf.nBatch, metrics := ({} : Metrics).setDecodeMsEwma tickBudgetMs }

/-- The plan of a tick, after the guard when a budget is configured. -/
def Scheduler.plan (sched : Scheduler) (cfg : RuntimeConfig) (sessions : SessionPool) : Plan :=
  let plan := scheduleTick sessions sched.batchCap sched.targetBatch sched.rrDecodeIdx sched.rrPrefillIdx
  if 0 < cfg.bmtBudgetUnits then (bmtGuard cfg.bmtBudgetUnits sessions plan).1 else plan

/-- What the guard publishes. -/
def Scheduler.guardMetrics (sched : Scheduler) (cfg : RuntimeConfig) (sessions : SessionPool) : Metrics :=
  let plan := scheduleTick sessions sched.batchCap sched.targetBatch sched.rrDecodeIdx sched.rrPrefillIdx
  let m := sched.metrics
  if 0 < cfg.bmtBudgetUnits then
    let (_, est, trimmed) := bmtGuard cfg.bmtBudgetUnits sessions plan
    { m with
      bmtBudgetUnits := cfg.bmtBudgetUnits
      bmtUnitsLast := est
      bmtGuardActive := if trimmed then 1 else 0
      bmtGuardActivations := if trimmed then m.bmtGuardActivations + 1 else m.bmtGuardActivations }
  else m

/-- The counters after a batch of `tot` tokens took `dur` nanoseconds. -/
def Metrics.account (m : Metrics) (tot dur : Nat) (plan : Plan) : Metrics :=
  let genTok := plan.decodeTokCount.toNat
  let pfTok := plan.prefillTokCount.toNat
  let genNs := if 0 < tot then dur * genTok / tot else 0
  let pfNs := if 0 < tot then subU64 dur genNs else 0
  let m := { m with
    batchCallsTotal := m.batchCallsTotal + 1
    lastBatchSize := tot
    decodePhaseTokensTotal := m.decodePhaseTokensTotal + genTok
    prefillTokensTotal := m.prefillTokensTotal + pfTok
    decodeNsTotalGen := m.decodeNsTotalGen + genNs
    prefillNsTotal := m.prefillNsTotal + pfNs }
  if 0 < genTok then
    -- The cast to `uint32_t`.
    let genMs := (genNs + 500000) / 1000000 % 2 ^ 32
    { m with
      decodeMsLast := genMs
      decodeNsTotal := m.decodeNsTotal + genNs
      decodeCalls := m.decodeCalls + 1
      decodeTokensTotal := m.decodeTokensTotal + genTok
      decodeMsMin := if genMs < m.decodeMsMin then genMs else m.decodeMsMin
      decodeMsMax := if m.decodeMsMax < genMs then genMs else m.decodeMsMax }
  else m

/-- The adaptive target, after the moving average was updated. -/
def Scheduler.tune (sched : Scheduler) (pf : Platform) : Scheduler :=
  if 13 / 10 * tickBudgetMs < sched.decodeMsEwma then
    { sched with targetBatch := max 8 (pf.shrink sched.targetBatch) }
  else if sched.decodeMsEwma < 8 / 10 * tickBudgetMs then
    { sched with targetBatch := min sched.batchCap (sched.targetBatch + max 1 (sched.targetBatch.tdiv 8)) }
  else sched

/-- What a tick leaves behind. -/
structure Ticked where
  sched : Scheduler
  sessions : SessionPool
  memory : Memory
  /-- The fds whose write interest the caller should arm. -/
  resultFds : List Int := []

/-- `Scheduler::tick`. -/
def Scheduler.tick (sched : Scheduler) (pf : Platform) (cfg : RuntimeConfig) (sessions : SessionPool) (mem : Memory)
    (nowNs : Nat) (out : Decoded) : Ticked :=
  let plan := sched.plan cfg sessions
  let sched := { sched with
    metrics := sched.guardMetrics cfg sessions
    rrDecodeIdx := plan.nextRrDecodeIdx
    rrPrefillIdx := plan.nextRrPrefillIdx }
  let e := enact sessions plan.items
  if e.batch.tokens.isEmpty then { sched, sessions := e.sessions, memory := mem }
  else
    let mem := llamaDecode mem e.batch out
    let ewma := 8 / 10 * sched.decodeMsEwma + 2 / 10 * ((out.durNs : ℚ) / 1000000)
    let sched := { sched with
      decodeMsEwma := ewma
      metrics := (sched.metrics.account e.batch.tokens.length out.durNs plan).setDecodeMsEwma ewma }
    let sched := sched.tune pf
    if out.rc ≠ 0 then { sched, sessions := e.samples.foldl failOne e.sessions, memory := mem }
    else
      let a := e.samples.foldl (sampleOne pf cfg nowNs out)
        { sessions := e.sessions, memory := mem, metrics := sched.metrics }
      { sched := { sched with metrics := a.metrics }
        sessions := a.sessions
        memory := a.memory
        resultFds := a.resultFds }

end UmaServe

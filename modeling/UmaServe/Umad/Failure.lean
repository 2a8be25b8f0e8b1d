/-
What a tick leaves of the work in flight when a call into llama.cpp does not
deliver. `tick` consumes pending tokens and prompt tokens while it builds the
batch, before the call: a failed call puts nothing back and ends every
session that has a row (`soft_fail_served`), and a missing logits row leaves
its session with nothing to feed. So a session stays schedulable exactly as
long as no row is missing that ends what its session has to feed
(`no_stranded_session`).
-/
import UmaServe.Umad.Ownership

namespace UmaServe

/-! ## A failed call -/

section SoftFail

variable {pf : Platform} {cfg : RuntimeConfig} {sched : Scheduler} {sessions : SessionPool} {mem : Memory}
  {nowNs : Nat} {out : Decoded} {fd : Int} {s : ClientSession} {before : List BatchItem} {it : BatchItem}

/-- What a retry of a session's work starts from. -/
structure Work where
  state : SessionState
  prefillIdx : Nat
  nPast : Int
  hasPendingTok : Bool
  pendingTok : Token
  generatedCount : Nat
  tx : Bytes
  deriving DecidableEq

def ClientSession.work (s : ClientSession) : Work :=
  { state := s.state
    prefillIdx := s.prefillIdx
    nPast := s.nPast
    hasPendingTok := s.hasPendingTok
    pendingTok := s.pendingTok
    generatedCount := s.generatedCount
    tx := s.tx }

/-- A session with a row in a batch that fails is errored, with its pending
token or its chunk of the prompt consumed. -/
theorem soft_fail_served (pf : Platform) (mem : Memory) (nowNs : Nat) (hk : Keyed sessions)
    (h : Serves sessions (sched.items cfg sessions) fd s before it) (hrc : out.rc ≠ 0) :
    ∃ s', (sched.tick pf cfg sessions mem nowNs out).sessions.lookup fd = some s' ∧
      s' = (s.enacted it).decodeFailed ∧ s.state.busy = true ∧ s'.state = .errored ∧
      s'.prefillIdx = s.prefillIdx + (if it.phase = .prefill then it.nTokens.toNat else 0) ∧
      (it.phase = .decode → s.hasPendingTok = true ∧ s'.hasPendingTok = false) := by
  obtain ⟨s', hs', hserved⟩ := tick_served pf mem nowNs out hk h
  refine ⟨s', hs', ?_⟩
  cases hserved with
  | failed =>
    refine ⟨rfl, h.busy hk, rfl, ?_, fun hph => ⟨(h.decode hk hph).2, ?_⟩⟩
    · cases hph : it.phase <;>
        simp [ClientSession.decodeFailed, ClientSession.emit, ClientSession.enacted, hph]
    · simp [ClientSession.decodeFailed, ClientSession.emit, ClientSession.enacted, hph]
  | noRow h0 | first h0 | ended h0 | more h0 => exact absurd h0 hrc

/-- **Every failure of `llama_decode` is the same**, 1 included: a session
with a row in the batch is errored, with the event behind its `tx`, its read
side closed, and its pending token or its chunk of the prompt consumed; any
other session is as it was. -/
theorem decode_failure (sched : Scheduler) (pf : Platform) (mem : Memory) (nowNs : Nat) (hk : Keyed sessions)
    (hrc : out.rc ≠ 0) (hs : sessions.lookup fd = some s) :
    ∃ s', (sched.tick pf cfg sessions mem nowNs out).sessions.lookup fd = some s' ∧
      ((∃ before it, Serves sessions (sched.items cfg sessions) fd s before it ∧ s'.state = .errored ∧
          s'.readClosed = true ∧
          s'.tx = (Event.error s.requestId (bytes "E_RUNTIME_DECODE") (bytes "decode failed")).append s.tx ∧
          s'.prefillIdx = s.prefillIdx + (if it.phase = .prefill then it.nTokens.toNat else 0) ∧
          (it.phase = .decode → s.hasPendingTok = true ∧ s'.hasPendingTok = false)) ∨
        (∀ it ∈ sched.items cfg sessions, it.fd = fd → itemRows s it = []) ∧ s' = s) := by
  obtain ⟨s', hs'⟩ := tick_lookup_isSome pf cfg mem nowNs out hk hs
  refine ⟨s', hs', ?_⟩
  rcases tick_session hk hs hs' with ⟨rfl, hno⟩ | ⟨before, it, hserves, -⟩
  · exact .inr ⟨hno, rfl⟩
  · obtain ⟨s₁, hs₁, rfl, -, hst, hidx, hpend⟩ := soft_fail_served pf mem nowNs hk hserves hrc
    cases hs'.symm.trans hs₁
    refine .inl ⟨before, it, hserves, hst, rfl, ?_, hidx, hpend⟩
    simp [ClientSession.decodeFailed, ClientSession.emit]

/-- **A call that finds no slot is not soft**: whenever `llama_decode` is
called and returns 1, some session is not as it was before the tick. -/
theorem soft_fail_not_atomic (hk : Keyed sessions)
    (hcall : (enact sessions (sched.plan cfg sessions).items).batch.tokens ≠ []) (hrc : out.rc = 1) :
    ¬ ∀ fd, ((sched.tick pf cfg sessions mem nowNs out).sessions.lookup fd).map ClientSession.work =
      (sessions.lookup fd).map ClientSession.work := by
  intro hsame
  rw [enact_batch (plan_ok hk sched cfg).nodup] at hcall
  -- A row comes from an item, whose session is served.
  have hrows : planRows sessions (sched.plan cfg sessions).items ≠ [] := by
    intro hnil
    rw [hnil] at hcall
    exact hcall rfl
  obtain ⟨r, hr⟩ := List.exists_mem_of_ne_nil _ hrows
  obtain ⟨it, hit, s, hs, hrow⟩ := mem_planRows hr
  obtain ⟨before, hserves⟩ := exists_serves hit hs (List.ne_nil_of_mem hrow)
  obtain ⟨s', hs', -, hbusy, herr, -⟩ := soft_fail_served pf mem nowNs hk hserves
    (by omega : out.rc ≠ 0)
  have heq := hsame it.fd
  rw [hs', hs, Option.map_some, Option.map_some, Option.some.injEq] at heq
  have hst : s'.state = s.state := congrArg Work.state heq
  rw [herr] at hst
  rw [← hst] at hbusy
  cases hbusy

/-- A call that finds no slot. -/
def noSlot : Decoded := { rc := 1, rows := fun _ => none }

/-- Two prompts wait, the call for both finds no slot, and both are errored
with their prompts consumed. -/
theorem soft_fail_not_atomic_two :
    let d := (umad small {}).after (umad small {}).init twoAsked
    (enact d.mgr.sessions (d.sched.plan {} d.mgr.sessions).items).batch.tokens = [99, 97, 98] ∧
      ¬ ∀ fd, ((d.sched.tick small {} d.mgr.sessions d.memory 3 noSlot).sessions.lookup fd).map ClientSession.work =
        (d.mgr.sessions.lookup fd).map ClientSession.work := by
  intro d
  have hr : (umad small {}).Reach Lib.Always d := Lib.System.Reach.init.run (by decide +kernel)
  have hb : (enact d.mgr.sessions (d.sched.plan {} d.mgr.sessions).items).batch.tokens = [99, 97, 98] := by
    decide +kernel
  exact ⟨hb, soft_fail_not_atomic (owned_of_reach hr).keyed (by rw [hb]; simp) rfl⟩

/-- The session of the first of two clients. -/
theorem decode_failure_two :
    let d := (umad small {}).after (umad small {}).init twoAsked
    ∃ s s', d.find 7 = some s ∧ s.state = .prefill ∧
      (d.sched.tick small {} d.mgr.sessions d.memory 3 noSlot).sessions.lookup 7 = some s' ∧
      s'.readClosed = true ∧
      s'.tx = (Event.error s.requestId (bytes "E_RUNTIME_DECODE") (bytes "decode failed")).append s.tx := by
  intro d
  have hr : (umad small {}).Reach Lib.Always d := Lib.System.Reach.init.run (by decide +kernel)
  have hst : (d.find 7).map ClientSession.state = some .prefill := by decide +kernel
  obtain ⟨s, hs, hst⟩ := Option.map_eq_some_iff.mp hst
  have hl : d.mgr.sessions.lookup 7 = some s := hs
  have hrc : noSlot.rc ≠ 0 := by decide
  obtain ⟨s', hs', hor⟩ := decode_failure d.sched small d.memory 3 (owned_of_reach hr).keyed hrc hl
  rcases hor with ⟨before, it, -, -, hrc, htx, -⟩ | ⟨-, rfl⟩
  · exact ⟨s, s', hs, hst, hs', hrc, htx⟩
  · -- It has a row, so it is not as it was.
    have herr : ((d.sched.tick small {} d.mgr.sessions d.memory 3 noSlot).sessions.lookup 7).map ClientSession.state =
        some .errored := by decide +kernel
    rw [hs', Option.map_some, hst] at herr
    cases herr

theorem soft_fail_errored :
    ∃ d, (umad small {}).Reach Lib.Always d ∧ ∃ fd s s', d.find fd = some s ∧
      (d.sched.tick small {} d.mgr.sessions d.memory 3 noSlot).sessions.lookup fd = some s' ∧
      s.state = .prefill ∧ s'.state = .errored ∧ s.prefillIdx = 0 ∧ s'.prefillIdx = 2 ∧ s.tx ≠ s'.tx := by
  refine ⟨(umad small {}).after (umad small {}).init twoAsked, Lib.System.Reach.init.run (by decide +kernel), 7, ?_⟩
  have hs : (((umad small {}).after (umad small {}).init twoAsked).find 7).map
      (fun s => (s.state, s.prefillIdx, s.tx)) = some (.prefill, 0, []) := by decide +kernel
  have hs' : ((((umad small {}).after (umad small {}).init twoAsked).sched.tick small {}
      ((umad small {}).after (umad small {}).init twoAsked).mgr.sessions
      ((umad small {}).after (umad small {}).init twoAsked).memory 3 noSlot).sessions.lookup 7).map
      (fun s => (s.state, s.prefillIdx, s.tx.isEmpty)) = some (.errored, 2, false) := by decide +kernel
  obtain ⟨s, hs, hst⟩ := Option.map_eq_some_iff.mp hs
  obtain ⟨s', hs', hst'⟩ := Option.map_eq_some_iff.mp hs'
  simp only [Prod.mk.injEq] at hst hst'
  refine ⟨s, s', hs, hs', hst.1, hst'.1, hst.2.1, hst'.2.1, fun he => ?_⟩
  rw [← he, hst.2.2] at hst'
  cases hst'.2.2

end SoftFail

/-! ## A missing row -/

section Stranded

variable {pf : Platform} {cfg : RuntimeConfig} {d : Daemon} {fd : Int} {s s' : ClientSession} {nowNs : Nat}
  {out : Decoded} {before : List BatchItem} {it : BatchItem}

/-- A session in flight has something to feed. -/
structure ClientSession.Schedulable (s : ClientSession) : Prop where
  decode : s.state = .decode → s.hasPendingTok = true
  prefill : s.state = .prefill → s.prefillIdx < s.promptTokens.length

/-- The item takes all its session has to feed. -/
def BatchItem.Exhausts (it : BatchItem) (s : ClientSession) : Prop :=
  it.phase = .decode ∨ it.nTokens = s.remaining

instance : Decidable (it.Exhausts s) := inferInstanceAs (Decidable (_ ∨ _))

/-- The decode fails, or there is a logits row at the end of every item of the
plan that takes all its session has to feed. -/
def NoRowLost (cfg : RuntimeConfig) (d : Daemon) : Action → Prop
  | .tick _ out => out.rc = 0 → ∀ i < (d.sched.items cfg d.mgr.sessions).length,
      ∀ it ∈ (d.sched.items cfg d.mgr.sessions)[i]?, ∀ s ∈ d.find it.fd, it.Exhausts s →
        (out.rows (sampleIndex d.mgr.sessions ((d.sched.items cfg d.mgr.sessions).take i) s it)).isSome = true
  | _ => True

instance : ∀ a, Decidable (NoRowLost cfg d a)
  | .tick _ _ => inferInstanceAs (Decidable (_ → ∀ i < _, ∀ it ∈ _, _))
  | .accept _ _ _ | .readable _ _ _ _ | .writable _ _ _ | .idle _ => inferInstanceAs (Decidable True)

/-- An item that serves a session leaves it something to feed, unless it takes
all there is. -/
theorem Serves.enacted_schedulable (hk : Keyed d.mgr.sessions)
    (h : Serves d.mgr.sessions (d.sched.items cfg d.mgr.sessions) fd s before it) :
    (s.enacted it).Schedulable ↔ ¬ it.Exhausts s := by
  cases hph : it.phase with
  | decode =>
    have hst := (h.decode hk hph).1
    constructor
    · intro hsch
      have := hsch.decode (by simp [hst])
      simp [ClientSession.enacted, hph] at this
    · intro hno
      exact absurd (.inl hph) hno
  | prefill =>
    obtain ⟨hst, hlt, hpos, hle⟩ := h.prefill hk hph
    simp only [BatchItem.Exhausts, hph, reduceCtorEq, false_or]
    unfold ClientSession.remaining at hle ⊢
    constructor
    · intro hsch
      have := hsch.prefill (by simp [hst])
      simp only [ClientSession.enacted, hph] at this
      omega
    · intro hne
      refine ⟨fun hd => ?_, fun _ => ?_⟩
      · simp [hst] at hd
      · simp only [ClientSession.enacted, hph]
        omega

theorem NoRowLost.serves (h : NoRowLost cfg d (.tick nowNs out))
    (hserves : Serves d.mgr.sessions (d.sched.items cfg d.mgr.sessions) fd s before it) (hrc : out.rc = 0)
    (hr : out.rows (sampleIndex d.mgr.sessions before s it) = none) : ¬ it.Exhausts s := by
  intro hex
  obtain ⟨hlen, hget, htake⟩ := hserves.place
  have hsome := h hrc before.length hlen it hget s hserves.item_lookup hex
  rw [htake, hr] at hsome
  cases hsome

/-- A response ends with a terminal event. -/
def ClientSession.Answered (s s' : ClientSession) : Prop :=
  (s'.state = .stream ∧ ∃ reason, s'.tx = (Event.eos s.requestId reason).append s.tx) ∨
    (s'.state = .errored ∧ ∃ code message, s'.tx = (Event.error s.requestId code message).append s.tx)

/-- What serving a session leaves: something to feed, or an answer, or the row
is missing. -/
theorem Served.schedulable {i : Nat} (h : Served pf cfg nowNs out s it i s') :
    (s'.decodeReady = true ∨ s.Answered s') ∨ (out.rc = 0 ∧ out.rows i = none ∧ s' = s.enacted it) := by
  cases h with
  | failed =>
    refine .inl (.inr (.inr ⟨rfl, bytes "E_RUNTIME_DECODE", bytes "decode failed", ?_⟩))
    simp [ClientSession.decodeFailed, ClientSession.emit]
  | noRow hrc hr => exact .inr ⟨hrc, hr, rfl⟩
  | first => exact .inl (.inl (by simp [prefillSampled_eq, ClientSession.decodeReady]))
  | ended =>
    refine .inl (.inr (.inl ⟨rfl, if cfg.maxTokens ≤ (s.enacted it).generatedCount then bytes "length"
      else bytes "stop", ?_⟩))
    simp only [finish_eq, eosEvent, enacted_requestId, enacted_tx]
  | more => exact .inl (.inl (by simp [decodeSampled_eq, ClientSession.decodeReady]))

theorem schedulable_of_not_busy (h : s.state.busy = false) : s.Schedulable :=
  ⟨fun hst => (by rw [hst] at h; cases h), fun hst => (by rw [hst] at h; cases h)⟩

theorem schedulable_of_decodeReady (h : s.decodeReady = true) : s.Schedulable := by
  obtain ⟨hst, hpend⟩ := decodeReady_iff.mp h
  refine ⟨fun _ => hpend, fun hp => ?_⟩
  rw [hst] at hp
  cases hp

theorem ClientSession.Schedulable.ready (h : s.Schedulable) (hb : s.state.busy = true) :
    s.decodeReady = true ∨ s.prefillReady = true := by
  cases hst : s.state with
  | decode => exact .inl (decodeReady_iff.mpr ⟨hst, h.decode hst⟩)
  | prefill => exact .inr (prefillReady_iff.mpr ⟨hst, h.prefill hst⟩)
  | recvReq | stream | done | errored => rw [hst] at hb; cases hb

theorem Served.keeps_schedulable (hk : Keyed d.mgr.sessions) (hc : NoRowLost cfg d (.tick nowNs out))
    (hserves : Serves d.mgr.sessions (d.sched.items cfg d.mgr.sessions) fd s before it)
    (hserved : Served pf cfg nowNs out s it (sampleIndex d.mgr.sessions before s it) s') : s'.Schedulable := by
  rcases hserved.schedulable with (hready | ⟨hst, -⟩ | ⟨hst, -⟩) | ⟨hrc, hr, rfl⟩
  · exact schedulable_of_decodeReady hready
  · exact schedulable_of_not_busy (by rw [hst]; rfl)
  · exact schedulable_of_not_busy (by rw [hst]; rfl)
  · exact (hserves.enacted_schedulable hk).mpr (hc.serves hserves hrc hr)

theorem schedulable_of_reach (h : (umad pf cfg).Reach (NoRowLost cfg) d) (hs : d.find fd = some s) :
    s.Schedulable := by
  refine session_invariant (I := ClientSession.Schedulable) (fun _ _ => schedulable_of_not_busy rfl) ?_ h hs
  intro d a fd next s s' r w r' w' hr hc hs hmove hi
  cases hmove with
  | same | idled => exact hi
  | sent | drained => exact ⟨hi.decode, hi.prefill⟩
  | @quiet reads now nowNs =>
    obtain ⟨rx, act, rc, -, heq⟩ := s.received_eq nowNs reads
    rw [heq]
    exact ⟨hi.decode, hi.prefill⟩
  | rejected | metrics | empty | emptied | finished => exact schedulable_of_not_busy rfl
  | started _ _ _ _ hne =>
    exact ⟨fun hst => (by cases hst), fun _ => List.length_pos_iff.mpr hne⟩
  | served hserves hserved => exact hserved.keeps_schedulable (owned_of_reach hr).keyed hc hserves

theorem lost_row_strands (pf : Platform) (hk : Keyed d.mgr.sessions) (h : ¬ NoRowLost cfg d (.tick nowNs out)) :
    ∃ fd s', (d.tick pf cfg nowNs out).find fd = some s' ∧ ¬ s'.Schedulable := by
  simp only [NoRowLost] at h
  push Not at h
  obtain ⟨hrc, i, -, it, hit, s, hs, hex, hrow⟩ := h
  have hok := (plan_ok hk d.sched cfg).ready it (List.mem_of_getElem? hit)
  -- Nothing to feed is not ready, so an item that takes all of it has a row.
  have hrows : itemRows s it ≠ [] := by
    intro hnil
    obtain ⟨hph, h0⟩ := (itemRows_eq_nil hok hs).mp hnil
    obtain ⟨t, ht, hm⟩ := hok
    obtain rfl : t = s := Option.some.inj (ht.symm.trans hs)
    rw [hph] at hm
    have hlt := (prefillReady_iff.mp hm.1).2
    simp only [BatchItem.Exhausts, hph, reduceCtorEq, false_or, ClientSession.remaining] at hex
    omega
  have hserves := serves_at hit hs hrows
  obtain ⟨s', hs', hserved⟩ := tick_served pf d.memory nowNs out hk hserves
  refine ⟨it.fd, s', by rw [Daemon.tick_find]; exact hs', ?_⟩
  rw [ne_eq, Option.not_isSome_iff_eq_none] at hrow
  cases hserved with
  | failed hne => exact absurd hrc hne
  | noRow => exact fun hsch => (hserves.enacted_schedulable hk).mp hsch hex
  | first _ hr | ended _ hr | more _ hr => rw [hr] at hrow; cases hrow

/-- **No session is stranded**, in every run that loses no row at the end of
what a session has to feed: every session in flight has something to feed.
In such a run a tick keeps that exactly as long as it loses none either, and
a session it takes out of flight is answered. -/
theorem no_stranded_session (h : (umad pf cfg).Reach (NoRowLost cfg) d) :
    (∀ fd s, d.find fd = some s → s.Schedulable) ∧
    ∀ nowNs out,
      ((∀ fd s', (d.tick pf cfg nowNs out).find fd = some s' → s'.Schedulable) ↔
        NoRowLost cfg d (.tick nowNs out)) ∧
      (NoRowLost cfg d (.tick nowNs out) → ∀ fd s s', d.find fd = some s → s.state.busy = true →
        (d.tick pf cfg nowNs out).find fd = some s' →
        s'.decodeReady = true ∨ s'.prefillReady = true ∨ s.Answered s') := by
  have hk := (owned_of_reach h).keyed
  have htick : ∀ nowNs out, NoRowLost cfg d (.tick nowNs out) → ∀ fd s', (d.tick pf cfg nowNs out).find fd = some s' →
      s'.Schedulable := fun nowNs out hc _ _ hs' =>
    schedulable_of_reach (h.step (show (umad pf cfg).enabled d (.tick nowNs out) from trivial) hc) hs'
  refine ⟨fun fd s hs => schedulable_of_reach h hs, fun nowNs out => ⟨⟨fun hall => ?_, htick nowNs out⟩, ?_⟩⟩
  · by_contra hno
    obtain ⟨fd, s', hs', hstranded⟩ := lost_row_strands pf hk hno
    exact hstranded (hall fd s' hs')
  · intro hc fd s s' hs hb hs'
    have hsch := htick nowNs out hc fd s' hs'
    rw [Daemon.tick_find] at hs'
    rcases tick_session hk hs hs' with ⟨rfl, -⟩ | ⟨before, it, -, hserved⟩
    · exact (hsch.ready hb).imp_right .inl
    · rcases hserved.schedulable with (hr | hans) | ⟨-, -, rfl⟩
      · exact .inl hr
      · exact .inr (.inr hans)
      · exact (hsch.ready (by rw [enacted_state]; exact hb)).imp_right .inl

/-- Two prompts are fed with all their rows, and both sessions go on. -/
theorem no_stranded_session_two :
    (umad small {}).Reach (NoRowLost {}) ((umad small {}).after (umad small {}).init twoServed) ∧
      ∀ fd s, ((umad small {}).after (umad small {}).init twoServed).find fd = some s → s.Schedulable := by
  have hr : (umad small {}).Reach (NoRowLost {}) ((umad small {}).after (umad small {}).init twoServed) :=
    Lib.System.Reach.init.run (by decide +kernel)
  exact ⟨hr, (no_stranded_session hr).1⟩

/-- A prompt is fed and its row is missing: the session stays in `PREFILL`
with nothing left to feed, and nothing in `tx`. -/
theorem no_stranded_session_lost :
    ∃ d, (umad small {}).Reach Lib.Always d ∧ ∃ fd s, d.find fd = some s ∧ s.state = .prefill ∧
      s.promptTokens.length = 2 ∧ s.prefillIdx = 2 ∧ s.tx = [] := by
  refine ⟨(umad small {}).after (umad small {}).init (twoAsked ++ [.tick 3 { rows := fun _ => none }]),
    Lib.System.Reach.init.run (by decide +kernel), 7, ?_⟩
  have hst : (((umad small {}).after (umad small {}).init (twoAsked ++ [.tick 3 { rows := fun _ => none }])).find 7).map
      (fun s => (s.state, s.promptTokens.length, s.prefillIdx, s.tx)) = some (.prefill, 2, 2, []) := by decide +kernel
  obtain ⟨s, hs, hst⟩ := Option.map_eq_some_iff.mp hst
  simp only [Prod.mk.injEq] at hst
  exact ⟨s, hs, hst⟩

end Stranded
end UmaServe

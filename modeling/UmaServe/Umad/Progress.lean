/-
How long a request can take. Every tick that feeds a request moves it along
its prompt, counts a token against `max_tokens`, or ends it; one without a
logits row in `DECODE` takes its next token away, and it is never fed again.
So the ticks that feed a request are bounded by its prompt and the limit
(`bounded_generation`).
-/
import UmaServe.Umad.History

namespace UmaServe

/-- What is counted of the last request that started on a connection. -/
structure Tally where
  /-- The length of its prompt. -/
  prompt : Nat := 0
  /-- The ticks with a token of it in the batch. -/
  ticks : Nat := 0
  /-- The tokens sampled for it and kept as the next to feed. -/
  tokens : Nat := 0
  deriving DecidableEq

/-- The prompt of the request that a readable event starts, if it does. -/
def ClientSession.starts (s : ClientSession) (pf : Platform) (cfg : RuntimeConfig) (nowNs : Nat)
    (reads : List ReadRes) : Option (List Token) :=
  ((s.frame? nowNs reads).filter fun js => acceptsRequest cfg js && !(promptOf pf.vocab js).isEmpty).map
    (promptOf pf.vocab)

/-- A tick sampled a token for the session, and kept it as the next to feed. -/
def ClientSession.stores (s s' : ClientSession) : Bool :=
  s'.hasPendingTok && s'.hist.window.sampled = s.hist.window.sampled ++ [s'.pendingTok]

def tally (pf : Platform) (cfg : RuntimeConfig) : Ledger Tally where
  fresh := {}
  read := fun s nowNs reads e =>
    match s.starts pf cfg nowNs reads with
    | none => e
    | some toks => { prompt := toks.length }
  tick := fun d nowNs out fd e =>
    match d.find fd, (d.tick pf cfg nowNs out).find fd with
    | some s, some s' =>
      { e with
        ticks := if s.seq ∈ (d.batch cfg).seqIdVals then e.ticks + 1 else e.ticks
        tokens := if s.stores s' then e.tokens + 1 else e.tokens }
    | _, _ => e

/-- The measure of a request: what is left of the prompt and of the limit,
and one more while it is in flight. -/
def ClientSession.measure (cfg : RuntimeConfig) (s : ClientSession) : Int :=
  ((s.promptTokens.length : Int) - s.prefillIdx) + ((cfg.maxTokens : Int) - s.generatedCount) +
    if s.state.busy then 1 else 0

/-- The ticks a request can still be fed in. -/
def ClientSession.ahead (cfg : RuntimeConfig) (s : ClientSession) : Nat :=
  match s.state with
  | .prefill => s.promptTokens.length - s.prefillIdx + (cfg.maxTokens - s.generatedCount) + 1
  | .decode =>
    if s.hasPendingTok then s.promptTokens.length - s.prefillIdx + (cfg.maxTokens - s.generatedCount) + 1 else 0
  | _ => 0

structure Bounded (cfg : RuntimeConfig) (e : Tally) (s : ClientSession) : Prop where
  ticks : e.ticks + s.ahead cfg ≤ e.prompt + cfg.maxTokens + 1
  prompt : s.state.busy = true → e.prompt = s.promptTokens.length
  index : s.state.busy = true → s.prefillIdx ≤ s.promptTokens.length
  count : s.state.busy = true → s.generatedCount ≤ cfg.maxTokens

section Progress

variable {pf : Platform} {cfg : RuntimeConfig} {d : Daemon} {fd : Int} {s s' t : ClientSession} {e : Tally}
  {nowNs : Nat} {reads : List ReadRes} {out : Decoded} {before : List BatchItem} {it : BatchItem} {i : Nat}

theorem ahead_idle (cfg : RuntimeConfig) (h : s.state.busy = false) : s.ahead cfg = 0 := by
  unfold ClientSession.ahead
  cases hst : s.state <;> simp_all [SessionState.busy]

theorem Bounded.between (h : e.ticks ≤ e.prompt + cfg.maxTokens + 1) (hb : s.state.busy = false) : Bounded cfg e s := by
  have hahead := ahead_idle cfg hb
  refine ⟨by omega, fun hb' => ?_, fun hb' => ?_, fun hb' => ?_⟩
  · rw [hb] at hb'; cases hb'
  · rw [hb] at hb'; cases hb'
  · rw [hb] at hb'; cases hb'

theorem Bounded.le (h : Bounded cfg e s) : e.ticks ≤ e.prompt + cfg.maxTokens + 1 := by
  have := h.ticks
  omega

/-- A session all of whose fields for it are as they were. -/
theorem Bounded.still (h : Bounded cfg e s) (hst : t.state = s.state) (hp : t.promptTokens = s.promptTokens)
    (hi : t.prefillIdx = s.prefillIdx) (hpend : t.hasPendingTok = s.hasPendingTok)
    (hg : t.generatedCount = s.generatedCount) : Bounded cfg e t := by
  have hahead : t.ahead cfg = s.ahead cfg := by simp only [ClientSession.ahead, hst, hp, hi, hpend, hg]
  refine ⟨by rw [hahead]; exact h.ticks, ?_, ?_, ?_⟩
  · rw [hst, hp]; exact h.prompt
  · rw [hst, hp, hi]; exact h.index
  · rw [hst, hg]; exact h.count

theorem frame?_eq_none (h : s.parses nowNs reads = false) : s.frame? nowNs reads = none := by
  unfold ClientSession.parses at h
  unfold ClientSession.frame?
  cases hatt : s.attempt nowNs reads with
  | none => rfl
  | some fr =>
    rw [hatt, Option.any_some, Bool.or_eq_false_iff] at h
    rw [Option.bind_some, h.1]
    rfl

theorem starts_none (h : s.frame? nowNs reads = none) : s.starts pf cfg nowNs reads = none := by
  rw [ClientSession.starts, h]
  rfl

theorem starts_some {js : Bytes} (hf : s.frame? nowNs reads = some js) (hacc : acceptsRequest cfg js = true)
    (hne : promptOf pf.vocab js ≠ []) : s.starts pf cfg nowNs reads = some (promptOf pf.vocab js) := by
  have hempty : (promptOf pf.vocab js).isEmpty = false := List.isEmpty_eq_false_iff.mpr hne
  rw [ClientSession.starts, hf, Option.filter_some, if_pos (by rw [hacc, hempty]; rfl)]
  rfl

theorem tally_read_le (h : e.ticks ≤ e.prompt + cfg.maxTokens + 1) :
    ((tally pf cfg).read s nowNs reads e).ticks ≤ ((tally pf cfg).read s nowNs reads e).prompt + cfg.maxTokens + 1 := by
  simp only [tally]
  split
  · exact h
  · exact Nat.zero_le _

/-- What `on_readable` makes of the session: a request that starts has its
whole bound ahead, and any other frame ends the one there was. -/
theorem Bounded.read {next : Int} (h : Bounded cfg e s) :
    Bounded cfg ((tally pf cfg).read s nowNs reads e) (s.read cfg pf.vocab nowNs next reads).session := by
  have hle : ((tally pf cfg).read s nowNs reads e).ticks ≤
      ((tally pf cfg).read s nowNs reads e).prompt + cfg.maxTokens + 1 := tally_read_le h.le
  have hr : Reading cfg pf.vocab nowNs next reads s _ := read_reading
  generalize s.read cfg pf.vocab nowNs next reads = o at hr ⊢
  cases hr with
  | quiet hp =>
    obtain ⟨rx, act, rc, -, heq⟩ := s.received_eq nowNs reads
    have hnote : (tally pf cfg).read s nowNs reads e = e := by simp only [tally, starts_none (frame?_eq_none hp)]
    rw [hnote, heq]
    exact h.still rfl rfl rfl rfl rfl
  | rejected | admin | empty => exact .between hle rfl
  | @started t rr js seq next' hp ht hf hacc hne =>
    have hnote : (tally pf cfg).read s nowNs reads e = { prompt := (promptOf pf.vocab js).length } := by
      simp only [tally, starts_some hf hacc hne]
    rw [hnote]
    refine ⟨?_, fun _ => rfl, fun _ => Nat.zero_le _, fun _ => Nat.zero_le _⟩
    show 0 + ((promptOf pf.vocab js).length - 0 + (cfg.maxTokens - 0) + 1) ≤
      (promptOf pf.vocab js).length + cfg.maxTokens + 1
    omega

theorem ahead_le (cfg : RuntimeConfig) (s : ClientSession) :
    s.ahead cfg ≤ s.promptTokens.length - s.prefillIdx + (cfg.maxTokens - s.generatedCount) + 1 := by
  unfold ClientSession.ahead
  split
  · exact le_refl _
  · split
    · exact le_refl _
    · exact Nat.zero_le _
  · exact Nat.zero_le _

theorem ahead_stuck (cfg : RuntimeConfig) (hst : s.state = .decode) (hpend : s.hasPendingTok = false) :
    s.ahead cfg = 0 := by
  simp [ClientSession.ahead, hst, hpend]

/-- A session that is fed has a tick ahead. -/
theorem Serves.ahead (hk : Keyed d.mgr.sessions)
    (h : Serves d.mgr.sessions (d.sched.items cfg d.mgr.sessions) fd s before it) :
    s.ahead cfg = s.promptTokens.length - s.prefillIdx + (cfg.maxTokens - s.generatedCount) + 1 := by
  cases hph : it.phase with
  | prefill => simp [ClientSession.ahead, (h.prefill hk hph).1]
  | decode =>
    obtain ⟨hst, hpend⟩ := h.decode hk hph
    simp [ClientSession.ahead, hst, hpend]

/-- What a tick that feeds a session does for its progress. -/
inductive Progress (cfg : RuntimeConfig) (out : Decoded) (i : Nat) (s s' : ClientSession) : Prop
  /-- It is over: the response ended, or the decode failed. -/
  | ended : s'.state.busy = false → s'.prefillIdx ≤ s'.promptTokens.length → s.prefillIdx ≤ s'.prefillIdx →
      s'.generatedCount = s.generatedCount → Progress cfg out i s s'
  /-- A part of the prompt was fed. -/
  | fed : s.prefillIdx < s'.prefillIdx → s'.prefillIdx ≤ s'.promptTokens.length →
      s'.generatedCount = s.generatedCount → Progress cfg out i s s'
  /-- One more token counts against the limit. -/
  | counted : s'.prefillIdx = s.prefillIdx → s.generatedCount < cfg.maxTokens →
      s'.generatedCount = s.generatedCount + 1 → Progress cfg out i s s'
  /-- There is no logits row, and the token that was fed is gone. -/
  | stuck : out.rc = 0 → out.rows i = none → s'.state = .decode → s'.hasPendingTok = false →
      s'.prefillIdx = s.prefillIdx → s'.generatedCount = s.generatedCount → Progress cfg out i s s'

/-- The chunk of an item moves the index within the prompt. -/
theorem Serves.enacted_index (hk : Keyed d.mgr.sessions)
    (h : Serves d.mgr.sessions (d.sched.items cfg d.mgr.sessions) fd s before it)
    (hindex : s.prefillIdx ≤ s.promptTokens.length) :
    (s.enacted it).prefillIdx ≤ s.promptTokens.length ∧ s.prefillIdx ≤ (s.enacted it).prefillIdx ∧
      (it.phase = .prefill → s.prefillIdx < (s.enacted it).prefillIdx) ∧
      (it.phase = .decode → (s.enacted it).prefillIdx = s.prefillIdx) := by
  cases hph : it.phase with
  | prefill =>
    obtain ⟨-, -, hpos, hle⟩ := h.prefill hk hph
    unfold ClientSession.remaining at hle
    simp only [ClientSession.enacted, hph, true_implies]
    refine ⟨by omega, by omega, by omega, fun hd => by cases hd⟩
  | decode =>
    simp only [ClientSession.enacted, hph]
    exact ⟨hindex, le_refl _, fun hp => (by cases hp), fun _ => trivial⟩

theorem Served.progress (hk : Keyed d.mgr.sessions)
    (hserves : Serves d.mgr.sessions (d.sched.items cfg d.mgr.sessions) fd s before it)
    (hserved : Served pf cfg nowNs out s it i s') (hindex : s.prefillIdx ≤ s.promptTokens.length) :
    s'.promptTokens = s.promptTokens ∧ Progress cfg out i s s' := by
  obtain ⟨hle, hmono, hpre, hdec⟩ := hserves.enacted_index hk hindex
  have hcount : (s.enacted it).generatedCount = s.generatedCount := enacted_generatedCount
  have hprompt : (s.enacted it).promptTokens = s.promptTokens := enacted_promptTokens
  rw [← hprompt] at hle
  cases hserved with
  | failed => exact ⟨hprompt, .ended rfl hle hmono hcount⟩
  | noRow hrc hnone =>
    refine ⟨hprompt, ?_⟩
    cases hph : it.phase with
    | prefill => exact .fed (hpre hph) hle hcount
    | decode =>
      have hst : (s.enacted it).state = .decode := enacted_state.trans (hserves.decode hk hph).1
      exact .stuck hrc hnone hst (by simp [ClientSession.enacted, hph]) (hdec hph) hcount
  | first _ _ hph =>
    rw [prefillSampled_eq]
    exact ⟨hprompt, .fed (hpre hph) hle hcount⟩
  | ended => exact ⟨hprompt, .ended rfl hle hmono hcount⟩
  | more _ _ hph hend =>
    rw [decodeSampled_eq]
    simp only [ClientSession.atEnd, Bool.or_eq_false_iff, decide_eq_false_iff_not, hcount] at hend
    exact ⟨hprompt, .counted (hdec hph) (by omega) (by simp)⟩

/-- **A tick that feeds the session** leaves it a tick less ahead, whatever
llama.cpp returned. -/
theorem Bounded.served {e' : Tally} (h : Bounded cfg e s) (hk : Keyed d.mgr.sessions)
    (hserves : Serves d.mgr.sessions (d.sched.items cfg d.mgr.sessions) fd s before it)
    (hserved : Served pf cfg nowNs out s it i s') (hp : e'.prompt = e.prompt) (ht : e'.ticks ≤ e.ticks + 1) :
    Bounded cfg e' s' := by
  have hb := hserves.busy hk
  have hahead := hserves.ahead hk
  have hticks := h.ticks
  have hprompt := h.prompt hb
  have hindex := h.index hb
  have hcount := h.count hb
  have hahead' := ahead_le cfg s'
  obtain ⟨htoks, hprog⟩ := hserved.progress hk hserves hindex
  rw [htoks] at hahead'
  cases hprog with
  | ended hst => exact .between (by omega) hst
  | fed hlt hle hc =>
    rw [htoks] at hle
    exact ⟨by omega, fun _ => by rw [htoks]; omega, fun _ => by rw [htoks]; exact hle, fun _ => by omega⟩
  | counted hi hlt hc =>
    exact ⟨by omega, fun _ => by rw [htoks]; omega, fun _ => by rw [htoks]; omega, fun _ => by omega⟩
  | stuck _ _ hst hpend hi hc =>
    have hzero := ahead_stuck cfg hst hpend
    exact ⟨by omega, fun _ => by rw [htoks]; omega, fun _ => by rw [htoks]; omega, fun _ => by omega⟩

/-- **The measure falls** with every tick that feeds the session and has a
row for it, and its terms are not negative. -/
theorem Served.measure_lt (hk : Keyed d.mgr.sessions) (h : Bounded cfg e s)
    (hserves : Serves d.mgr.sessions (d.sched.items cfg d.mgr.sessions) fd s before it)
    (hserved : Served pf cfg nowNs out s it i s') (hrow : out.rc = 0 → out.rows i ≠ none) :
    s'.prefillIdx ≤ s'.promptTokens.length ∧ s'.generatedCount ≤ cfg.maxTokens ∧ s'.measure cfg < s.measure cfg := by
  have hb := hserves.busy hk
  have hindex := h.index hb
  have hcount := h.count hb
  obtain ⟨htoks, hprog⟩ := hserved.progress hk hserves hindex
  unfold ClientSession.measure
  rw [htoks, if_pos hb]
  cases hprog with
  | ended hst hle hmono hc =>
    rw [htoks] at hle
    rw [hst]
    refine ⟨hle, by omega, ?_⟩
    simp only [Bool.false_eq_true, if_false]
    omega
  | fed hlt hle hc =>
    rw [htoks] at hle
    refine ⟨hle, by omega, ?_⟩
    split <;> omega
  | counted hi hlt hc =>
    refine ⟨by omega, by omega, ?_⟩
    split <;> omega
  | stuck hrc hnone => exact absurd hnone (hrow hrc)

theorem Owned.fed (h : Owned d) (hs : d.find fd = some s) (hq : s.seq ∈ (d.batch cfg).seqIdVals) :
    ∃ before it, Serves d.mgr.sessions (d.sched.items cfg d.mgr.sessions) fd s before it := by
  rw [Daemon.batch, enact_batch (plan_ok h.keyed d.sched cfg).nodup] at hq
  obtain ⟨r, hr, hrq⟩ := List.mem_map.mp hq
  obtain ⟨it, hit, t, ht, hrow⟩ := mem_planRows hr
  obtain ⟨before, hserves⟩ := exists_serves hit ht (List.ne_nil_of_mem hrow)
  -- Only one session has the sequence.
  have hpos := h.busy it.fd t ht (hserves.busy h.keyed)
  have hseq : t.seq = s.seq := (itemRows_seq hrow).symm.trans hrq
  obtain rfl : it.fd = fd := h.distinct it.fd fd t s ht hs (by omega) hseq
  obtain rfl : t = s := Option.some.inj (ht.symm.trans hs)
  exact ⟨before, it, hserves⟩

theorem Owned.not_fed (h : Owned d) (hs : d.find fd = some s)
    (hno : ∀ it ∈ d.sched.items cfg d.mgr.sessions, it.fd = fd → itemRows s it = []) :
    s.seq ∉ (d.batch cfg).seqIdVals := by
  intro hq
  obtain ⟨before, it, hserves⟩ := h.fed hs hq
  exact hserves.rows_ne (hno it hserves.mem hserves.fd_eq)

theorem bounded_of_reach {D : Daemon × (Int → Tally) → Action → Prop} {p : Daemon × (Int → Tally)}
    (h : ((tally pf cfg).daemon pf cfg).Reach D p) (hs : p.1.find fd = some s) : Bounded cfg (p.2 fd) s := by
  refine Ledger.request_invariant (I := Bounded cfg) (fun _ _ => .between (Nat.zero_le _) rfl)
    (fun _ _ _ h => .between h.le rfl) (fun _ _ _ _ h => h.still rfl rfl rfl rfl rfl) (fun _ _ h => .between h.le rfl)
    (fun d g fd reads now nowNs s _ _ _ hi => hi.read) ?_ ?_ h hs
  · intro d g nowNs out fd s hr hs hs' hno hi
    have hticks : ((tally pf cfg).tick d nowNs out fd (g fd)).ticks = (g fd).ticks := by
      simp only [tally, hs, hs', if_neg ((Ledger.owned hr).not_fed hs hno)]
    have hprompt : ((tally pf cfg).tick d nowNs out fd (g fd)).prompt = (g fd).prompt := by
      simp only [tally, hs, hs']
    exact ⟨by rw [hticks, hprompt]; exact hi.ticks, by rw [hprompt]; exact hi.prompt, hi.index, hi.count⟩
  · intro d g nowNs out fd s s' before it hr _ hs' hserves hserved hi
    have hs : d.find fd = some s := hserves.lookup
    refine hi.served (Ledger.owned hr).keyed hserves hserved ?_ ?_
    · simp only [tally, hs, hs']
    · simp only [tally, hs, hs']
      split <;> omega

theorem tally_tick_none (h : (d.tick pf cfg nowNs out).find fd = none) :
    (tally pf cfg).tick d nowNs out fd e = e := by
  cases hs : d.find fd with
  | none => simp only [tally, hs]
  | some s => simp only [tally, hs, h]

/-- **Bounded generation.** In every run: at most as many ticks feed a request
as its prompt has tokens, and `max_tokens` and one more, whatever llama.cpp
returned and whatever else was scheduled. For a request in flight, the terms
of its measure are not negative, and every tick that feeds it and has a row
for its sample makes the measure smaller. -/
theorem bounded_generation {p : Daemon × (Int → Tally)} (h : ((tally pf cfg).daemon pf cfg).Reach Lib.Always p) :
    (∀ fd, (p.2 fd).ticks ≤ (p.2 fd).prompt + cfg.maxTokens + 1) ∧
    ∀ fd s, p.1.find fd = some s → s.state.busy = true →
      (p.2 fd).prompt = s.promptTokens.length ∧ s.prefillIdx ≤ s.promptTokens.length ∧
      s.generatedCount ≤ cfg.maxTokens ∧
      ∀ nowNs out s', s.seq ∈ (p.1.batch cfg).seqIdVals → (p.1.tick pf cfg nowNs out).find fd = some s' →
        (∀ sm ∈ (enact p.1.mgr.sessions (p.1.sched.plan cfg p.1.mgr.sessions).items).samples, sm.fd = fd →
          out.rc = 0 → out.rows sm.batchIndex ≠ none) →
        s'.prefillIdx ≤ s'.promptTokens.length ∧ s'.generatedCount ≤ cfg.maxTokens ∧
          s'.measure cfg < s.measure cfg := by
  refine ⟨Ledger.entries (P := fun e : Tally => e.ticks ≤ e.prompt + cfg.maxTokens + 1) (Nat.zero_le _)
    (fun _ _ _ _ hb => tally_read_le hb) (fun d nowNs out fd b hn hb => by rw [tally_tick_none hn]; exact hb)
    (fun p fd s hr hs => (bounded_of_reach hr hs).le) h, ?_⟩
  intro fd s hs hb
  have hbound := bounded_of_reach h hs
  have ho := Ledger.owned h
  refine ⟨hbound.prompt hb, hbound.index hb, hbound.count hb, ?_⟩
  intro nowNs out s' hq hs' hrow
  obtain ⟨before, it, hserves⟩ := ho.fed hs hq
  obtain ⟨s'', hl, hserved⟩ := tick_served pf p.1.memory nowNs out ho.keyed hserves
  rw [Daemon.tick_find] at hs'
  obtain rfl : s'' = s' := Option.some.inj (hl.symm.trans hs')
  exact hserved.measure_lt ho.keyed hbound hserves (hrow _ (hserves.sample ho.keyed) rfl)

/-- The run of two clients: one tick fed the first, and the next makes its
measure smaller. -/
theorem bounded_generation_two :
    ((((tally small {}).daemon small {}).after ((tally small {}).daemon small {}).init twoServed).2 7) =
        { prompt := 2, ticks := 1, tokens := 1 } ∧
      1 ≤ 2 + 64 + 1 ∧
      ∃ s, (((tally small {}).daemon small {}).after ((tally small {}).daemon small {}).init twoServed).1.find 7 =
          some s ∧
        s.state = .decode ∧
        ∀ s', ((((tally small {}).daemon small {}).after ((tally small {}).daemon small {}).init twoServed).1.tick small
          {} 4 (choosing 1)).find 7 = some s' → s'.measure {} < s.measure {} := by
  have hr : ((tally small {}).daemon small {}).Reach Lib.Always
      (((tally small {}).daemon small {}).after ((tally small {}).daemon small {}).init twoServed) :=
    Lib.System.Reach.init.run (by decide +kernel)
  have hcount : ((((tally small {}).daemon small {}).after ((tally small {}).daemon small {}).init twoServed).2 7) =
      { prompt := 2, ticks := 1, tokens := 1 } := by decide +kernel
  have hst : ((((tally small {}).daemon small {}).after ((tally small {}).daemon small {}).init twoServed).1.find 7).map
      (fun s => (s.state, decide (s.seq ∈ ((((tally small {}).daemon small {}).after
        ((tally small {}).daemon small {}).init twoServed).1.batch {}).seqIdVals))) = some (.decode, true) := by
    decide +kernel
  obtain ⟨s, hs, hst⟩ := Option.map_eq_some_iff.mp hst
  rw [Prod.mk.injEq, decide_eq_true_eq] at hst
  obtain ⟨hbound, hflight⟩ := bounded_generation hr
  have hle := hbound 7
  rw [hcount] at hle
  refine ⟨hcount, hle, s, hs, hst.1, fun s' hs' => ?_⟩
  obtain ⟨-, -, -, hless⟩ := hflight 7 s hs (by rw [hst.1]; rfl)
  exact (hless 4 (choosing 1) s' hst.2 hs' fun sm _ _ _ hnone => by cases hnone).2.2

end Progress
end UmaServe

/-
Where a generation stops. The branch that samples the first token of a
response, at the end of a prefill chunk, neither counts it nor asks whether
it ends the generation; the branch for every later token does both. So a
response has one token more than `max_tokens` unless the model ends it
(`generation_limit`), and goes on past an end-of-generation token that comes
first (`stops_at_eog`).
-/
import UmaServe.Umad.Progress

namespace UmaServe

/-- What a tick samples: for each session that gets a row of logits, the
session, the phase it was fed in and the token chosen. -/
def Daemon.chosen (d : Daemon) (pf : Platform) (cfg : RuntimeConfig) (out : Decoded) :
    List (ClientSession × Phase × Token) :=
  if out.rc = 0 then
    (d.sched.items cfg d.mgr.sessions).zipIdx.filterMap fun x =>
      (d.find x.1.fd).bind fun s =>
        if (itemRows s x.1).isEmpty then none
        else
          let i := sampleIndex d.mgr.sessions ((d.sched.items cfg d.mgr.sessions).take x.2) s x.1
          (out.rows i).map fun row => (s, x.1.phase, sampleRow pf out s i row)
  else []

section Chosen

variable {pf : Platform} {cfg : RuntimeConfig} {d : Daemon} {fd : Int} {s s' : ClientSession} {nowNs : Nat}
  {out : Decoded} {before : List BatchItem} {it : BatchItem} {i : Nat} {row : Nat → ℚ}

theorem sampleRow_enacted : sampleRow pf out (s.enacted it) i row = sampleRow pf out s i row := by
  rw [sampleRow, enacted_samplingParams]
  rfl

/-- The token of a session that is served is among them. -/
theorem Serves.chosen (h : Serves d.mgr.sessions (d.sched.items cfg d.mgr.sessions) fd s before it)
    (hrc : out.rc = 0) (hr : out.rows (sampleIndex d.mgr.sessions before s it) = some row) :
    (s, it.phase, sampleRow pf out (s.enacted it) (sampleIndex d.mgr.sessions before s it) row) ∈
      d.chosen pf cfg out := by
  obtain ⟨after, hsplit⟩ := h.split
  have htake : (d.sched.items cfg d.mgr.sessions).take before.length = before := by rw [hsplit]; simp
  have hmem : (it, before.length) ∈ (d.sched.items cfg d.mgr.sessions).zipIdx := by
    rw [List.mem_zipIdx_iff_getElem?, hsplit]
    simp
  rw [Daemon.chosen, if_pos hrc]
  refine List.mem_filterMap.mpr ⟨(it, before.length), hmem, ?_⟩
  have hs : d.find it.fd = some s := h.item_lookup
  have hne : (itemRows s it).isEmpty = false := List.isEmpty_eq_false_iff.mpr h.rows_ne
  simp only [hs, Option.bind_some, hne, Bool.false_eq_true, if_false, htake, hr, Option.map_some, sampleRow_enacted]

/-! ### Which tokens are kept -/

theorem stores_same (h : s'.hist.window.sampled = s.hist.window.sampled) : s.stores s' = false := by
  rw [ClientSession.stores, h, Bool.and_eq_false_iff]
  exact .inr (by simp)

theorem stores_new (hp : s'.hasPendingTok = true)
    (h : s'.hist.window.sampled = s.hist.window.sampled ++ [s'.pendingTok]) : s.stores s' = true := by
  rw [ClientSession.stores, hp, h]
  simp

theorem stores_dropped (h : s'.hasPendingTok = false) : s.stores s' = false := by
  rw [ClientSession.stores, h]
  rfl

end Chosen

/-! ## The limit -/

/-- The limit is not zero, and a session that has its tokens samples an end. -/
def EndsInTime (pf : Platform) (cfg : RuntimeConfig) (d : Daemon) : Action → Prop
  | .tick _ out => ∀ x ∈ d.chosen pf cfg out,
      (x.2.1 = .prefill → 0 < cfg.maxTokens) ∧
      (x.2.1 = .decode → x.1.generatedCount + 1 = cfg.maxTokens → pf.vocab.isEog x.2.2 = true)
  | _ => True

/-- The tokens kept for a request, against its count. -/
structure Kept (cfg : RuntimeConfig) (e : Tally) (s : ClientSession) : Prop where
  limit : e.tokens ≤ cfg.maxTokens
  prefill : s.state = .prefill → e.tokens = 0 ∧ s.generatedCount = 0
  decode : s.state = .decode → e.tokens = s.generatedCount + 1

section Limit

variable {pf : Platform} {cfg : RuntimeConfig} {d : Daemon} {fd : Int} {s s' t : ClientSession} {e e' : Tally}
  {nowNs : Nat} {reads : List ReadRes} {out : Decoded} {before : List BatchItem} {it : BatchItem}

instance : ∀ a, Decidable (EndsInTime pf cfg d a)
  | .tick _ _ => inferInstanceAs (Decidable (∀ x ∈ _, (_ → _) ∧ (_ → _ → _)))
  | .accept _ _ _ | .readable _ _ _ _ | .writable _ _ _ | .idle _ => inferInstanceAs (Decidable True)

theorem Kept.between (h : e.tokens ≤ cfg.maxTokens) (hb : s.state.busy = false) : Kept cfg e s where
  limit := h
  prefill := fun hst => by rw [hst] at hb; cases hb
  decode := fun hst => by rw [hst] at hb; cases hb

theorem Kept.still (h : Kept cfg e s) (ht : e'.tokens = e.tokens) (hst : t.state = s.state)
    (hg : t.generatedCount = s.generatedCount) : Kept cfg e' t := by
  refine ⟨by rw [ht]; exact h.limit, ?_, ?_⟩
  · rw [hst, ht, hg]; exact h.prefill
  · rw [hst, ht, hg]; exact h.decode

theorem tally_read_tokens_le (pf : Platform) (s : ClientSession) (nowNs : Nat) (reads : List ReadRes)
    (h : e.tokens ≤ cfg.maxTokens) : ((tally pf cfg).read s nowNs reads e).tokens ≤ cfg.maxTokens := by
  simp only [tally]
  split
  · exact h
  · exact Nat.zero_le _

theorem Kept.read {next : Int} (h : Kept cfg e s) :
    Kept cfg ((tally pf cfg).read s nowNs reads e) (s.read cfg pf.vocab nowNs next reads).session := by
  have hle := tally_read_tokens_le pf s nowNs reads h.limit
  have hr : Reading cfg pf.vocab nowNs next reads s _ := read_reading
  generalize s.read cfg pf.vocab nowNs next reads = o at hr ⊢
  cases hr with
  | quiet hp =>
    obtain ⟨rx, act, rc, -, heq⟩ := s.received_eq nowNs reads
    have hnote : (tally pf cfg).read s nowNs reads e = e := by simp only [tally, starts_none (frame?_eq_none hp)]
    rw [hnote, heq]
    exact h.still rfl rfl rfl
  | rejected | admin | empty => exact .between hle rfl
  | started hp ht hf hacc hne =>
    refine ⟨hle, fun _ => ⟨?_, rfl⟩, fun hst => by cases hst⟩
    simp only [tally, starts_some hf hacc hne]

theorem tally_tick_tokens (hs : d.find fd = some s) (hs' : (d.tick pf cfg nowNs out).find fd = some s') :
    ((tally pf cfg).tick d nowNs out fd e).tokens = if s.stores s' then e.tokens + 1 else e.tokens := by
  simp only [tally, hs, hs']

/-- **A tick that serves the session** keeps the count in step. -/
theorem Kept.served (h : Kept cfg e s) (hk : Keyed d.mgr.sessions) (hc : EndsInTime pf cfg d (.tick nowNs out))
    (hserves : Serves d.mgr.sessions (d.sched.items cfg d.mgr.sessions) fd s before it)
    (hserved : Served pf cfg nowNs out s it (sampleIndex d.mgr.sessions before s it) s')
    (ht : e'.tokens = if s.stores s' then e.tokens + 1 else e.tokens) : Kept cfg e' s' := by
  have hlimit := h.limit
  cases hserved with
  | failed =>
    rw [stores_same (by simp [ClientSession.decodeFailed, ClientSession.emit])] at ht
    exact .between (by rw [ht]; exact hlimit) rfl
  | noRow =>
    rw [stores_same (by rw [enacted_hist])] at ht
    exact h.still ht enacted_state enacted_generatedCount
  | first hrc hr hph =>
    obtain ⟨hzero, hcount⟩ := h.prefill (hserves.prefill hk hph).1
    have hpos := (hc _ (hserves.chosen hrc hr)).1 hph
    rw [stores_new (by simp [prefillSampled_eq]) (by simp [prefillSampled_eq]), if_pos rfl] at ht
    rw [prefillSampled_eq]
    refine ⟨by omega, fun hst => (by cases hst), fun _ => ?_⟩
    show e'.tokens = (s.enacted it).generatedCount + 1
    rw [enacted_generatedCount]
    omega
  | ended hrc hr hph hend =>
    rw [stores_dropped (by simp [finish_eq, ClientSession.enacted, hph])] at ht
    exact .between (by rw [ht]; exact hlimit) rfl
  | more hrc hr hph hend =>
    have hcount := h.decode (hserves.decode hk hph).1
    have hlast := (hc _ (hserves.chosen hrc hr)).2 hph
    simp only [ClientSession.atEnd, Bool.or_eq_false_iff, decide_eq_false_iff_not, enacted_generatedCount] at hend
    -- The token that would be one too many ends the response.
    have hne : s.generatedCount + 1 ≠ cfg.maxTokens := by
      intro heq
      have heog := hend.1
      rw [hlast heq] at heog
      cases heog
    rw [stores_new (by simp [decodeSampled_eq]) (by simp [decodeSampled_eq]), if_pos rfl] at ht
    rw [decodeSampled_eq]
    refine ⟨by omega, fun hst => (by cases hst), fun _ => ?_⟩
    show e'.tokens = (s.enacted it).generatedCount + 1 + 1
    rw [enacted_generatedCount]
    omega

/-- **The generation limit**, in every run in which `max_tokens` is not zero
and a session that has that many tokens samples an end: no request is given
more than `max_tokens` tokens. -/
theorem generation_limit {p : Daemon × (Int → Tally)}
    (h : ((tally pf cfg).daemon pf cfg).Reach (fun p => EndsInTime pf cfg p.1) p) (fd : Int) :
    (p.2 fd).tokens ≤ cfg.maxTokens := by
  refine Ledger.entries (P := fun e : Tally => e.tokens ≤ cfg.maxTokens) (Nat.zero_le _)
    (fun s nowNs reads e he => tally_read_tokens_le pf s nowNs reads he)
    (fun d nowNs out fd e hn he => by rw [tally_tick_none hn]; exact he) ?_ h fd
  intro p fd s hr hs
  refine (Ledger.request_invariant (I := Kept cfg) (fun _ _ => .between (Nat.zero_le _) rfl)
    (fun _ _ _ h => .between h.limit rfl) (fun _ _ _ _ h => h.still rfl rfl rfl) (fun _ _ h => .between h.limit rfl)
    (fun d g fd reads now nowNs s _ _ _ hi => hi.read) ?_ ?_ hr hs).limit
  · intro d g nowNs out fd s hr hs hs' hno hi
    refine hi.still ?_ rfl rfl
    rw [tally_tick_tokens hs hs', stores_same rfl]
    rfl
  · intro d g nowNs out fd s s' before it hr hc hs' hserves hserved hi
    exact hi.served (Ledger.owned hr).keyed hc hserves hserved (tally_tick_tokens hserves.lookup hs')

/-- One client, its prompt and the tokens the model chooses. -/
def generates (toks : List Nat) : List Action :=
  [.accept 7 [7] 1, .readable 7 (request "ab") .wouldBlock 2] ++ toks.map fun t => .tick 3 (choosing t)

/-- One token, and then the model ends: within a limit of one. -/
theorem generation_limit_one :
    (((tally small { maxTokens := 1 }).daemon small { maxTokens := 1 }).after
      ((tally small { maxTokens := 1 }).daemon small { maxTokens := 1 }).init (generates [1, 2])).2 7 =
        { prompt := 2, ticks := 2, tokens := 1 } ∧ 1 ≤ 1 := by
  have hr : ((tally small { maxTokens := 1 }).daemon small { maxTokens := 1 }).Reach
      (fun p => EndsInTime small { maxTokens := 1 } p.1)
      (((tally small { maxTokens := 1 }).daemon small { maxTokens := 1 }).after
        ((tally small { maxTokens := 1 }).daemon small { maxTokens := 1 }).init (generates [1, 2])) :=
    Lib.System.Reach.init.run (by decide +kernel)
  have hcount : (((tally small { maxTokens := 1 }).daemon small { maxTokens := 1 }).after
      ((tally small { maxTokens := 1 }).daemon small { maxTokens := 1 }).init (generates [1, 2])).2 7 =
      { prompt := 2, ticks := 2, tokens := 1 } := by decide +kernel
  have hle := generation_limit hr 7
  rw [hcount] at hle
  exact ⟨hcount, hle⟩

/-- A model that goes on is given two. -/
theorem generation_limit_over :
    ∃ p, ((tally small { maxTokens := 1 }).daemon small { maxTokens := 1 }).Reach Lib.Always p ∧
      (p.2 7).tokens = 2 ∧ (p.1.find 7).map (fun s => s.hist.window.events.length) = some 2 := by
  refine ⟨((tally small { maxTokens := 1 }).daemon small { maxTokens := 1 }).after
    ((tally small { maxTokens := 1 }).daemon small { maxTokens := 1 }).init (generates [1, 1]),
    Lib.System.Reach.init.run (by decide +kernel), by decide +kernel, by decide +kernel⟩

end Limit

/-! ## The end of a generation -/

/-- No token that ends a generation is sampled at the end of a prefill chunk. -/
def NoEarlyEnd (pf : Platform) (cfg : RuntimeConfig) (d : Daemon) : Action → Prop
  | .tick _ out => ∀ x ∈ d.chosen pf cfg out, x.2.1 = .prefill → pf.vocab.isEog x.2.2 = false
  | _ => True

/-- A token that ends the generation is the last one sampled, and was
answered with `eos`. -/
def EndsWithEos (vocab : Vocab) (w : Window) : Prop :=
  ∀ pre t post, w.sampled = pre ++ t :: post → vocab.isEog t = true →
    post = [] ∧ ∃ id reason, w.events.getLast? = some (.eos id reason)

structure Stops (vocab : Vocab) (s : ClientSession) : Prop where
  pending : s.hasPendingTok = true → vocab.isEog s.pendingTok = false
  events : ∀ id text t, Event.token id text t ∈ s.hist.events → vocab.isEog t = false
  goesOn : s.state.busy = true → ∀ t ∈ s.hist.window.sampled, vocab.isEog t = false
  ends : EndsWithEos vocab s.hist.window

section Stop

variable {pf : Platform} {cfg : RuntimeConfig} {d : Daemon} {fd : Int} {s s' : ClientSession} {nowNs : Nat}
  {out : Decoded} {before : List BatchItem} {it : BatchItem} {vocab : Vocab} {w : Window} {l pre post : List Token}
  {t u : Token}

instance : ∀ a, Decidable (NoEarlyEnd pf cfg d a)
  | .tick _ _ => inferInstanceAs (Decidable (∀ x ∈ _, _ → _))
  | .accept _ _ _ | .readable _ _ _ _ | .writable _ _ _ | .idle _ => inferInstanceAs (Decidable True)

theorem split_snoc (h : l ++ [t] = pre ++ u :: post) : post = [] ∧ t = u ∨ u ∈ l := by
  rcases List.eq_nil_or_concat post with rfl | ⟨post', x, rfl⟩
  · obtain ⟨-, hu⟩ := List.append_inj' h rfl
    exact .inl ⟨rfl, (List.cons.inj hu).1⟩
  · rw [List.concat_eq_append, ← List.cons_append, ← List.append_assoc] at h
    obtain ⟨hl, -⟩ := List.append_inj' h rfl
    rw [hl]
    exact .inr (by simp)

theorem EndsWithEos.of_none (h : ∀ t ∈ w.sampled, vocab.isEog t = false) : EndsWithEos vocab w := by
  intro pre t post hsplit ht
  rw [h t (by rw [hsplit]; simp)] at ht
  cases ht

theorem EndsWithEos.snoc (h : ∀ t ∈ l, vocab.isEog t = false) (hw : w.sampled = l ++ [t])
    (he : ∃ id reason, w.events.getLast? = some (.eos id reason)) : EndsWithEos vocab w := by
  intro pre u post hsplit hu
  rcases split_snoc (hw.symm.trans hsplit) with ⟨hpost, -⟩ | hmem
  · exact ⟨hpost, he⟩
  · rw [h u hmem] at hu
    cases hu

theorem pieceEvents_token {id id' text : Bytes} (h : Event.token id' text u ∈ pieceEvents vocab id t) : u = t := by
  unfold pieceEvents at h
  dsimp only at h
  split at h
  · cases h
  · rw [List.mem_singleton] at h
    exact (Event.token.inj h).2.2

/-- A sampled token that does not end the generation. -/
theorem Stops.sampled (h : Stops vocab s) (hb : s.state.busy = true) (ht : vocab.isEog t = false)
    (hp : s'.pendingTok = t) (hev : s'.hist.events = s.hist.events ++ pieceEvents vocab s.requestId t)
    (hsam : s'.hist.window.sampled = s.hist.window.sampled ++ [t]) : Stops vocab s' := by
  have hnone : ∀ u ∈ s'.hist.window.sampled, vocab.isEog u = false := by
    intro u hu
    rw [hsam, List.mem_append, List.mem_singleton] at hu
    rcases hu with hu | rfl
    · exact h.goesOn hb u hu
    · exact ht
  refine ⟨fun _ => by rw [hp]; exact ht, ?_, fun _ => hnone, .of_none hnone⟩
  intro id text u hu
  rw [hev, List.mem_append] at hu
  rcases hu with hu | hu
  · exact h.events id text u hu
  · rw [pieceEvents_token hu]
    exact ht

theorem enacted_pending : (s.enacted it).pendingTok = s.pendingTok ∧
    ((s.enacted it).hasPendingTok = true → s.hasPendingTok = true) := by
  unfold ClientSession.enacted
  split
  · exact ⟨rfl, fun h => by cases h⟩
  · exact ⟨rfl, id⟩

/-- Nothing is sampled, no token event appended, and no token in the window
has ended it. -/
theorem Stops.unsampled (new : List Event) (h : Stops vocab s) (hp : s'.pendingTok = s.pendingTok)
    (hpend : s'.hasPendingTok = true → s.hasPendingTok = true) (hev : s'.hist.events = s.hist.events ++ new)
    (hnew : ∀ e ∈ new, e.isToken = false) (hnone : ∀ u ∈ s'.hist.window.sampled, vocab.isEog u = false) :
    Stops vocab s' := by
  refine ⟨fun hp' => ?_, fun id text u hu => ?_, fun _ => hnone, .of_none hnone⟩
  · rw [hp]
    exact h.pending (hpend hp')
  · rw [hev, List.mem_append] at hu
    rcases hu with hu | hu
    · exact h.events id text u hu
    · cases hnew _ hu

/-- **A tick that serves the session** leaves no end-of-generation token
behind, if it does not sample one too early. -/
theorem Stops.served (h : Stops pf.vocab s) (hk : Keyed d.mgr.sessions)
    (hc : NoEarlyEnd pf cfg d (.tick nowNs out))
    (hserves : Serves d.mgr.sessions (d.sched.items cfg d.mgr.sessions) fd s before it)
    (hserved : Served pf cfg nowNs out s it (sampleIndex d.mgr.sessions before s it) s') : Stops pf.vocab s' := by
  have hb := hserves.busy hk
  have hnone := h.goesOn hb
  cases hserved with
  | failed =>
    have hsam : (s.enacted it).decodeFailed.hist.window.sampled = s.hist.window.sampled := by
      simp [ClientSession.decodeFailed, ClientSession.emit]
    refine h.unsampled [.error s.requestId (bytes "E_RUNTIME_DECODE") (bytes "decode failed")] enacted_pending.1
      enacted_pending.2 ?_ (by simp [Event.isToken]) (by rw [hsam]; exact hnone)
    simp [ClientSession.decodeFailed, ClientSession.emit]
  | noRow =>
    refine h.unsampled [] enacted_pending.1 enacted_pending.2 ?_ (by simp) (by rw [enacted_hist]; exact hnone)
    rw [enacted_hist, List.append_nil]
  | first hrc hr hph =>
    refine h.sampled hb (hc _ (hserves.chosen hrc hr) hph) ?_ ?_ ?_
    · simp [prefillSampled_eq]
    · simp [prefillSampled_eq]
    · simp [prefillSampled_eq]
  | ended hrc hr hph hend =>
    rw [finish_eq]
    refine ⟨fun hp => ?_, ?_, fun hb => (by cases hb), ?_⟩
    · simp [ClientSession.enacted, hph] at hp
    · intro id text u hu
      refine h.events id text u ?_
      simpa [eosEvent] using hu
    · exact .snoc hnone (by rw [enacted_hist]) ⟨_, _, List.getLast?_concat⟩
  | more hrc hr hph hend =>
    rw [ClientSession.atEnd, Bool.or_eq_false_iff] at hend
    refine h.sampled hb hend.1 ?_ ?_ ?_
    · simp [decodeSampled_eq]
    · simp [decodeSampled_eq]
    · simp [decodeSampled_eq]

theorem stops_of_reach (h : (umad pf cfg).Reach (NoEarlyEnd pf cfg) d) (hs : d.find fd = some s) :
    Stops pf.vocab s := by
  refine session_invariant (I := Stops pf.vocab) (fun fd nowNs => ?_) ?_ h hs
  · exact ⟨fun hp => (by cases hp), fun _ _ _ hu => (by cases hu), fun hb => (by cases hb), .of_none (by simp)⟩
  intro d a fd next s s' r w r' w' hr hc hs hmove hi
  cases hmove with
  | same | idled => exact hi
  | @quiet reads now nowNs =>
    obtain ⟨rx, act, rc, -, heq⟩ := s.received_eq nowNs reads
    rw [heq]
    exact ⟨hi.pending, hi.events, hi.goesOn, hi.ends⟩
  -- A frame opens a new window, and what it appends is no token event.
  | @rejected _ _ _ _ _ _ _ id code message _ _ ht =>
    obtain ⟨rx, act, rc, id', temp, p, k, -, rfl⟩ := ht
    exact hi.unsampled [.error id code message] rfl (fun h => h) rfl (by simp [Event.isToken]) (fun _ h => by cases h)
  | @metrics _ _ _ _ _ _ _ _ json _ _ ht =>
    obtain ⟨rx, act, rc, id', temp, p, k, -, rfl⟩ := ht
    exact hi.unsampled [.metrics json] rfl (fun h => h) rfl (by simp [Event.isToken]) (fun _ h => by cases h)
  | empty _ ht =>
    obtain ⟨rx, act, rc, id', temp, p, k, -, rfl⟩ := ht
    exact hi.unsampled [.eos id' (bytes "stop")] rfl (fun h => h) rfl (by simp [Event.isToken]) (fun _ h => by cases h)
  | emptied _ ht =>
    obtain ⟨rx, act, rc, id', temp, p, k, -, rfl⟩ := ht
    exact hi.unsampled [.eos id' (bytes "stop")] rfl (fun h => by cases h) rfl (by simp [Event.isToken])
      (fun _ h => by cases h)
  | started _ ht =>
    obtain ⟨rx, act, rc, id', temp, p, k, -, rfl⟩ := ht
    exact hi.unsampled [] rfl (fun h => by cases h) (List.append_nil _).symm (by simp) (fun _ h => by cases h)
  | sent | drained => exact ⟨hi.pending, hi.events, hi.goesOn, hi.ends⟩
  | finished => exact ⟨fun hp => (by cases hp), hi.events, fun hb => (by cases hb), hi.ends⟩
  | served hserves hserved => exact hi.served (owned_of_reach hr).keyed hc hserves hserved

/-- The tick that samples a token that ends the generation, not too early,
answers with `eos` and nothing else. -/
theorem Served.eog (hc : NoEarlyEnd pf cfg d (.tick nowNs out))
    (hserves : Serves d.mgr.sessions (d.sched.items cfg d.mgr.sessions) fd s before it)
    (hserved : Served pf cfg nowNs out s it (sampleIndex d.mgr.sessions before s it) s')
    (hsam : s'.hist.window.sampled = s.hist.window.sampled ++ [t]) (ht : pf.vocab.isEog t = true) :
    s'.state = .stream ∧ s'.hasPendingTok = false ∧
      ∃ reason, s'.hist.events = s.hist.events ++ [.eos s.requestId reason] := by
  cases hserved with
  | failed => simp [ClientSession.decodeFailed, ClientSession.emit] at hsam
  | noRow => simp at hsam
  | first hrc hr hph =>
    simp only [prefillSampled_eq, enacted_hist, List.append_cancel_left_eq, List.cons.injEq, and_true] at hsam
    have hno := hc _ (hserves.chosen hrc hr) hph
    dsimp only at hno
    rw [hsam, ht] at hno
    cases hno
  | ended hrc hr hph hend =>
    rw [finish_eq]
    refine ⟨rfl, by simp [ClientSession.enacted, hph],
      if cfg.maxTokens ≤ (s.enacted it).generatedCount then bytes "length" else bytes "stop", ?_⟩
    simp only [enacted_hist, eosEvent, enacted_requestId]
  | more hrc hr hph hend =>
    simp only [decodeSampled_eq, enacted_hist, List.append_cancel_left_eq, List.cons.injEq, and_true] at hsam
    rw [ClientSession.atEnd, Bool.or_eq_false_iff, hsam, ht] at hend
    cases hend.1

/-- **Generation stops at the first token that ends it**, in every run that
samples none at the end of a prefill chunk. On every connection, no token
event is for such a token and none is fed back; among the tokens sampled for
a request one comes last or not at all, with `eos` the last event and the
request no longer in flight; and the tick that samples it appends `eos` and
nothing else. -/
theorem stops_at_eog (h : (umad pf cfg).Reach (NoEarlyEnd pf cfg) d) (hs : d.find fd = some s) :
    (∀ id text t, Event.token id text t ∈ s.hist.events → pf.vocab.isEog t = false) ∧
    (s.hasPendingTok = true → pf.vocab.isEog s.pendingTok = false) ∧
    (∀ pre t post, s.hist.window.sampled = pre ++ t :: post → pf.vocab.isEog t = true →
      post = [] ∧ s.state.busy = false ∧ ∃ id reason, s.hist.window.events.getLast? = some (.eos id reason)) ∧
    ∀ nowNs out s' t, NoEarlyEnd pf cfg d (.tick nowNs out) → (d.tick pf cfg nowNs out).find fd = some s' →
      s'.hist.window.sampled = s.hist.window.sampled ++ [t] → pf.vocab.isEog t = true →
      s'.state = .stream ∧ s'.hasPendingTok = false ∧
        ∃ reason, s'.hist.events = s.hist.events ++ [.eos s.requestId reason] := by
  have hstops := stops_of_reach h hs
  refine ⟨hstops.events, hstops.pending, ?_, ?_⟩
  · intro pre t post hsplit ht
    obtain ⟨hpost, heos⟩ := hstops.ends pre t post hsplit ht
    refine ⟨hpost, ?_, heos⟩
    by_contra hb
    have hno := hstops.goesOn (by simpa using hb) t (by rw [hsplit]; simp)
    rw [hno] at ht
    cases ht
  · intro nowNs out s' t hc hs' hsam ht
    have hk := (owned_of_reach h).keyed
    rw [Daemon.tick_find] at hs'
    rcases tick_session hk hs hs' with ⟨rfl, -⟩ | ⟨before, it, hserves, hserved⟩
    · simp at hsam
    · exact hserved.eog hc hserves hsam ht

/-- A token and then the end: the end comes last. -/
theorem stops_at_eog_second :
    ∃ s, ((umad small {}).after (umad small {}).init (generates [1, 2])).find 7 = some s ∧
      s.hist.window.sampled = [1] ++ 2 :: [] ∧ s.state.busy = false ∧
      ∃ id reason, s.hist.window.events.getLast? = some (.eos id reason) := by
  have hst : (((umad small {}).after (umad small {}).init (generates [1, 2])).find 7).map
      (fun s => s.hist.window.sampled) = some [1, 2] := by decide +kernel
  obtain ⟨s, hs, hsam⟩ := Option.map_eq_some_iff.mp hst
  have hr : (umad small {}).Reach (NoEarlyEnd small {})
      ((umad small {}).after (umad small {}).init (generates [1, 2])) :=
    Lib.System.Reach.init.run (by decide +kernel)
  obtain ⟨-, hbusy, heos⟩ := (stops_at_eog hr hs).2.2.1 [1] 2 [] hsam (by decide)
  exact ⟨s, hs, hsam, hbusy, heos⟩

/-- A model that ends at once: the session goes on, with a token event for
the end and the end as the next token to feed. -/
theorem stops_at_eog_first :
    ∃ d, (umad small {}).Reach Lib.Always d ∧ ∃ s, d.find 7 = some s ∧ s.hist.window.sampled = [2] ∧
      small.vocab.isEog 2 = true ∧ s.state = .decode ∧ s.hasPendingTok = true ∧ s.pendingTok = 2 ∧
      s.hist.window.events.map Event.isToken = [true] := by
  refine ⟨(umad small {}).after (umad small {}).init (generates [2]), Lib.System.Reach.init.run (by decide +kernel), ?_⟩
  have hst : (((umad small {}).after (umad small {}).init (generates [2])).find 7).map (fun s =>
      (s.hist.window.sampled, s.state, s.hasPendingTok, s.pendingTok, s.hist.window.events.map Event.isToken)) =
      some ([2], .decode, true, 2, [true]) := by decide +kernel
  obtain ⟨s, hs, hst⟩ := Option.map_eq_some_iff.mp hst
  simp only [Prod.mk.injEq] at hst
  exact ⟨s, hs, hst.1, by decide, hst.2.1, hst.2.2.1, hst.2.2.2.1, hst.2.2.2.2⟩

end Stop
end UmaServe

/-
What the memory holds for a session. `Tracks` ties the list of tokens under
a session's sequence to its fields: the part of the prompt that was fed, the
tokens sampled since, and the one that is pending. Every run of clients that
let a request finish keeps it, whatever llama.cpp returns
(`tracks_of_reach`); where every call succeeds it gives the positions of the
batch (`kv_positions`).
-/
import UmaServe.Umad.Responses

namespace UmaServe

/-! ## Invariants of a session and its list -/

section Rule

variable {pf : Platform} {cfg : RuntimeConfig} {d : Daemon} {a : Action} {fd : Int} {s s' : ClientSession}

theorem Owned.unheld (h : Owned d) {q : Int} (hq : q < 0) : d.memory q = [] := by
  by_contra hne
  obtain ⟨_, _, _, _, h0⟩ := h.held q hne
  omega

/-- Outside the tick, a session finds under its sequence what it had there
before, even when the sequence is new. -/
theorem Owned.step_held_by (h : Owned d) (he : d.Enabled pf cfg a) (ha : ∀ nowNs out, a ≠ .tick nowNs out)
    (hs : d.find fd = some s) (hs' : (d.step pf cfg a).find fd = some s') :
    (d.step pf cfg a).memory s'.seq = d.memory s.seq := by
  have hsome : (d.step pf cfg a).find fd ≠ none := by rw [hs']; simp
  rcases h.ids he hs' with ⟨hn, -⟩ | ⟨t, ht, -, hseq, -⟩ | ⟨t, _, _, _, ht, -, hneg, hseq, -⟩
  · rw [hs] at hn; cases hn
  · obtain rfl : s = t := Option.some.inj (hs.symm.trans ht)
    rw [hseq, h.step_memory he ha hs, if_neg hsome]
  · obtain rfl : s = t := Option.some.inj (hs.symm.trans ht)
    -- Nobody had the counter's value, so nothing was under it.
    have hfree : ∀ k u, d.find k = some u → u.seq ≠ s'.seq := by
      intro k u hu hq
      have hn := h.next
      rcases h.range k u hu with hr | hr <;> omega
    have hold : d.memory s'.seq = [] := by
      by_contra hne
      obtain ⟨k, u, hu, hq, -⟩ := h.held _ hne
      exact hfree k u hu hq
    rw [h.unheld hneg, (step_removes he ha).kept, hold]
    intro ⟨k, u, hu, _, hq, _⟩
    exact hfree k u hu hq

theorem Owned.idled_held (h : Owned d) {nowNs : Nat} {out : Decoded} (hs : d.find fd = some s)
    (hno : ∀ it ∈ d.sched.items cfg d.mgr.sessions, it.fd = fd → itemRows s it = []) :
    (d.ticked pf cfg nowNs out).memory s.seq = d.memory s.seq := by
  by_cases h0 : 0 ≤ s.seq
  · refine tick_memory_idle h.keyed (h.soleOwner hs h0) fun it hit hfd t ht => ?_
    rw [show d.mgr.sessions.lookup fd = some s from hs] at ht
    cases ht
    exact hno it hit hfd
  · -- A session without a sequence shares `-1` with others, none of which has a row.
    refine tick_memory_other h.keyed fun k t before it hserves hq => ?_
    have hpos := h.busy k t hserves.lookup (hserves.busy h.keyed)
    omega

/-- The invariant rule for what holds of each session and the list under its
sequence. A tick is looked at only where it serves the session. -/
theorem memory_invariant {C : Daemon → Action → Prop} {I : List Token → ClientSession → Prop}
    (h₀ : ∀ fd nowNs, I [] { fd, lastActivityNs := nowNs })
    (hs : ∀ d a fd next s s' r w r' w', (umad pf cfg).Reach C d → C d a → (∀ nowNs out, a ≠ .tick nowNs out) →
      d.find fd = some s → Move pf cfg d next fd a ⟨some s, r, w⟩ ⟨some s', r', w'⟩ →
      I (d.memory s.seq) s → I (d.memory s.seq) s')
    (ht : ∀ d nowNs out fd s s' before it, (umad pf cfg).Reach C d → C d (.tick nowNs out) →
      Serves d.mgr.sessions (d.sched.items cfg d.mgr.sessions) fd s before it →
      Served pf cfg nowNs out s it (sampleIndex d.mgr.sessions before s it) s' →
      (d.ticked pf cfg nowNs out).sessions.lookup fd = some s' →
      I (d.memory s.seq) s → I ((d.ticked pf cfg nowNs out).memory s.seq) s')
    (h : (umad pf cfg).Reach C d) (hf : d.find fd = some s) : I (d.memory s.seq) s := by
  refine h.invariant (I := fun d => ∀ fd s, d.find fd = some s → I (d.memory s.seq) s) (fun fd s hs => by cases hs) ?_
    fd s hf
  intro d a hr hi he hc fd s' hs'
  change d.Enabled pf cfg a at he
  change (d.step pf cfg a).find fd = some s' at hs'
  show I ((d.step pf cfg a).memory s'.seq) s'
  have ho := owned_of_reach hr
  by_cases ha : ∃ nowNs out, a = .tick nowNs out
  · obtain ⟨nowNs, out, rfl⟩ := ha
    rw [Daemon.step, Daemon.tick_find] at hs'
    rw [Daemon.step, Daemon.tick_memory]
    obtain ⟨s, hs₀, ⟨rfl, hno⟩ | ⟨before, it, hserves, hserved⟩⟩ := tick_cases ho.keyed hs'
    · rw [ho.idled_held hs₀ hno]
      exact hi fd s' hs₀
    · rw [hserved.ids.2]
      exact ht d nowNs out fd s s' before it hr hc hserves hserved hs' (hi fd s hs₀)
  · have ha' : ∀ nowNs out, a ≠ .tick nowNs out := fun nowNs out h => ha ⟨nowNs, out, h⟩
    have hmove := step_move ho.keyed he fd
    simp only [Daemon.view, hs'] at hmove
    cases hs₀ : d.find fd with
    | some s =>
      rw [hs₀] at hmove
      rw [ho.step_held_by he ha' hs₀ hs']
      exact hs d a fd _ s s' _ _ _ _ hr hc ha' hs₀ hmove (hi fd s hs₀)
    | none =>
      rw [hs₀] at hmove
      -- Only an accept makes a session, and it has no sequence yet.
      generalize (d.step pf cfg a).poller.read fd = r' at hmove
      generalize (d.step pf cfg a).poller.write fd = w' at hmove
      have hfree := (ho.step he).unheld (q := -1) (by omega)
      cases hmove with
      | accepted =>
        show I ((d.step pf cfg _).memory (-1)) _
        rw [hfree]
        exact h₀ _ _

end Rule

/-! ## The list of a session -/

/-- What is under the sequence of `s`: nothing between requests; the part of
the prompt that was fed; and, once a token is pending, the fed part and the
tokens sampled up to it. -/
structure Tracks (held : List Token) (s : ClientSession) : Prop where
  idle : s.state.busyOrErrored = false → held = []
  prefill : s.state = .prefill → held = s.promptTokens.take s.prefillIdx ∧ s.prefillIdx ≤ s.promptTokens.length ∧
    s.nPast = s.prefillIdx ∧ s.hist.window.sampled = []
  decode : s.state = .decode → s.hist.window.fed = s.promptTokens.take s.prefillIdx ∧
    (s.hasPendingTok = true → held ++ [s.pendingTok] = s.hist.window.fed ++ s.hist.window.sampled ∧
      s.nPast = held.length)

section Tracks

variable {pf : Platform} {cfg : RuntimeConfig} {d : Daemon} {fd : Int} {s s' : ClientSession} {held held' : List Token}
  {before : List BatchItem} {it : BatchItem}

theorem take_append_chunk (l : List Token) {i n : Nat} (h : i + n ≤ l.length) :
    l.take i ++ (List.range n).map (fun j => l.getD (i + j) 0) = l.take (i + n) := by
  induction n with
  | zero => simp
  | succ n ih =>
    have hlt : i + n < l.length := by omega
    rw [List.range_succ, List.map_append, ← List.append_assoc, ih (by omega), ← Nat.add_assoc,
      List.take_succ_eq_append_getElem hlt]
    simp [hlt]

theorem itemRows_token_prefill (hph : it.phase = .prefill) :
    (itemRows s it).map Row.token =
      (List.range it.nTokens.toNat).map fun j => s.promptTokens.getD (s.prefillIdx + j) 0 := by
  simp [itemRows, hph]

theorem itemRows_token_decode (hph : it.phase = .decode) : (itemRows s it).map Row.token = [s.pendingTok] := by
  simp [itemRows, hph]

/-- A session whose list and whose fields for it are as they were. -/
theorem Tracks.still (h : Tracks held s) (hst : s'.state = s.state) (hp : s'.promptTokens = s.promptTokens)
    (hi : s'.prefillIdx = s.prefillIdx) (hn : s'.nPast = s.nPast) (hpend : s'.hasPendingTok = s.hasPendingTok)
    (htok : s'.pendingTok = s.pendingTok) (hh : s'.hist = s.hist) : Tracks held s' := by
  constructor
  · rw [hst]; exact h.idle
  · rw [hst, hp, hi, hn, hh]; exact h.prefill
  · rw [hst, hp, hi, hn, hpend, htok, hh]; exact h.decode

theorem Tracks.between (hheld : held = []) (hb : s'.state.busy = false) : Tracks held s' where
  idle := fun _ => hheld
  prefill := fun hst => by rw [hst] at hb; cases hb
  decode := fun hst => by rw [hst] at hb; cases hb

/-- A session in `PREFILL`. -/
theorem Tracks.feeding (hst : s'.state = .prefill) (hheld : held = s'.promptTokens.take s'.prefillIdx)
    (hidx : s'.prefillIdx ≤ s'.promptTokens.length) (hpast : s'.nPast = s'.prefillIdx)
    (hsam : s'.hist.window.sampled = []) : Tracks held s' where
  idle := fun hb => by rw [hst] at hb; cases hb
  prefill := fun _ => ⟨hheld, hidx, hpast, hsam⟩
  decode := fun hd => by rw [hst] at hd; cases hd

/-- A session in `DECODE`. -/
theorem Tracks.decoding (hst : s'.state = .decode) (hfed : s'.hist.window.fed = s'.promptTokens.take s'.prefillIdx)
    (hpend : s'.hasPendingTok = true → held ++ [s'.pendingTok] = s'.hist.window.fed ++ s'.hist.window.sampled ∧
      s'.nPast = held.length) : Tracks held s' where
  idle := fun hb => by rw [hst] at hb; cases hb
  prefill := fun hp => by rw [hst] at hp; cases hp
  decode := fun _ => ⟨hfed, hpend⟩

/-- **A tick that serves the session** keeps its list and its fields in
step, whatever llama.cpp returned. -/
theorem Tracks.served {nowNs : Nat} {out : Decoded} {i : Nat} (h : Tracks held s) (hk : Keyed d.mgr.sessions)
    (hserves : Serves d.mgr.sessions (d.sched.items cfg d.mgr.sessions) fd s before it)
    (hserved : Served pf cfg nowNs out s it i s')
    (hm : out.rc = 0 → held' = if s'.state = .stream then [] else held ++ (itemRows s it).map Row.token) :
    Tracks held' s' := by
  cases hserved with
  | failed => exact ⟨fun hst => (by cases hst), fun hst => (by cases hst), fun hst => (by cases hst)⟩
  | noRow hrc =>
    specialize hm hrc
    cases hph : it.phase with
    | prefill =>
      obtain ⟨hst, -, hpos, hle⟩ := hserves.prefill hk hph
      obtain ⟨hheld, hidx, hpast, hsam⟩ := h.prefill hst
      unfold ClientSession.remaining at hle
      have hst' : (s.enacted it).state = .prefill := by rw [enacted_state, hst]
      rw [if_neg (by rw [hst']; simp), itemRows_token_prefill hph, hheld, take_append_chunk _ (by omega)] at hm
      refine .feeding hst' ?_ ?_ ?_ (by rw [enacted_hist, hsam])
      · simpa only [ClientSession.enacted, hph] using hm
      · simp only [ClientSession.enacted, hph]
        omega
      · simp only [ClientSession.enacted, hph]
        omega
    | decode =>
      obtain ⟨hst, -⟩ := hserves.decode hk hph
      refine .decoding (by rw [enacted_state, hst]) ?_ fun hpend => ?_
      · simpa only [ClientSession.enacted, hph] using (h.decode hst).1
      · simp only [ClientSession.enacted, hph] at hpend
        cases hpend
  | @first row hrc hr hph =>
    specialize hm hrc
    obtain ⟨hst, -, hpos, hle⟩ := hserves.prefill hk hph
    obtain ⟨hheld, hidx, hpast, hsam⟩ := h.prefill hst
    unfold ClientSession.remaining at hle
    rw [prefillSampled_eq] at hm ⊢
    rw [if_neg (by simp), itemRows_token_prefill hph, hheld, take_append_chunk _ (by omega)] at hm
    refine .decoding rfl rfl fun _ => ?_
    simp only [ClientSession.enacted, hph, hm, hsam, List.nil_append, true_and, List.length_take]
    omega
  | ended hrc hr hph hend =>
    specialize hm hrc
    exact .between (hm.trans (if_pos rfl)) rfl
  | @more row hrc hr hph hend =>
    specialize hm hrc
    obtain ⟨hst, hpend⟩ := hserves.decode hk hph
    obtain ⟨hfed, hdec⟩ := h.decode hst
    obtain ⟨hheld, hpast⟩ := hdec hpend
    have hlen := congrArg List.length hheld
    rw [decodeSampled_eq] at hm ⊢
    rw [if_neg (by simp), itemRows_token_decode hph, hheld] at hm
    refine .decoding rfl (by simpa only [ClientSession.enacted, hph] using hfed) fun _ => ?_
    simp only [ClientSession.enacted, hph, hm, List.append_assoc, true_and]
    simp only [List.length_append, List.length_cons, List.length_nil] at hlen ⊢
    omega

/-- Outside the tick, only a frame changes what a session says of its list,
and it finds the list empty. -/
theorem Tracks.move {a : Action} {next : Int} {r w r' w' : Bool} (h : Tracks held s)
    (hc : Polite SessionState.busyOrErrored d a) (ha : ∀ nowNs out, a ≠ .tick nowNs out) (hs : d.find fd = some s)
    (hmove : Move pf cfg d next fd a ⟨some s, r, w⟩ ⟨some s', r', w'⟩) : Tracks held s' := by
  have hidle : ∀ reads now nowNs, a = .readable fd reads now nowNs → s.parses nowNs reads = true → held = [] := by
    intro reads now nowNs rfl' hp
    refine h.idle ?_
    subst rfl'
    by_contra hb
    rw [hc s hs (by simpa using hb)] at hp
    cases hp
  cases hmove with
  | same => exact h
  | @quiet reads now nowNs =>
    obtain ⟨rx, act, rc, -, heq⟩ := s.received_eq nowNs reads
    rw [heq]
    exact h.still rfl rfl rfl rfl rfl rfl rfl
  | rejected hp | metrics hp | empty hp | emptied hp => exact .between (hidle _ _ _ rfl hp) rfl
  | started hp =>
    exact .feeding rfl (hidle _ _ _ rfl hp) (Nat.zero_le _) rfl rfl
  | sent | drained => exact h.still rfl rfl rfl rfl rfl rfl rfl
  | finished hst => exact .between (h.idle (by rw [hst]; rfl)) rfl
  | idled | served => exact absurd rfl (ha _ _)

/-- **The memory tracks every session**, in every run in which no frame is
parsed on a session with a request in flight or a failed decode. -/
theorem tracks_of_reach (h : (umad pf cfg).Reach (Polite SessionState.busyOrErrored) d) (hs : d.find fd = some s) :
    Tracks (d.memory s.seq) s := by
  refine memory_invariant (fun fd nowNs => .between rfl rfl) ?_ ?_ h hs
  · intro d a fd next s s' r w r' w' _ hc ha hs hmove hi
    exact hi.move hc ha hs hmove
  · intro d nowNs out fd s s' before it hr _ hserves hserved hl hi
    have ho := owned_of_reach hr
    have hpos := ho.busy fd s hserves.lookup (hserves.busy ho.keyed)
    exact hi.served ho.keyed hserves hserved fun hrc =>
      tick_memory_served ho.keyed hserves (ho.soleOwner hserves.lookup (by omega)) hrc hl

end Tracks

/-! ## The positions of the batch -/

/-- The positions of the rows of a sequence, in batch order. -/
def Batch.positions (b : Batch) (q : Int) : List Int :=
  (((b.seqIds.map fun i => b.seqIdVals.getD i 0).zip b.pos).filter fun r => r.1 == q).map Prod.snd

/-- A tick decodes, and gets every row of logits it asked for. -/
def Answered (cfg : RuntimeConfig) (d : Daemon) : Action → Prop
  | .tick _ out => out.rc = 0 ∧ ∀ i < (d.batch cfg).logits.length, (d.batch cfg).logits.getD i false = true →
      (out.rows i).isSome = true
  | _ => True

/-- One request at a time, and every decode answered. -/
def Orderly (cfg : RuntimeConfig) (d : Daemon) (a : Action) : Prop := Polite SessionState.busy d a ∧ Answered cfg d a

section Positions

variable {pf : Platform} {cfg : RuntimeConfig} {d : Daemon} {fd : Int} {s s' : ClientSession} {before : List BatchItem}
  {it : BatchItem}

instance : ∀ a, Decidable (Answered cfg d a)
  | .tick _ _ => inferInstanceAs (Decidable (_ ∧ ∀ i < _, _))
  | .accept _ _ _ | .readable _ _ _ _ | .writable _ _ _ | .idle _ => inferInstanceAs (Decidable True)

instance : ∀ a, Decidable (Orderly cfg d a) := fun _ => inferInstanceAs (Decidable (_ ∧ _))

theorem ofRows_positions (rs : List Row) (q : Int) :
    (Batch.ofRows rs).positions q = (rs.filter fun r => r.seq == q).map Row.pos := by
  have hzip : ((Batch.ofRows rs).seqIds.map fun i => (Batch.ofRows rs).seqIdVals.getD i 0).zip (Batch.ofRows rs).pos =
      rs.map fun r => (r.seq, r.pos) := by
    refine List.ext_getElem (by simp [Batch.ofRows]) fun i h₁ h₂ => ?_
    have hi : i < rs.length := by simpa using h₂
    simp [Batch.ofRows, hi]
  rw [Batch.positions, hzip, List.filter_map, List.map_map]
  rfl

theorem Answered.row {nowNs : Nat} {out : Decoded} (h : Answered cfg d (.tick nowNs out)) (hk : Keyed d.mgr.sessions)
    (hserves : Serves d.mgr.sessions (d.sched.items cfg d.mgr.sessions) fd s before it) :
    ∃ row, out.rows (sampleIndex d.mgr.sessions before s it) = some row := by
  obtain ⟨hlt, hlog⟩ := batch_logits_asked hk hserves
  exact Option.isSome_iff_exists.mp (h.2 _ hlt hlog)

/-- Where every call succeeds, a session is never `ERRORED`, and one in
`DECODE` has its next token. -/
theorem orderly_pending (h : (umad pf cfg).Reach (Orderly cfg) d) (hs : d.find fd = some s) :
    s.state ≠ .errored ∧ (s.state = .decode → s.hasPendingTok = true) := by
  refine session_invariant (I := fun s => s.state ≠ .errored ∧ (s.state = .decode → s.hasPendingTok = true))
    (by simp) ?_ h hs
  intro d a fd next s s' r w r' w' hr hc hs hmove hi
  cases hmove with
  | same | sent | drained | idled => exact hi
  | rejected | metrics | empty | emptied | started | finished =>
    exact ⟨fun hst => (by cases hst), fun hst => (by cases hst)⟩
  | @quiet reads now nowNs =>
    obtain ⟨rx, act, rc, -, heq⟩ := s.received_eq nowNs reads
    rw [heq]
    exact hi
  | served hserves hserved =>
    obtain ⟨row, hrow⟩ := hc.2.row (owned_of_reach hr).keyed hserves
    cases hserved with
    | failed hrc => exact absurd hc.2.1 hrc
    | noRow _ hnone => rw [hrow] at hnone; cases hnone
    | first => simp [prefillSampled_eq]
    | ended => simp [finish_eq]
    | more => simp [decodeSampled_eq]

theorem orderly_polite (h : (umad pf cfg).Reach (Orderly cfg) d) :
    (umad pf cfg).Reach (Polite SessionState.busyOrErrored) d := by
  refine h.mono fun d a hr _ hc => ?_
  cases a with
  | readable fd reads now nowNs =>
    intro s hs hb
    have hne := (orderly_pending hr hs).1
    refine hc.1 s hs ?_
    cases hst : s.state <;> simp_all [SessionState.busy, SessionState.busyOrErrored]
  | accept | writable | idle | tick => trivial

theorem orderly_nPast (h : (umad pf cfg).Reach (Orderly cfg) d) (hs : d.find fd = some s) (hb : s.state.busy = true) :
    s.nPast = (d.memory s.seq).length := by
  have ht := tracks_of_reach (orderly_polite h) hs
  cases hst : s.state with
  | prefill =>
    obtain ⟨hheld, hidx, hpast, -⟩ := ht.prefill hst
    rw [hpast, hheld, List.length_take, Nat.min_eq_left hidx]
  | decode => exact ((ht.decode hst).2 ((orderly_pending h hs).2 hst)).2
  | recvReq | stream | done | errored => rw [hst] at hb; cases hb

/-- The rows of a sequence are those of the item that serves its session, if
one does. -/
theorem Owned.rows_of_seq (h : Owned d) (cfg : RuntimeConfig) (q : Int) :
    ((planRows d.mgr.sessions (d.sched.items cfg d.mgr.sessions)).filter fun r => r.seq == q) = [] ∨
      ∃ fd s it, d.find fd = some s ∧ s.state.busy = true ∧ s.seq = q ∧
        ((planRows d.mgr.sessions (d.sched.items cfg d.mgr.sessions)).filter fun r => r.seq == q) = itemRows s it := by
  by_cases hq : ∃ fd s before it, Serves d.mgr.sessions (d.sched.items cfg d.mgr.sessions) fd s before it ∧ s.seq = q
  · obtain ⟨fd, s, before, it, hserves, rfl⟩ := hq
    have hb := hserves.busy h.keyed
    have hpos := h.busy fd s hserves.lookup hb
    have hsole := h.soleOwner hserves.lookup (by omega)
    exact .inr ⟨fd, s, it, hserves.lookup, hb, rfl, (hserves.rows_of_seq (plan_ok h.keyed d.sched cfg).nodup hsole).1⟩
  · refine .inl (List.filter_eq_nil_iff.mpr fun r hr hrq => hq ?_)
    obtain ⟨it, hit, s, hs, hrow⟩ := mem_planRows hr
    obtain ⟨before, hserves⟩ := exists_serves hit hs (List.ne_nil_of_mem hrow)
    rw [beq_iff_eq, itemRows_seq hrow] at hrq
    exact ⟨it.fd, s, before, it, hserves, hrq⟩

/-- **The positions of the batch.** In every run in which no frame is parsed
on a session with a request in flight and every decode succeeds with its
rows of logits: the rows of each sequence of the batch have consecutive
positions from the length of its list on; `n_past` is that length for a
request in flight; and a session that waits for a request has an empty
list. -/
theorem kv_positions (h : (umad pf cfg).Reach (Orderly cfg) d) :
    (∀ q, (d.batch cfg).positions q =
      (List.range ((d.batch cfg).positions q).length).map fun j : Nat => ((d.memory q).length : Int) + j) ∧
    ∀ fd s, d.find fd = some s → (s.state.busy = true → s.nPast = (d.memory s.seq).length) ∧
      (s.state = .recvReq → d.memory s.seq = []) := by
  have ho := owned_of_reach h
  refine ⟨fun q => ?_, fun fd s hs => ⟨orderly_nPast h hs, fun hst => ?_⟩⟩
  · rw [Daemon.batch, enact_batch (plan_ok ho.keyed d.sched cfg).nodup, ofRows_positions]
    rcases ho.rows_of_seq cfg q with hnil | ⟨fd, s, it, hs, hb, rfl, hrows⟩
    · rw [hnil]; rfl
    · rw [hrows, List.length_map, itemRows_pos, orderly_nPast h hs hb]
  · exact (tracks_of_reach (orderly_polite h) hs).idle (by rw [hst]; rfl)

/-- The run of two clients: their next tokens go after their prompts. -/
theorem kv_positions_two :
    (((umad small {}).after (umad small {}).init twoServed).batch {}).positions 1 = [2] ∧
      (((umad small {}).after (umad small {}).init twoServed).batch {}).positions 2 = [1] ∧
      ∀ fd s, ((umad small {}).after (umad small {}).init twoServed).find fd = some s → s.state.busy = true →
        s.nPast = (((umad small {}).after (umad small {}).init twoServed).memory s.seq).length := by
  have hr : (umad small {}).Reach (Orderly {}) ((umad small {}).after (umad small {}).init twoServed) :=
    Lib.System.Reach.init.run (by decide +kernel)
  exact ⟨by decide +kernel, by decide +kernel, fun fd s hs => ((kv_positions hr).2 fd s hs).1⟩

end Positions
end UmaServe

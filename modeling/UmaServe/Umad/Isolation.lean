/-
Continuous batching does not show. If llama.cpp computes each row of logits
from the tokens held for the row's sequence, then what a session is sent at
temperature zero is what it would be sent alone: `solo` is the loop of one
session, and the tokens sampled for a request are a run of it
(`session_isolation`).
-/
import UmaServe.Umad.Tracking

namespace UmaServe

/-! ## One session alone -/

/-- The first of the greatest logits of a row. -/
def bestToken (nVocab : Nat) (row : Nat → ℚ) : Token := ((List.range nVocab).argmax row).getD 0

/-- The first `k` tokens generated after `prompt`, each fed back before the
next is chosen. -/
def solo (M : List Token → Nat → ℚ) (nVocab : Nat) (prompt : List Token) : Nat → List Token
  | 0 => []
  | k + 1 => solo M nVocab prompt k ++ [bestToken nVocab (M (prompt ++ solo M nVocab prompt k))]

section Solo

variable {M : List Token → Nat → ℚ} {nVocab : Nat} {prompt : List Token}

@[simp] theorem solo_length (k : Nat) : (solo M nVocab prompt k).length = k := by
  induction k with
  | zero => rfl
  | succ k ih => simp [solo, ih]

theorem solo_take {j k : Nat} (h : j ≤ k) : (solo M nVocab prompt k).take j = solo M nVocab prompt j := by
  induction k with
  | zero => obtain rfl : j = 0 := by omega
            rfl
  | succ k ih =>
    rcases Nat.lt_or_ge k j with hlt | hge
    · obtain rfl : j = k + 1 := by omega
      exact List.take_of_length_le (by simp)
    · rw [solo, List.take_append_of_le_length (by simpa using hge), ih hge]

theorem solo_getElem? {j k : Nat} {t : Token} (h : (solo M nVocab prompt k)[j]? = some t) :
    t = bestToken nVocab (M (prompt ++ (solo M nVocab prompt k).take j)) := by
  obtain ⟨hlt, -⟩ := List.getElem?_eq_some_iff.mp h
  rw [solo_length] at hlt
  have hj : (solo M nVocab prompt (j + 1))[j]? = some t := by
    rw [← solo_take (k := k) hlt, List.getElem?_take_of_lt (by omega)]
    exact h
  rw [solo, List.getElem?_append_right (by simp), solo_length, Nat.sub_self] at hj
  rw [solo_take (by omega)]
  exact (Option.some.inj hj).symm

end Solo

/-! ## The daemon -/

/-- Each row of logits that a successful decode gives is a function of the
tokens held for the row's sequence, up to and including the row. -/
def Computes (M : List Token → Nat → ℚ) (cfg : RuntimeConfig) (d : Daemon) : Action → Prop
  | .tick _ out => out.rc = 0 → ∀ i q t, (d.batch cfg).rows[i]? = some (q, t) → ∀ row ∈ out.rows i,
      row = M (d.memory q ++ rowTokens ((d.batch cfg).rows.take (i + 1)) q)
  | _ => True

/-- Clients that let a request finish or fail, and a model that computes by
`M`. -/
def Isolated (M : List Token → Nat → ℚ) (cfg : RuntimeConfig) (d : Daemon) (a : Action) : Prop :=
  Polite SessionState.busyOrErrored d a ∧ Computes M cfg d a

/-- The tokens sampled since the last frame are the session's own loop. -/
def Alone (M : List Token → Nat → ℚ) (nVocab : Nat) (s : ClientSession) : Prop :=
  s.temperature ≤ 0 →
    s.hist.window.sampled = solo M nVocab s.hist.window.fed s.hist.window.sampled.length

section Isolation

variable {pf : Platform} {cfg : RuntimeConfig} {M : List Token → Nat → ℚ} {d : Daemon} {fd : Int} {s s' : ClientSession}
  {before : List BatchItem} {it : BatchItem} {nowNs : Nat} {out : Decoded}

/-- The row a session samples from is computed from its own tokens. -/
theorem Computes.row (h : Computes M cfg d (.tick nowNs out)) (ho : Owned d)
    (hserves : Serves d.mgr.sessions (d.sched.items cfg d.mgr.sessions) fd s before it) (hrc : out.rc = 0)
    {row : Nat → ℚ} (hrow : out.rows (sampleIndex d.mgr.sessions before s it) = some row) :
    row = M (d.memory s.seq ++ (itemRows s it).map Row.token) := by
  have hn := (plan_ok ho.keyed d.sched cfg).nodup
  have hpos := ho.busy fd s hserves.lookup (hserves.busy ho.keyed)
  have hsole := ho.soleOwner hserves.lookup (by omega)
  have hrows : (d.batch cfg).rows = (planRows d.mgr.sessions (d.sched.items cfg d.mgr.sessions)).map Row.key :=
    tick_batch_rows ho.keyed
  obtain ⟨r, hget, hseq, -⟩ := hserves.sampled_row
  have hget' : (d.batch cfg).rows[sampleIndex d.mgr.sessions before s it]? = some (s.seq, r.token) := by
    rw [hrows, List.getElem?_map, hget, Option.map_some, Row.key, hseq]
  have hM := h hrc _ _ _ hget' row hrow
  rw [hrows, ← List.map_take, (hserves.rowTokens hn hsole).2] at hM
  exact hM

theorem sampleRow_eq_best {i : Nat} {row : Nat → ℚ} (h : s.temperature ≤ 0) :
    sampleRow pf out (s.enacted it) i row = bestToken pf.vocab.nTokens row :=
  sample_eq_argmax (by simpa [ClientSession.samplingParams] using h)

/-- What a tick adds to a session's window: nothing, or the token sampled
from its row, and with the first one the part of the prompt that was fed. -/
theorem Served.window {i : Nat} (h : Served pf cfg nowNs out s it i s') :
    s'.temperature = s.temperature ∧
      (s'.hist.window.sampled = s.hist.window.sampled ∧ s'.hist.window.fed = s.hist.window.fed ∨
        ∃ row, out.rc = 0 ∧ out.rows i = some row ∧
          s'.hist.window.sampled = s.hist.window.sampled ++ [sampleRow pf out (s.enacted it) i row] ∧
          s'.hist.window.fed =
            match it.phase with
            | .prefill => s.promptTokens.take (s.prefillIdx + it.nTokens.toNat)
            | .decode => s.hist.window.fed) := by
  cases h with
  | failed =>
    refine ⟨enacted_temperature, .inl ⟨?_, ?_⟩⟩ <;> simp [ClientSession.decodeFailed, ClientSession.emit]
  | noRow => exact ⟨enacted_temperature, .inl ⟨by rw [enacted_hist], by rw [enacted_hist]⟩⟩
  | @first row hrc hrow hph =>
    simp only [prefillSampled_eq, enacted_hist, enacted_temperature, true_and]
    refine .inr ⟨row, hrc, hrow, rfl, ?_⟩
    simp only [ClientSession.enacted, hph]
  | @ended row hrc hrow hph =>
    simp only [finish_eq, enacted_hist, enacted_temperature, true_and]
    exact .inr ⟨row, hrc, hrow, rfl, by rw [hph]⟩
  | @more row hrc hrow hph =>
    simp only [decodeSampled_eq, enacted_hist, enacted_temperature, true_and]
    exact .inr ⟨row, hrc, hrow, rfl, by rw [hph]⟩

/-- What a session holds once its rows are decoded: the part of its prompt
fed so far, or that part and everything sampled. -/
theorem Tracks.decoded {held : List Token} (h : Tracks held s) (hk : Keyed d.mgr.sessions)
    (hserves : Serves d.mgr.sessions (d.sched.items cfg d.mgr.sessions) fd s before it) :
    held ++ (itemRows s it).map Row.token =
      (match it.phase with
        | .prefill => s.promptTokens.take (s.prefillIdx + it.nTokens.toNat)
        | .decode => s.hist.window.fed) ++ s.hist.window.sampled ∧
      (it.phase = .prefill → s.hist.window.sampled = []) := by
  cases hph : it.phase with
  | prefill =>
    obtain ⟨hst, -, hpos, hle⟩ := hserves.prefill hk hph
    obtain ⟨hheld, hidx, -, hsam⟩ := h.prefill hst
    unfold ClientSession.remaining at hle
    rw [itemRows_token_prefill hph, hheld, take_append_chunk _ (by omega), hsam, List.append_nil]
    exact ⟨rfl, fun _ => rfl⟩
  | decode =>
    obtain ⟨hst, hpend⟩ := hserves.decode hk hph
    rw [itemRows_token_decode hph, ((h.decode hst).2 hpend).1]
    exact ⟨rfl, fun h => (by cases h)⟩

/-- **A tick** samples for each session what it would sample alone. -/
theorem Alone.served (h : Alone M pf.vocab.nTokens s) (ho : Owned d) (hc : Computes M cfg d (.tick nowNs out))
    (ht : Tracks (d.memory s.seq) s)
    (hserves : Serves d.mgr.sessions (d.sched.items cfg d.mgr.sessions) fd s before it)
    (hserved : Served pf cfg nowNs out s it (sampleIndex d.mgr.sessions before s it) s') :
    Alone M pf.vocab.nTokens s' := by
  intro hle
  obtain ⟨htemp, ⟨hsam, hfed⟩ | ⟨row, hrc, hrow, hsam, hfed⟩⟩ := hserved.window
  · rw [hsam, hfed]
    exact h (htemp ▸ hle)
  · rw [htemp] at hle
    obtain ⟨hheld, hfirst⟩ := ht.decoded ho.keyed hserves
    rw [← hfed] at hheld
    have hM := hc.row ho hserves hrc hrow
    rw [hheld] at hM
    -- The tokens so far are a run of the loop from what is now the fed part.
    have hrun : s.hist.window.sampled = solo M pf.vocab.nTokens s'.hist.window.fed s.hist.window.sampled.length := by
      cases hph : it.phase with
      | prefill => rw [hfirst hph]; rfl
      | decode =>
        rw [hph] at hfed
        rw [hfed]
        exact h hle
    rw [hsam, List.length_append, List.length_singleton, solo, ← hrun, sampleRow_eq_best hle, hM]

theorem isolated_polite (h : (umad pf cfg).Reach (Isolated M cfg) d) :
    (umad pf cfg).Reach (Polite SessionState.busyOrErrored) d :=
  h.mono fun _ _ _ _ hc => hc.1

theorem alone_of_reach (h : (umad pf cfg).Reach (Isolated M cfg) d) (hs : d.find fd = some s) :
    Alone M pf.vocab.nTokens s := by
  refine session_invariant (fun _ _ _ => rfl) ?_ h hs
  intro d a fd next s s' r w r' w' hr hc hs hmove hi
  cases hmove with
  | same | sent | drained | finished | idled => exact hi
  | rejected | metrics | empty | emptied | started => exact fun _ => rfl
  | @quiet reads now nowNs =>
    obtain ⟨rx, act, rc, -, heq⟩ := s.received_eq nowNs reads
    rw [heq]
    exact hi
  | served hserves hserved =>
    have ht := tracks_of_reach (isolated_polite hr) hserves.lookup
    exact hi.served (owned_of_reach hr) hc.2 ht hserves hserved

/-- **Session isolation.** Let llama.cpp compute rows of logits by `M`. In
every run in which no frame is parsed on a session with a request in flight
or a failed decode, and for every session at temperature zero or below: each
token sampled for its request is the best one for `M` after the part of the
prompt that was fed and the tokens sampled before it; so the tokens are those
of the session alone. -/
theorem session_isolation (h : (umad pf cfg).Reach (Isolated M cfg) d) (hs : d.find fd = some s)
    (hle : s.temperature ≤ 0) :
    (∀ k t, s.hist.window.sampled[k]? = some t →
      t = bestToken pf.vocab.nTokens (M (s.hist.window.fed ++ s.hist.window.sampled.take k))) ∧
    s.hist.window.sampled = solo M pf.vocab.nTokens s.hist.window.fed s.hist.window.sampled.length ∧
    (s.state = .decode → s.hist.window.fed = s.promptTokens.take s.prefillIdx) := by
  have halone := alone_of_reach h hs hle
  refine ⟨fun k t ht => ?_, halone, fun hst => ((tracks_of_reach (isolated_polite h) hs).decode hst).1⟩
  generalize s.hist.window.sampled.length = n at halone
  rw [halone] at ht ⊢
  exact solo_getElem? ht

/-- A successful decode by `M`. -/
def Daemon.decoding (d : Daemon) (cfg : RuntimeConfig) (M : List Token → Nat → ℚ) : Decoded where
  rows := fun i => (d.batch cfg).rows[i]?.map fun r =>
    M (d.memory r.1 ++ rowTokens ((d.batch cfg).rows.take (i + 1)) r.1)

theorem decoding_computes : Computes M cfg d (.tick nowNs (d.decoding cfg M)) := by
  intro _ i q t hget row hrow
  have hrow' : (d.decoding cfg M).rows i = some row := hrow
  simp only [Daemon.decoding, hget, Option.map_some, Option.some.injEq] at hrow'
  exact hrow'.symm

/-- A tick that decodes by `M`. -/
def Daemon.tickBy (d : Daemon) (M : List Token → Nat → ℚ) : Daemon := d.step small {} (.tick 3 (d.decoding {} M))

theorem tickBy_reach (h : (umad small {}).Reach (Isolated M {}) d) :
    (umad small {}).Reach (Isolated M {}) (d.tickBy M) := by
  have he : (umad small {}).enabled d (.tick 3 (d.decoding {} M)) := trivial
  exact h.step he ⟨trivial, decoding_computes⟩

/-- A model whose choice is the parity of what it was given. -/
def parity (toks : List Token) (u : Nat) : ℚ := if u = toks.length % 2 then 1 else 0

/-- Two clients in one batch, two ticks: each gets its own parities. -/
theorem session_isolation_two :
    let d := (((umad small {}).after (umad small {}).init twoAsked).tickBy parity).tickBy parity
    ∃ s t, d.find 7 = some s ∧ d.find 8 = some t ∧ s.hist.window.sampled = [0, 1] ∧ t.hist.window.sampled = [1, 0] ∧
      s.hist.window.sampled = solo parity 3 s.hist.window.fed s.hist.window.sampled.length ∧
      t.hist.window.sampled = solo parity 3 t.hist.window.fed t.hist.window.sampled.length := by
  intro d
  have hr : (umad small {}).Reach (Isolated parity {}) d := by
    have hrun : (umad small {}).Run (Polite SessionState.busyOrErrored) (umad small {}).init twoAsked := by
      decide +kernel
    refine tickBy_reach (tickBy_reach (Lib.System.Reach.init.run (hrun.mono fun a ha d hc => ⟨hc, ?_⟩)))
    simp only [twoAsked, List.mem_cons, List.not_mem_nil, or_false] at ha
    rcases ha with rfl | rfl | rfl | rfl <;> trivial
  have hs' : (d.find 7).map (fun s => (s.temperature, s.hist.window.sampled)) = some (0, [0, 1]) := by decide +kernel
  have ht' : (d.find 8).map (fun s => (s.temperature, s.hist.window.sampled)) = some (0, [1, 0]) := by decide +kernel
  obtain ⟨s, hs, hs'⟩ := Option.map_eq_some_iff.mp hs'
  obtain ⟨t, ht, ht'⟩ := Option.map_eq_some_iff.mp ht'
  rw [Prod.mk.injEq] at hs' ht'
  have hzero : ∀ {x : Double}, x = 0 → x ≤ 0 := by
    rintro _ rfl
    decide
  exact ⟨s, t, hs, ht, hs'.2, ht'.2, (session_isolation hr hs (hzero hs'.1)).2.1,
    (session_isolation hr ht (hzero ht'.1)).2.1⟩

end Isolation
end UmaServe

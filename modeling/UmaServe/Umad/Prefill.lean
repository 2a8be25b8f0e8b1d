/-
When a session leaves `PREFILL`. The policy may give a session a part of its
prompt only (the burst of 16, the budget left, the guard), but the executor
asks for a logits row at the end of every chunk, and any sampled row moves
the session to `DECODE`. So `DECODE` means a whole prompt exactly as long as
no such part is sampled.
-/
import UmaServe.Umad.Ownership

namespace UmaServe

section Prefill

variable {pf : Platform} {cfg : RuntimeConfig} {d : Daemon} {fd : Int} {s : ClientSession}

/-- No chunk of the tick's plan that is shorter than what is left of its
prompt is sampled: the decode fails, or there is no logits row at its end. -/
def NoPartSampled (cfg : RuntimeConfig) (d : Daemon) : Action → Prop
  | .tick _ out => out.rc = 0 → ∀ i < (d.sched.items cfg d.mgr.sessions).length,
      ∀ it ∈ (d.sched.items cfg d.mgr.sessions)[i]?, it.phase = .prefill → ∀ s ∈ d.find it.fd,
        0 < it.nTokens → it.nTokens < s.remaining →
        out.rows (sampleIndex d.mgr.sessions ((d.sched.items cfg d.mgr.sessions).take i) s it) = none
  | _ => True

instance : ∀ a, Decidable (NoPartSampled cfg d a)
  | .tick _ _ => inferInstanceAs (Decidable (_ → ∀ i < _, ∀ it ∈ _, _))
  | .accept _ _ _ | .readable _ _ _ _ | .writable _ _ _ | .idle _ => inferInstanceAs (Decidable True)

/-- The condition, at the item that serves a session. -/
theorem NoPartSampled.serves {nowNs : Nat} {out : Decoded} {before : List BatchItem} {it : BatchItem} {row : Nat → ℚ}
    (h : NoPartSampled cfg d (.tick nowNs out)) (hk : Keyed d.mgr.sessions)
    (hserves : Serves d.mgr.sessions (d.sched.items cfg d.mgr.sessions) fd s before it) (hph : it.phase = .prefill)
    (hrc : out.rc = 0) (hr : out.rows (sampleIndex d.mgr.sessions before s it) = some row) :
    s.prefillIdx + it.nTokens.toNat = s.promptTokens.length := by
  obtain ⟨-, hlt, hpos, hle⟩ := hserves.prefill hk hph
  obtain ⟨hlen, hget, htake⟩ := hserves.place
  by_contra hne
  have hshort : it.nTokens < s.remaining := by
    unfold ClientSession.remaining at hle ⊢
    omega
  have hnone := h hrc before.length hlen it hget hph s hserves.item_lookup hpos hshort
  rw [htake, hr] at hnone
  cases hnone

/-- **`DECODE` means a whole prompt**, in every run that samples no part of a
prompt. -/
theorem decode_whole_prompt (h : (umad pf cfg).Reach (NoPartSampled cfg) d) (hs : d.find fd = some s)
    (hst : s.state = .decode) : s.prefillIdx = s.promptTokens.length := by
  refine session_invariant (I := fun s => s.state = .decode → s.prefillIdx = s.promptTokens.length)
    (fun _ _ hst => by cases hst) ?_ h hs hst
  intro d a fd next s s' r w r' w' hr hc hs hmove hi hst
  have hk := (owned_of_reach hr).keyed
  cases hmove with
  | same | sent | drained | idled => exact hi hst
  | rejected | metrics | empty | emptied | started | finished => cases hst
  | @quiet reads now nowNs =>
    obtain ⟨rx, act, rc, -, heq⟩ := s.received_eq nowNs reads
    rw [heq] at hst ⊢
    exact hi hst
  | @served nowNs out s _ r w w' before it hserves hserved =>
    cases hserved with
    | failed => cases hst
    | noRow =>
      rw [enacted_state] at hst
      cases hph : it.phase with
      | prefill => rw [(hserves.prefill hk hph).1] at hst; cases hst
      | decode => simpa [ClientSession.enacted, hph] using hi hst
    | first hrc hr hph =>
      rw [prefillSampled_eq]
      simp only [ClientSession.enacted, hph]
      exact hc.serves hk hserves hph hrc hr
    | ended => cases hst
    | more _ _ hph _ =>
      rw [decodeSampled_eq]
      simpa [ClientSession.enacted, hph] using hi (hserves.decode hk hph).1

/-- The first part of a prompt that is sampled breaks it: the session is in
`DECODE` with the rest of its prompt never fed. -/
theorem decode_part_prompt (hk : Keyed d.mgr.sessions) {nowNs : Nat} {out : Decoded}
    (h : ¬ NoPartSampled cfg d (.tick nowNs out)) :
    ∃ fd s', (d.step pf cfg (.tick nowNs out)).find fd = some s' ∧ s'.state = .decode ∧
      s'.prefillIdx < s'.promptTokens.length := by
  simp only [NoPartSampled] at h
  push Not at h
  obtain ⟨hrc, i, hi, it, hit, hph, s, hs, hpos, hshort, hrow⟩ := h
  have hrows : itemRows s it ≠ [] := by
    simp only [itemRows, hph, ne_eq, List.map_eq_nil_iff, List.range_eq_nil]
    omega
  have hserves := serves_at hit hs hrows
  obtain ⟨row, hr⟩ := Option.ne_none_iff_exists'.mp hrow
  obtain ⟨s', hs', hserved⟩ := tick_served pf d.memory nowNs out hk hserves
  refine ⟨it.fd, s', by rw [Daemon.step, Daemon.tick_find]; exact hs', ?_⟩
  cases hserved with
  | failed hne => exact absurd hrc hne
  | noRow _ hnone => rw [hr] at hnone; cases hnone
  | first =>
    rw [prefillSampled_eq]
    simp only [ClientSession.enacted, hph, true_and]
    unfold ClientSession.remaining at hshort
    omega
  | ended _ _ hph' _ | more _ _ hph' _ => rw [hph] at hph'; cases hph'

/-- A prompt of seventeen tokens, and one tick. -/
def seventeen : List Action :=
  [.accept 7 [7] 1, .readable 7 (request "abcdefghijklmnopq") .wouldBlock 2, .tick 3 (choosing 1)]

/-- The first sixteen are sampled. -/
theorem decode_whole_prompt_cut :
    ∃ d, (umad small {}).Reach Lib.Always d ∧ ∃ fd s, d.find fd = some s ∧ s.state = .decode ∧
      s.prefillIdx = 16 ∧ s.promptTokens.length = 17 := by
  refine ⟨(umad small {}).after (umad small {}).init seventeen, Lib.System.Reach.init.run (by decide +kernel), 7, ?_⟩
  have hst : (((umad small {}).after (umad small {}).init seventeen).find 7).map
      (fun s => (s.state, s.prefillIdx, s.promptTokens.length)) = some (.decode, 16, 17) := by decide +kernel
  obtain ⟨s, hs, hst⟩ := Option.map_eq_some_iff.mp hst
  rw [Prod.mk.injEq, Prod.mk.injEq] at hst
  exact ⟨s, hs, hst⟩

theorem decode_whole_prompt_two :
    ∃ s, ((umad small {}).after (umad small {}).init twoServed).find 7 = some s ∧ s.state = .decode ∧
      s.prefillIdx = s.promptTokens.length := by
  have hst : (((umad small {}).after (umad small {}).init twoServed).find 7).map (fun s => s.state) =
      some .decode := by decide +kernel
  obtain ⟨s, hs, hst⟩ := Option.map_eq_some_iff.mp hst
  have hr : (umad small {}).Reach (NoPartSampled {}) ((umad small {}).after (umad small {}).init twoServed) :=
    Lib.System.Reach.init.run (by decide +kernel)
  exact ⟨s, hs, hst, decode_whole_prompt hr hs hst⟩

end Prefill
end UmaServe

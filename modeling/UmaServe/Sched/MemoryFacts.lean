/-
What a tick does to the memory of each sequence: the rows of a session go to
its own sequence and to no other (`tick_memory_served`, `tick_memory_idle`),
and a sequence with anything in it after the tick had something before or
belongs to a session with a request in flight (`tick_memory_owner`).
-/
import UmaServe.Sched.TickFacts

namespace UmaServe

section Rows

variable {sessions : SessionPool} {items : List BatchItem} {fd : Int} {s : ClientSession} {before : List BatchItem}
  {it : BatchItem}

theorem itemRows_seq {r : Row} (h : r ∈ itemRows s it) : r.seq = s.seq := by
  unfold itemRows at h
  split at h
  · rw [List.mem_singleton] at h; rw [h]
  · obtain ⟨j, -, rfl⟩ := List.mem_map.mp h; rfl

theorem mem_planRows {items : List BatchItem} {r : Row} (h : r ∈ planRows sessions items) :
    ∃ it ∈ items, ∃ s, sessions.lookup it.fd = some s ∧ r ∈ itemRows s it := by
  obtain ⟨it, hit, hr⟩ := List.mem_flatMap.mp h
  cases hs : sessions.lookup it.fd with
  | none => rw [hs] at hr; cases hr
  | some s => rw [hs] at hr; exact ⟨it, hit, s, hs, hr⟩

theorem itemRows_pos :
    (itemRows s it).map Row.pos = (List.range (itemRows s it).length).map fun j : Nat => s.nPast + j := by
  cases hph : it.phase with
  | decode => simp [itemRows, hph]
  | prefill => simp [itemRows, hph]

theorem Serves.sampled_row (h : Serves sessions items fd s before it) :
    ∃ r, (planRows sessions items)[sampleIndex sessions before s it]? = some r ∧ r.seq = s.seq ∧ r.logits = true := by
  obtain ⟨after, -, hrows⟩ := h.rows_eq
  have hpos := List.length_pos_iff.mpr h.rows_ne
  have hlt : (itemRows s it).length - 1 < (itemRows s it).length := by omega
  have hget : (planRows sessions items)[sampleIndex sessions before s it]? =
      (itemRows s it)[(itemRows s it).length - 1]? := by
    rw [hrows, sampleIndex, List.append_assoc, List.getElem?_append_right (by omega),
      List.getElem?_append_left (by omega)]
    congr 1
    omega
  refine ⟨(itemRows s it)[(itemRows s it).length - 1], by rw [hget, List.getElem?_eq_getElem hlt],
    itemRows_seq (List.getElem_mem hlt), ?_⟩
  cases hph : it.phase with
  | decode => simp [itemRows, hph]
  | prefill =>
    simp only [itemRows, hph, List.length_map, List.length_range] at hpos
    simp only [itemRows, hph, List.length_map, List.length_range, List.getElem_map, List.getElem_range,
      decide_eq_true_eq]
    omega

/-- The rows as llama.cpp sees them. -/
abbrev Row.key (r : Row) : Int × Token := (r.seq, r.token)

/-- No other session has the sequence of the session at `fd`. -/
def SoleOwner (sessions : SessionPool) (fd : Int) (q : Int) : Prop :=
  ∀ fd' s', sessions.lookup fd' = some s' → s'.seq = q → fd' = fd

theorem rowTokens_key (rows : List Row) (q : Int) :
    rowTokens (rows.map Row.key) q = (rows.filter fun r => r.seq == q).map Row.token := by
  rw [rowTokens, List.filter_map, List.map_map]
  rfl

/-- The rows of its own item are all the rows of a sequence, up to its last
row as in the whole batch. -/
theorem Serves.rows_of_seq (hn : (items.map BatchItem.fd).Nodup) (h : Serves sessions items fd s before it)
    (ho : SoleOwner sessions fd s.seq) :
    ((planRows sessions items).filter fun r => r.seq == s.seq) = itemRows s it ∧
      (((planRows sessions items).take (sampleIndex sessions before s it + 1)).filter fun r => r.seq == s.seq) =
        itemRows s it := by
  obtain ⟨after, he, hrows⟩ := h.rows_eq
  -- A row of the sequence is in an item of this fd, of which there is one.
  have hother : ∀ l, (∀ it' ∈ l, it'.fd ≠ it.fd) → ((planRows sessions l).filter fun r => r.seq == s.seq) = [] := by
    intro l hl
    rw [List.filter_eq_nil_iff]
    intro r hr hq
    obtain ⟨it', hit', s', hs', hr'⟩ := mem_planRows hr
    rw [beq_iff_eq, itemRows_seq hr'] at hq
    exact hl it' hit' ((ho _ s' hs' hq).trans h.fd_eq.symm)
  have hself : ((itemRows s it).filter fun r => r.seq == s.seq) = itemRows s it := by
    rw [List.filter_eq_self]
    intro r hr
    simp [itemRows_seq hr]
  have hnd : ∀ it' ∈ before ++ after, it'.fd ≠ it.fd := by
    rw [he, List.map_append, List.map_cons, List.nodup_middle, List.nodup_cons, ← List.map_append] at hn
    exact fun it' hit' hfd => hn.1 (hfd ▸ List.mem_map_of_mem hit')
  have hbefore := hother before fun it' h' => hnd it' (List.mem_append_left _ h')
  have hafter := hother after fun it' h' => hnd it' (List.mem_append_right _ h')
  have hlen : sampleIndex sessions before s it + 1 = (planRows sessions before ++ itemRows s it).length := by
    have := List.length_pos_iff.mpr h.rows_ne
    rw [List.length_append, sampleIndex]
    omega
  rw [hlen, hrows, List.take_left]
  simp only [List.filter_append, hbefore, hself, hafter, List.nil_append, List.append_nil, and_self]

theorem Serves.rowTokens (hn : (items.map BatchItem.fd).Nodup) (h : Serves sessions items fd s before it)
    (ho : SoleOwner sessions fd s.seq) :
    rowTokens ((planRows sessions items).map Row.key) s.seq = (itemRows s it).map Row.token ∧
      rowTokens (((planRows sessions items).take (sampleIndex sessions before s it + 1)).map Row.key) s.seq =
        (itemRows s it).map Row.token := by
  rw [rowTokens_key, rowTokens_key, (h.rows_of_seq hn ho).1, (h.rows_of_seq hn ho).2]
  exact ⟨rfl, rfl⟩

end Rows

section Tick

variable {pf : Platform} {cfg : RuntimeConfig} {sched : Scheduler} {sessions : SessionPool} {mem : Memory}
  {nowNs : Nat} {out : Decoded} {fd : Int} {s s' : ClientSession} {before : List BatchItem} {it : BatchItem} {q : Int}

theorem tick_batch_rows (hk : Keyed sessions) :
    (enact sessions (sched.items cfg sessions)).batch.rows = (sched.batchRows cfg sessions).map Row.key := by
  rw [enact_batch (plan_ok hk sched cfg).nodup, ofRows_rows]

theorem tick_sample_session (hk : Keyed sessions) {sm : SampleRef}
    (h : sm ∈ (enact sessions (sched.items cfg sessions)).samples) :
    ∃ s before it, Serves sessions (sched.items cfg sessions) sm.fd s before it := by
  rw [tick_samples hk] at h
  obtain ⟨it, hit, s, hs, hne, hfd⟩ := mem_planSamples h
  obtain ⟨before, hserves⟩ := exists_serves hit hs hne
  exact ⟨s, before, it, by rw [hfd, hk _ _ hs]; exact hserves⟩

theorem Serves.decode (hk : Keyed sessions) (h : Serves sessions (sched.items cfg sessions) fd s before it)
    (hph : it.phase = .decode) : s.state = .decode ∧ s.hasPendingTok = true := by
  obtain ⟨s', hs', hm⟩ := (plan_ok hk sched cfg).ready it h.mem
  rw [h.item_lookup] at hs'
  cases hs'
  rw [hph] at hm
  exact decodeReady_iff.mp hm.1

/-- Prefill rows are for a session with that much of its prompt left. -/
theorem Serves.prefill (hk : Keyed sessions) (h : Serves sessions (sched.items cfg sessions) fd s before it)
    (hph : it.phase = .prefill) :
    s.state = .prefill ∧ s.prefillIdx < s.promptTokens.length ∧ 0 < it.nTokens ∧ it.nTokens ≤ s.remaining := by
  obtain ⟨s', hs', hm⟩ := (plan_ok hk sched cfg).ready it h.mem
  rw [h.item_lookup] at hs'
  cases hs'
  rw [hph] at hm
  obtain ⟨hst, hlt⟩ := prefillReady_iff.mp hm.1
  have hpos : it.nTokens ≠ 0 := fun h0 =>
    h.rows_ne ((itemRows_eq_nil ((plan_ok hk sched cfg).ready it h.mem) h.item_lookup).mpr ⟨hph, h0⟩)
  have h0 := hm.2.1
  exact ⟨hst, hlt, by omega, hm.2.2⟩

theorem Serves.busy (hk : Keyed sessions) (h : Serves sessions (sched.items cfg sessions) fd s before it) :
    s.state.busy = true := by
  cases hph : it.phase with
  | decode => rw [(h.decode hk hph).1]; rfl
  | prefill => rw [(h.prefill hk hph).1]; rfl

theorem tick_memory_other (hk : Keyed sessions)
    (h : ∀ fd s before it, Serves sessions (sched.items cfg sessions) fd s before it → s.seq ≠ q) :
    (sched.tick pf cfg sessions mem nowNs out).memory q = mem q := by
  by_cases hrows : sched.batchRows cfg sessions = []
  · rw [(tick_empty pf mem nowNs out hk hrows).2.1]
  have hkey : ∀ r ∈ (sched.batchRows cfg sessions).map Row.key, r.1 ≠ q := by
    intro r hr
    obtain ⟨row, hrow, rfl⟩ := List.mem_map.mp hr
    obtain ⟨it, hit, s, hs, hr'⟩ := mem_planRows hrow
    obtain ⟨before, hserves⟩ := exists_serves hit hs (List.ne_nil_of_mem hr')
    rw [Row.key, itemRows_seq hr']
    exact h _ _ _ _ hserves
  by_cases hrc : out.rc = 0
  · obtain ⟨m, -, hm, -⟩ := tick_sampled pf mem nowNs hk hrows hrc
    rw [hm, foldl_sampleOne_memory (tick_samples_nodup hk)]
    · simp [Memory.append, tick_batch_rows hk, rowTokens_eq_nil hkey]
    · intro sm hsm t ht _
      obtain ⟨s, before, it, hserves⟩ := tick_sample_session hk hsm
      simp only [hserves.enact hk, Option.some.injEq] at ht
      rw [← ht, enacted_seq]
      exact h _ _ _ _ hserves
  · rw [(tick_failed pf mem nowNs hk hrows hrc).2.1, llamaDecode, if_neg hrc, Memory.append, tick_batch_rows hk,
      rowTokens_eq_nil, List.append_nil]
    intro r hr
    obtain ⟨x, hx, rfl⟩ := List.mem_map.mp hr
    exact hkey x.1 (List.fst_mem_of_mem_zipIdx (List.mem_filter.mp hx).1)

theorem tick_memory_idle (hk : Keyed sessions) (ho : SoleOwner sessions fd q)
    (h : ∀ it ∈ sched.items cfg sessions, it.fd = fd → ∀ s, sessions.lookup fd = some s → itemRows s it = []) :
    (sched.tick pf cfg sessions mem nowNs out).memory q = mem q := by
  refine tick_memory_other hk fun fd' s' before it hserves hq => ?_
  have hfd := ho fd' s' hserves.lookup hq
  subst hfd
  exact hserves.rows_ne (h it hserves.mem hserves.fd_eq s' hserves.lookup)

theorem sampled_state_stream_iff {sm : SampleRef} (h : s.state ≠ .stream) :
    (s.sampled pf cfg nowNs out sm).state = .stream ↔ sm.Ends pf cfg out s := by
  unfold ClientSession.sampled SampleRef.Ends
  cases hr : out.rows sm.batchIndex with
  | none => simp [h]
  | some row =>
    by_cases hst : sm.stateBefore = .prefill
    · simp [hst, prefillSampled_eq]
    · cases hend : s.atEnd cfg pf.vocab (sampleRow pf out s sm.batchIndex row) with
      | true => simp [hst, hend, finish_eq]
      | false => simp [hst, hend, decodeSampled_eq]

/-- **The sequence of a served session**: its rows are appended, and the end
of the response clears it. -/
theorem tick_memory_served (hk : Keyed sessions) (h : Serves sessions (sched.items cfg sessions) fd s before it)
    (ho : SoleOwner sessions fd s.seq) (hrc : out.rc = 0)
    (hs' : (sched.tick pf cfg sessions mem nowNs out).sessions.lookup fd = some s') :
    (sched.tick pf cfg sessions mem nowNs out).memory s.seq =
      if s'.state = .stream then [] else mem s.seq ++ (itemRows s it).map Row.token := by
  obtain ⟨m, hsess, hm, -⟩ := tick_sampled pf mem nowNs hk h.batch_ne hrc
  have hsm := h.sample hk
  have hst : (s.enacted it).state ≠ .stream := by
    intro he
    have hb := h.busy hk
    rw [enacted_state] at he
    simp [he, SessionState.busy] at hb
  have hs'' : some s' = some ((s.enacted it).sampled pf cfg nowNs out
      ⟨fd, sampleIndex sessions before s it, it.phase.state⟩) := by
    rw [← hs', hsess]
    refine (foldl_sampleOne_lookup (tick_samples_nodup hk) hsm).trans ?_
    simp only [h.enact hk, Option.map_some]
  rw [Option.some.inj hs'', hm]
  by_cases he : (⟨fd, sampleIndex sessions before s it, it.phase.state⟩ : SampleRef).Ends pf cfg out (s.enacted it)
  · rw [if_pos (sampled_state_stream_iff hst |>.mpr he), ← enacted_seq]
    exact foldl_sampleOne_memory_ends (tick_samples_nodup hk) hsm (h.enact hk) he
  · rw [if_neg fun hstream => he (sampled_state_stream_iff hst |>.mp hstream),
      foldl_sampleOne_memory (tick_samples_nodup hk)]
    · simp only [Memory.append, tick_batch_rows hk, (h.rowTokens (plan_ok hk sched cfg).nodup ho).1]
    · intro sm' hsm' t ht hends hq
      obtain ⟨s₁, before₁, it₁, hserves⟩ := tick_sample_session hk hsm'
      simp only [hserves.enact hk, Option.some.injEq] at ht
      rw [← ht, enacted_seq] at hq
      have hfd := ho _ _ hserves.lookup hq
      have hsame := List.inj_on_of_nodup_map (tick_samples_nodup hk) hsm' hsm hfd
      rw [hsame] at hends
      have hl := hserves.enact hk
      rw [hfd, h.enact hk, ht] at hl
      rw [← Option.some.inj hl] at hends
      exact he hends

theorem tick_memory_owner (hk : Keyed sessions) (h : (sched.tick pf cfg sessions mem nowNs out).memory q ≠ []) :
    mem q ≠ [] ∨ ∃ fd s, sessions.lookup fd = some s ∧ s.seq = q ∧ s.state.busy = true := by
  by_cases hserves : ∃ fd s before it, Serves sessions (sched.items cfg sessions) fd s before it ∧ s.seq = q
  · obtain ⟨fd, s, before, it, hserves, hq⟩ := hserves
    exact .inr ⟨fd, s, hserves.lookup, hq, hserves.busy hk⟩
  · rw [tick_memory_other hk fun fd s before it hs hq => hserves ⟨fd, s, before, it, hs, hq⟩] at h
    exact .inl h

end Tick
end UmaServe

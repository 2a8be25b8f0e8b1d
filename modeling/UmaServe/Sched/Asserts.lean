/-
The executor of `Scheduler::tick` with what it takes for granted. `enact?` is
`enact` with a result only where the code is defined: an access to
`prompt_tokens` is in range, a chunk is not negative, and no array grows past
the `batch_cap_` entries it reserved (the stored pointers into `seq_id_vals`
would dangle). `Asserted` is the block of asserts before `llama_decode`. Both
hold of every plan (`enact?_eq`, `enact_asserted`).
-/
import UmaServe.Sched.BudgetFacts

namespace UmaServe

/-- One turn of the loop over a prefill chunk, where it is defined. -/
def prefillRow? (cap chunk basePos : Int) (c : ChunkRows) (j : Nat) : Option ChunkRows :=
  if c.session.prefillIdx < c.session.promptTokens.length ∧ (c.batch.tokens.length : Int) < cap then
    some (prefillRow chunk basePos c j)
  else none

/-- One turn of the loop that enacts the plan, where it is defined. -/
def enactItem? (cap : Int) (e : Enacted) (item : BatchItem) : Option Enacted :=
  match e.sessions.lookup item.fd with
  | none => some e
  | some s =>
    match item.phase with
    | .decode => if (e.batch.tokens.length : Int) < cap then some (enactItem e item) else none
    | .prefill =>
      let chunk := item.nTokens
      let basePos := s.nPast
      if 0 ≤ chunk then do
        let c ← (List.range chunk.toNat).foldlM (prefillRow? cap chunk basePos) ⟨s, e.batch, e.samples⟩
        some
          { sessions := e.sessions.replace item.fd { c.session with nPast := basePos + chunk }
            batch := c.batch
            samples := c.samples }
      else none

def enact? (cap : Int) (sessions : SessionPool) (items : List BatchItem) : Option Enacted :=
  items.foldlM (enactItem? cap) { sessions }

/-- The asserts before `llama_decode`, for `pos` too. -/
structure Enacted.Asserted (cap : Int) (e : Enacted) : Prop where
  nSeqId : e.batch.nSeqId.length = e.batch.tokens.length
  seqIdVals : e.batch.seqIdVals.length = e.batch.tokens.length
  seqIds : e.batch.seqIds.length = e.batch.tokens.length
  logits : e.batch.logits.length = e.batch.tokens.length
  pos : e.batch.pos.length = e.batch.tokens.length
  cap : (e.batch.tokens.length : Int) ≤ cap
  int32 : (e.batch.tokens.length : Int) ≤ intMax
  ones : e.batch.logits.count true = e.samples.length

section Asserts

variable {sessions : SessionPool} {items : List BatchItem} {it : BatchItem} {s : ClientSession} {cap : Int}

theorem prefillRow?_foldlM {rs : List Row} (samples : List SampleRef) (hph : it.phase = .prefill)
    (hidx : s.prefillIdx + it.nTokens.toNat ≤ s.promptTokens.length) (hcap : (rs.length + it.nTokens.toNat : Int) ≤ cap)
    {k : Nat} (hk : k ≤ it.nTokens.toNat) :
    (List.range k).foldlM (prefillRow? cap it.nTokens s.nPast) ⟨s, Batch.ofRows rs, samples⟩ =
      some ((List.range k).foldl (prefillRow it.nTokens s.nPast) ⟨s, Batch.ofRows rs, samples⟩) := by
  induction k with
  | zero => rfl
  | succ k ih =>
    rw [List.range_succ, List.foldlM_append, ih (by omega), List.foldl_append]
    have hc := prefillRow_foldl s it rs samples hph (k := k) (by omega)
    have hlen : ((itemRows s it).take k).length = k := by simp [itemRows, hph]; omega
    simp only [Option.bind_eq_bind, Option.bind_some, List.foldlM_cons, List.foldlM_nil, List.foldl_cons,
      List.foldl_nil, prefillRow?, hc, ofRows_tokens_length, List.length_append, hlen]
    rw [if_pos ⟨by omega, by omega⟩]
    rfl

/-- One item is defined where its session has the tokens and the arrays have
the room. -/
theorem enactItem?_eq {e : Enacted} {rs : List Row} (hl : e.sessions.lookup it.fd = some s)
    (hb : e.batch = Batch.ofRows rs) (h0 : 0 ≤ it.nTokens)
    (hidx : it.phase = .prefill → s.prefillIdx + it.nTokens.toNat ≤ s.promptTokens.length)
    (hcap : (rs.length + (itemRows s it).length : Int) ≤ cap) : enactItem? cap e it = some (enactItem e it) := by
  cases hph : it.phase with
  | decode =>
    have hlt : (e.batch.tokens.length : Int) < cap := by
      simp only [itemRows, hph, List.length_cons, List.length_nil] at hcap
      rw [hb, ofRows_tokens_length]
      omega
    simp only [enactItem?, hl, hph, if_pos hlt]
  | prefill =>
    have hcap' : (rs.length + it.nTokens.toNat : Int) ≤ cap := by simpa [itemRows, hph] using hcap
    have hfold := prefillRow?_foldlM e.samples hph (hidx hph) hcap' (le_refl _)
    simp only [enactItem?, enactItem, hl, hph, if_pos h0, hb, hfold]
    rfl

theorem foldlM_enactItem? {e : Enacted} (rs : List Row) (hn : (items.map BatchItem.fd).Nodup)
    (hok : ∀ it ∈ items, ItemOk sessions it) (hl : ∀ it ∈ items, e.sessions.lookup it.fd = sessions.lookup it.fd)
    (hb : e.batch = Batch.ofRows rs) (hcap : (rs.length + (planRows sessions items).length : Int) ≤ cap) :
    items.foldlM (enactItem? cap) e = some (items.foldl enactItem e) := by
  induction items generalizing e rs with
  | nil => rfl
  | cons it items ih =>
    rw [List.map_cons, List.nodup_cons] at hn
    have hit := hok it List.mem_cons_self
    have h0 := hit.nonneg
    obtain ⟨s, hs, hm⟩ := hit
    have hls : e.sessions.lookup it.fd = some s := by rw [hl it List.mem_cons_self, hs]
    have hidx : it.phase = .prefill → s.prefillIdx + it.nTokens.toNat ≤ s.promptTokens.length := by
      intro hph
      rw [hph] at hm
      have hlt := (prefillReady_iff.mp hm.1).2
      have hle := hm.2.2
      unfold ClientSession.remaining at hle
      omega
    rw [planRows_cons hs, List.length_append] at hcap
    have heq := enactItem?_eq hls hb h0 hidx (by omega : (rs.length + (itemRows s it).length : Int) ≤ cap)
    rw [List.foldlM_cons, heq, List.foldl_cons]
    have hrest : ∀ it' ∈ items, ItemOk sessions it' := fun it' h' => hok it' (List.mem_cons_of_mem _ h')
    refine ih (e := enactItem e it) (rs ++ itemRows s it) hn.2 hrest ?_ ?_ ?_
    · intro it' h'
      rw [enact_view e it it'.fd fun he => hn.1 (he ▸ List.mem_map_of_mem h')]
      exact hl it' (List.mem_cons_of_mem _ h')
    · rw [enactItem_eq hls hb]
    · rw [List.length_append]
      omega

theorem itemRows_logits (off : Nat) : ((itemRows s it).map Row.logits).count true = (itemSample s it off).length := by
  unfold itemSample
  cases hph : it.phase with
  | decode => simp [itemRows, hph]
  | prefill =>
    cases hn : it.nTokens.toNat with
    | zero => simp [itemRows, hph, hn]
    | succ n =>
      have hrows : (itemRows s it).map Row.logits = (List.range n).map (fun _ => false) ++ [true] := by
        simp only [itemRows, hph, hn, List.map_map, List.range_succ, List.map_append, List.map_cons, List.map_nil]
        congr 1
        · refine List.map_congr_left fun j hj => ?_
          have hlt := List.mem_range.mp hj
          simp only [Function.comp_apply, decide_eq_false_iff_not]
          omega
        · simp only [List.cons.injEq, decide_eq_true_eq, and_true]
          omega
      have hne : (itemRows s it).isEmpty = false := by simp [itemRows, hph, hn]
      rw [hrows, hne, List.count_append, List.map_const', List.count_replicate]
      simp

theorem planRows_logits (off : Nat) :
    ((planRows sessions items).map Row.logits).count true = (planSamples sessions off items).length := by
  induction items generalizing off with
  | nil => rfl
  | cons it items ih =>
    cases hs : sessions.lookup it.fd with
    | none => simpa [planRows, planSamples, hs] using ih off
    | some s =>
      rw [planRows_cons hs, List.map_append, List.count_append, itemRows_logits off, ih (off + (itemRows s it).length)]
      simp only [planSamples, hs, List.length_append]

end Asserts

section Tick

variable {sessions : SessionPool}

theorem batchRows_length_le (hk : Keyed sessions) (sched : Scheduler) (cfg : RuntimeConfig)
    (hcap : 0 ≤ sched.batchCap) :
    ((sched.batchRows cfg sessions).length : Int) ≤ sched.batchCap := by
  have hlen := batchRows_length hk sched cfg
  have hle := (plan_counts sessions sched cfg).le
  omega

/-- **The executor is defined on the tick's plan.** -/
theorem enact?_eq (hk : Keyed sessions) (sched : Scheduler) (cfg : RuntimeConfig) (hcap : 0 ≤ sched.batchCap) :
    enact? sched.batchCap sessions (sched.items cfg sessions) = some (enact sessions (sched.items cfg sessions)) := by
  have hplan := plan_ok hk sched cfg
  have hle := batchRows_length_le hk sched cfg hcap
  exact foldlM_enactItem? [] hplan.nodup hplan.ready (fun _ _ => rfl) rfl (by simpa using hle)

/-- **The asserts hold of what it makes.** -/
theorem enact_asserted (hk : Keyed sessions) (sched : Scheduler) (cfg : RuntimeConfig) (hcap : 0 ≤ sched.batchCap)
    (hint : sched.batchCap ≤ intMax) : (enact sessions (sched.items cfg sessions)).Asserted sched.batchCap := by
  have hnd := (plan_ok hk sched cfg).nodup
  have hle := batchRows_length_le hk sched cfg hcap
  have hbatch : (enact sessions (sched.items cfg sessions)).batch = _ := enact_batch hnd
  have hsamples : (enact sessions (sched.items cfg sessions)).samples = _ := enact_samples hnd
  constructor
  all_goals rw [hbatch]
  · simp [Batch.ofRows]
  · simp [Batch.ofRows]
  · simp [Batch.ofRows]
  · simp [Batch.ofRows]
  · simp [Batch.ofRows]
  · rw [ofRows_tokens_length]; exact hle
  · rw [ofRows_tokens_length]; exact le_trans hle hint
  · rw [hsamples]
    exact planRows_logits 0

end Tick
end UmaServe

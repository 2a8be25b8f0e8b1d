/-
How large a plan is. The two counts of a plan are the sums of its items
(`plan_counts`), after the guard as before it, and a batch has one row for
each token counted (`batchRows_length`): so it fits the budget.
-/
import UmaServe.Sched.TickFacts

namespace UmaServe

/-- The tokens the items of a phase ask for. -/
def tokensOf (ph : Phase) (items : List BatchItem) : Int :=
  ((items.filter fun it => it.phase = ph).map BatchItem.nTokens).sum

section Tokens

variable {ph : Phase} {it : BatchItem} {items : List BatchItem}

@[simp] theorem tokensOf_nil : tokensOf ph [] = 0 := rfl

theorem tokensOf_cons : tokensOf ph (it :: items) = (if it.phase = ph then it.nTokens else 0) + tokensOf ph items := by
  unfold tokensOf
  rw [List.filter_cons]
  by_cases h : it.phase = ph
  · simp [h]
  · simp [h]

theorem tokensOf_snoc : tokensOf ph (items ++ [it]) = tokensOf ph items + if it.phase = ph then it.nTokens else 0 := by
  induction items with
  | nil => simp [tokensOf_cons]
  | cons j items ih => rw [List.cons_append, tokensOf_cons, tokensOf_cons, ih, Int.add_assoc]

theorem tokensOf_nonneg (h : ∀ it ∈ items, 0 ≤ it.nTokens) : 0 ≤ tokensOf ph items := by
  induction items with
  | nil => simp
  | cons it items ih =>
    have h₀ := h it List.mem_cons_self
    have h₁ := ih fun it' h' => h it' (List.mem_cons_of_mem _ h')
    rw [tokensOf_cons]
    split <;> omega

end Tokens

/-! ## The counts of the policy -/

/-- The counts so far are those of the items so far, and with the budget left
they make up the budget `B`. -/
structure Planning.Balanced (B : Int) (a : Planning) : Prop where
  decode : a.plan.decodeTokCount = tokensOf .decode a.plan.items
  prefill : a.plan.prefillTokCount = tokensOf .prefill a.plan.items
  spent : a.budget + a.plan.decodeTokCount + a.plan.prefillTokCount = B
  left : min 0 B ≤ a.budget
  sized : ∀ it ∈ a.plan.items, 0 < it.nTokens ∧ it.nTokens ≤ intMax

section Policy

variable {sessions : SessionPool} {a : Planning} {B : Int}

theorem sized_snoc {items : List BatchItem} {it : BatchItem} (h : ∀ it ∈ items, 0 < it.nTokens ∧ it.nTokens ≤ intMax)
    (hit : 0 < it.nTokens ∧ it.nTokens ≤ intMax) :
    ∀ it' ∈ items ++ [it], 0 < it'.nTokens ∧ it'.nTokens ≤ intMax := by
  intro it' h'
  rcases List.mem_append.mp h' with h' | h'
  · exact h it' h'
  · rw [List.mem_singleton] at h'
    rw [h']
    exact hit

theorem planDecode_balanced (h : a.Balanced B) (fd : Int) : (planDecode a fd).Balanced B := by
  unfold planDecode
  split
  next hb =>
    have hs := h.spent
    have hl := h.left
    refine ⟨?_, ?_, ?_, ?_, sized_snoc h.sized (show (0 : Int) < 1 ∧ (1 : Int) ≤ intMax by decide)⟩
    · simp [tokensOf_snoc, h.decode]
    · simp [tokensOf_snoc, h.prefill]
    · dsimp only; omega
    · dsimp only; omega
  next => exact h

theorem chunkFor_le_budget (s : ClientSession) (budget : Int) :
    chunkFor s budget ≤ budget ∧ chunkFor s budget ≤ intMax := by
  simp only [chunkFor]
  split <;> omega

theorem planPrefill_balanced (h : a.Balanced B) (fd : Int) : (planPrefill sessions a fd).Balanced B := by
  unfold planPrefill
  split
  next => exact h
  next hb =>
    split
    next => exact h
    next s hs =>
      dsimp only
      split
      next => exact h
      next hc =>
        have hspent := h.spent
        obtain ⟨hle, hsmall⟩ := chunkFor_le_budget s a.budget
        refine ⟨?_, ?_, ?_, ?_, sized_snoc h.sized ⟨not_le.mp hc, hsmall⟩⟩
        · simp [tokensOf_snoc, h.decode]
        · simp [tokensOf_snoc, h.prefill]
        · dsimp only; omega
        · dsimp only; omega

theorem foldl_balanced {f : Planning → Int → Planning} (hf : ∀ a fd, a.Balanced B → (f a fd).Balanced B) (l : List Int)
    (h : a.Balanced B) : (l.foldl f a).Balanced B := by
  induction l generalizing a with
  | nil => exact h
  | cons fd l ih => exact ih (hf a fd h)

theorem phaseA_balanced (pool : List Int) (rr : Nat) (h : a.Balanced B) : (phaseA pool rr a).Balanced B := by
  unfold phaseA
  split
  next =>
    have hb := foldl_balanced (fun a fd ha => planDecode_balanced ha fd) (rotated pool rr) h
    exact ⟨hb.decode, hb.prefill, hb.spent, hb.left, hb.sized⟩
  next => exact ⟨h.decode, h.prefill, h.spent, h.left, h.sized⟩

theorem phaseB_balanced (sessions : SessionPool) (pool : List Int) (rr : Nat) (h : a.Balanced B) :
    (phaseB sessions pool rr a).Balanced B := by
  have hfold : ∀ (l : List Int) (a : Planning), a.Balanced B → (l.foldl (planPrefill sessions) a).Balanced B :=
    fun l _ ha => foldl_balanced (fun a fd ha => planPrefill_balanced ha fd) l ha
  unfold phaseB
  split
  next =>
    have hb := hfold (emitPool sessions true (rotated pool rr)) a h
    dsimp only
    split
    next =>
      have hc := hfold (emitPool sessions false (rotated pool rr)) _ hb
      exact ⟨hc.decode, hc.prefill, hc.spent, hc.left, hc.sized⟩
    next => exact ⟨hb.decode, hb.prefill, hb.spent, hb.left, hb.sized⟩
  next => exact ⟨h.decode, h.prefill, h.spent, h.left, h.sized⟩

/-- The counts of a plan are those of its items, and fit the budget. -/
structure Plan.Counted (B : Int) (plan : Plan) : Prop where
  decode : plan.decodeTokCount = tokensOf .decode plan.items
  prefill : plan.prefillTokCount = tokensOf .prefill plan.items
  le : plan.decodeTokCount + plan.prefillTokCount ≤ max 0 B

theorem scheduleTick_balanced (sessions : SessionPool) (cap target : Int) (rrd rrp : Nat) :
    ∃ a : Planning, a.plan = scheduleTick sessions cap target rrd rrp ∧ a.Balanced (min target cap) := by
  have h₀ : ({ budget := min target cap } : Planning).Balanced (min target cap) :=
    ⟨rfl, rfl, by simp, by dsimp only; omega, by simp⟩
  exact ⟨_, rfl, phaseB_balanced sessions (readyFds ClientSession.prefillReady sessions) rrp
    (phaseA_balanced (readyFds ClientSession.decodeReady sessions) rrd h₀)⟩

theorem scheduleTick_counted (sessions : SessionPool) (cap target : Int) (rrd rrp : Nat) :
    (scheduleTick sessions cap target rrd rrp).Counted (min target cap) := by
  obtain ⟨a, ha, h⟩ := scheduleTick_balanced sessions cap target rrd rrp
  have hs := h.spent
  have hl := h.left
  rw [← ha]
  exact ⟨h.decode, h.prefill, by omega⟩

end Policy

/-! ## The counts after the guard -/

section Guard

variable {sessions : SessionPool} {it : BatchItem} {items : List BatchItem}

/-- `(base + 1) + … + (base + n)` in `uint64_t`. -/
def chunkUnits (base : UInt64) : Nat → UInt64
  | 0 => 0
  | n + 1 => chunkUnits base n + (base + toU64 (n + 1 : Nat))

/-- The inner loop takes as many tokens off the count as off the chunk, takes
their units off the estimate, and takes none that fits the budget. -/
theorem trimChunk_spec (base budget : UInt64) (n : Nat) (t : Trim) :
    (trimChunk base budget n t).2.prefillTokCount + n = t.prefillTokCount + (trimChunk base budget n t).1 ∧
      (trimChunk base budget n t).2.est + chunkUnits base n = t.est + chunkUnits base (trimChunk base budget n t).1 ∧
      ((trimChunk base budget n t).1 = n ∨
        budget < (trimChunk base budget n t).2.est + (base + toU64 ((trimChunk base budget n t).1 + 1 : Nat))) := by
  induction n generalizing t with
  | zero => exact ⟨rfl, rfl, .inl rfl⟩
  | succ n ih =>
    unfold trimChunk
    split
    next hover =>
      obtain ⟨hcount, hest, hlast⟩ := ih
        { est := t.est - (base + toU64 (n + 1 : Nat)), prefillTokCount := t.prefillTokCount - 1, trimmed := true }
      dsimp only at hcount hest
      generalize trimChunk base budget n _ = r at hcount hest hlast ⊢
      have hunits : chunkUnits base (n + 1) = chunkUnits base n + (base + toU64 (n + 1 : Nat)) := rfl
      refine ⟨by omega, by grind, .inr ?_⟩
      rcases hlast with heq | hlt
      · -- The token just taken off was the only one.
        have hback : r.2.est + (base + toU64 (r.1 + 1 : Nat)) = t.est := by rw [heq] at hest ⊢; grind
        rw [hback]
        exact hover
      · exact hlt
    next => exact ⟨rfl, rfl, .inl rfl⟩

theorem trimItem_count (sessions : SessionPool) (budget : UInt64) (it : BatchItem) (t : Trim) :
    (trimItem sessions budget it t).2.prefillTokCount + tokensOf .prefill [it] =
      t.prefillTokCount + tokensOf .prefill [(trimItem sessions budget it t).1] := by
  unfold trimItem
  split
  next =>
    split
    next => rfl
    next hph =>
      rw [not_or, not_not, not_le] at hph
      have hcount := (trimChunk_spec (toU64 (((sessions.lookup it.fd).map (·.nPast)).getD 0)) budget
        it.nTokens.toNat t).1
      simp only [tokensOf_cons, hph.1, if_true, tokensOf_nil, Int.add_zero]
      omega
  next => rfl

theorem trimItems_count (sessions : SessionPool) (budget : UInt64) (items : List BatchItem) (t : Trim) :
    (trimItems sessions budget items t).2.prefillTokCount + tokensOf .prefill items =
      t.prefillTokCount + tokensOf .prefill (trimItems sessions budget items t).1 := by
  induction items with
  | nil => rfl
  | cons it items ih =>
    have hit := trimItem_count sessions budget it (trimItems sessions budget items t).2
    simp only [tokensOf_cons, tokensOf_nil, Int.add_zero] at hit
    simp only [trimItems, tokensOf_cons]
    omega

theorem trimmed_decode {items' : List BatchItem} (h : List.Forall₂ Trimmed items items') :
    tokensOf .decode items' = tokensOf .decode items := by
  induction h with
  | nil => rfl
  | @cons it it' _ _ ht _ ih =>
    rw [tokensOf_cons, tokensOf_cons, ih, ht.phase]
    by_cases hph : it.phase = .decode
    · rw [if_pos hph, if_pos hph, ht.decode hph]
    · rw [if_neg hph, if_neg hph]

theorem trimmed_prefill_le {items' : List BatchItem} (h : List.Forall₂ Trimmed items items') :
    tokensOf .prefill items' ≤ tokensOf .prefill items := by
  induction h with
  | nil => exact le_refl _
  | @cons it it' _ _ ht _ ih =>
    have hle := ht.le
    rw [tokensOf_cons, tokensOf_cons, ht.phase]
    split <;> omega

theorem trimmed_source {items' : List BatchItem} (h : List.Forall₂ Trimmed items items') {it' : BatchItem}
    (hit' : it' ∈ items') : ∃ it ∈ items, Trimmed it it' := by
  obtain ⟨i, hi, rfl⟩ := List.getElem_of_mem hit'
  have hi' : i < items.length := h.length_eq ▸ hi
  exact ⟨_, List.getElem_mem hi', (List.forall₂_iff_get.mp h).2 i hi' hi⟩

theorem trimmed_target {items' : List BatchItem} (h : List.Forall₂ Trimmed items items') (hit : it ∈ items) :
    ∃ it' ∈ items', Trimmed it it' := by
  obtain ⟨i, hi, rfl⟩ := List.getElem_of_mem hit
  have hi' : i < items'.length := h.length_eq ▸ hi
  exact ⟨_, List.getElem_mem hi', (List.forall₂_iff_get.mp h).2 i hi hi'⟩

theorem ItemOk.nonneg (h : ItemOk sessions it) : 0 ≤ it.nTokens := by
  obtain ⟨s, -, hm⟩ := h
  cases hph : it.phase with
  | decode => rw [hph] at hm; have := hm.2; omega
  | prefill => rw [hph] at hm; exact hm.2.1

/-- **The counts of the tick's plan** are those of its items, and fit the
budget: the guard keeps them in step. -/
theorem plan_counts (sessions : SessionPool) (sched : Scheduler) (cfg : RuntimeConfig) :
    (sched.plan cfg sessions).Counted (min sched.targetBatch sched.batchCap) := by
  have h := scheduleTick_counted sessions sched.batchCap sched.targetBatch sched.rrDecodeIdx sched.rrPrefillIdx
  unfold Scheduler.plan
  dsimp only
  split
  next =>
    generalize scheduleTick sessions sched.batchCap sched.targetBatch sched.rrDecodeIdx sched.rrPrefillIdx = plan
      at h
    have htrim := trimItems_trimmed sessions cfg.bmtBudgetUnits plan.items
      { est := estimateUnits sessions plan.items, prefillTokCount := plan.prefillTokCount }
    have hcount := trimItems_count sessions cfg.bmtBudgetUnits plan.items
      { est := estimateUnits sessions plan.items, prefillTokCount := plan.prefillTokCount }
    dsimp only at hcount
    have hle := trimmed_prefill_le htrim
    have hd := h.decode
    have hp := h.prefill
    have hB := h.le
    refine ⟨?_, ?_, ?_⟩
    · simp only [bmtGuard, trimmed_decode htrim, hd]
    · simp only [bmtGuard]; omega
    · simp only [bmtGuard]; omega
  next => exact h

end Guard

/-! ## The batch -/

section Batch

variable {sessions : SessionPool} {it : BatchItem} {s : ClientSession} {items : List BatchItem}

theorem itemRows_length (h : ItemOk sessions it) (hs : sessions.lookup it.fd = some s) :
    ((itemRows s it).length : Int) = it.nTokens := by
  have h0 := h.nonneg
  obtain ⟨s', hs', hm⟩ := h
  rw [hs] at hs'
  cases hs'
  cases hph : it.phase with
  | decode =>
    rw [hph] at hm
    simp [itemRows, hph, hm.2]
  | prefill =>
    simp only [itemRows, hph, List.length_map, List.length_range]
    omega

theorem planRows_length (h : ∀ it ∈ items, ItemOk sessions it) :
    ((planRows sessions items).length : Int) = tokensOf .decode items + tokensOf .prefill items := by
  induction items with
  | nil => rfl
  | cons it items ih =>
    have hit := h it List.mem_cons_self
    obtain ⟨s, hs, -⟩ := id hit
    have hrow := itemRows_length hit hs
    have hrest := ih fun it' h' => h it' (List.mem_cons_of_mem _ h')
    rw [planRows_cons hs, List.length_append, tokensOf_cons, tokensOf_cons]
    cases hph : it.phase with
    | decode => simp only [reduceCtorEq, if_true, if_false]; omega
    | prefill => simp only [reduceCtorEq, if_true, if_false]; omega

/-- **The batch has the rows the plan counts**, so it fits the budget. -/
theorem batchRows_length (hk : Keyed sessions) (sched : Scheduler) (cfg : RuntimeConfig) :
    ((sched.batchRows cfg sessions).length : Int) =
      (sched.plan cfg sessions).decodeTokCount + (sched.plan cfg sessions).prefillTokCount := by
  have hc := plan_counts sessions sched cfg
  rw [hc.decode, hc.prefill]
  exact planRows_length (plan_ok hk sched cfg).ready

end Batch
end UmaServe

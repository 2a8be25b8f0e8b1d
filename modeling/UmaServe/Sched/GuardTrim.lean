/-
The trimming loop against exact costs. `planCost` is what a plan costs in
natural numbers; on the plans of the policy the estimator computes it without
wrapping (`estimateUnits_toNat`), and the running estimate of the loop is the
cost of the plan as trimmed so far, so that no subtraction wraps
(`trimItems?` is the loop where it is defined). What the loop removes is a
suffix of the prefill tokens, and no longer one than the budget asks for
(`bmt_guard_correct`).
-/
import Mathlib.Algebra.BigOperators.Group.Finset.Basic
import UmaServe.Sched.Allocation

namespace UmaServe

/-! ## Exact costs -/

/-- `(base + 1) + … + (base + n)`. -/
def chunkCost (base : Nat) : Nat → Nat
  | 0 => 0
  | n + 1 => chunkCost base n + (base + (n + 1))

/-- The cost of an item of a plan. -/
def itemCost (sessions : SessionPool) (it : BatchItem) : Nat :=
  match sessions.lookup it.fd with
  | none => 0
  | some s =>
    match it.phase with
    | .decode => s.nPast.toNat + 1
    | .prefill => chunkCost s.nPast.toNat it.nTokens.toNat

def planCost (sessions : SessionPool) (items : List BatchItem) : Nat := (items.map (itemCost sessions)).sum

/-- The tokens of a plan. -/
def planTokens (items : List BatchItem) : Nat := (items.map fun it => it.nTokens.toNat).sum

/-- An item of a session whose position is in range. -/
structure Priced (sessions : SessionPool) (it : BatchItem) : Prop where
  session : ∃ s, sessions.lookup it.fd = some s ∧ 0 ≤ s.nPast ∧ s.nPast ≤ 2 ^ 31 - 2
  nonneg : 0 ≤ it.nTokens
  decode : it.phase = .decode → it.nTokens = 1

section Costs

variable {sessions : SessionPool} {it it' : BatchItem} {items items' : List BatchItem}

@[simp] theorem planCost_nil : planCost sessions [] = 0 := rfl

@[simp] theorem planCost_cons : planCost sessions (it :: items) = itemCost sessions it + planCost sessions items := by
  simp [planCost]

@[simp] theorem planTokens_nil : planTokens [] = 0 := rfl

@[simp] theorem planTokens_cons : planTokens (it :: items) = it.nTokens.toNat + planTokens items := by
  simp [planTokens]

theorem planTokens_append : planTokens (items ++ items') = planTokens items + planTokens items' := by
  simp [planTokens]

theorem nTokens_le_planTokens (h : it ∈ items) : it.nTokens.toNat ≤ planTokens items :=
  List.le_sum_of_mem (List.mem_map_of_mem h)

theorem chunkCost_sum (base n : Nat) : chunkCost base n = ∑ j ∈ Finset.range n, (base + (j + 1)) := by
  induction n with
  | zero => rfl
  | succ n ih => rw [chunkCost, ih, Finset.sum_range_succ]

theorem chunkCost_le (base n : Nat) : chunkCost base n ≤ n * (base + n) := by
  induction n with
  | zero => simp [chunkCost]
  | succ n ih =>
    have hstep : (n + 1) * (base + (n + 1)) = n * (base + n) + (base + (n + 1)) + n := by ring
    rw [chunkCost, hstep]
    omega

theorem chunkUnits_exact {base : UInt64} {n : Nat} (hb : base.toNat < 2 ^ 31) (hn : n < 2 ^ 31) :
    (chunkUnits base n).toNat = chunkCost base.toNat n := by
  have h2 : ∀ k, 2 * chunkCost base.toNat k = k * (2 * base.toNat + k + 1) := by
    intro k
    induction k with
    | zero => simp [chunkCost]
    | succ k ih => rw [chunkCost, Nat.mul_add, ih]; ring
  have := chunkUnits_toNat hb hn
  have := h2 n
  omega

theorem toU64_exact {z : Int} (h0 : 0 ≤ z) (h1 : z < 2 ^ 64) : (toU64 z).toNat = z.toNat := by
  obtain ⟨n, rfl⟩ := Int.eq_ofNat_of_zero_le h0
  rw [toU64_toNat (by omega)]
  rfl

theorem Priced.cost_le (h : Priced sessions it) (hn : it.nTokens.toNat < 2 ^ 31) :
    itemCost sessions it ≤ it.nTokens.toNat * 2 ^ 32 := by
  obtain ⟨s, hs, h0, h1⟩ := h.session
  simp only [itemCost, hs]
  cases hph : it.phase with
  | decode =>
    rw [h.decode hph]
    dsimp only
    omega
  | prefill =>
    have hle := chunkCost_le s.nPast.toNat it.nTokens.toNat
    have hmul : it.nTokens.toNat * (s.nPast.toNat + it.nTokens.toNat) ≤ it.nTokens.toNat * 2 ^ 32 :=
      Nat.mul_le_mul_left _ (by omega)
    exact hle.trans hmul

theorem Priced.units (h : Priced sessions it) (hn : it.nTokens.toNat < 2 ^ 31) :
    (unitsOf sessions it).toNat = itemCost sessions it := by
  obtain ⟨s, hs, h0, h1⟩ := h.session
  simp only [unitsOf, itemCost, hs, itemUnits]
  cases hph : it.phase with
  | decode =>
    rw [toU64_exact (by omega) (by omega)]
    dsimp only
    omega
  | prefill =>
    have hn' : (if 0 < it.nTokens then it.nTokens else 0) = (it.nTokens.toNat : Int) := by split <;> omega
    have hbase : (toU64 s.nPast).toNat = s.nPast.toNat := toU64_exact h0 (by omega)
    have hlt : (toU64 s.nPast).toNat < 2 ^ 31 := by omega
    dsimp only
    rw [hn', sumArith_eq hlt hn, chunkUnits_exact hlt hn, hbase]

theorem planCost_le (h : ∀ it ∈ items, Priced sessions it) (htok : planTokens items < 2 ^ 31) :
    planCost sessions items ≤ planTokens items * 2 ^ 32 := by
  induction items with
  | nil => simp
  | cons it items ih =>
    rw [planTokens_cons] at htok ⊢
    have hit := (h it List.mem_cons_self).cost_le (by omega)
    have hrest := ih (fun it' h' => h it' (List.mem_cons_of_mem _ h')) (by omega)
    rw [planCost_cons, Nat.add_mul]
    omega

/-- **The estimate is the cost of the plan**, without wrapping. -/
theorem estimateUnits_toNat (h : ∀ it ∈ items, Priced sessions it) (htok : planTokens items < 2 ^ 31) :
    (estimateUnits sessions items).toNat = planCost sessions items := by
  induction items with
  | nil => rfl
  | cons it items ih =>
    have hle := planCost_le h htok
    rw [planTokens_cons] at htok
    have hit := (h it List.mem_cons_self).units (by omega)
    have hrest := ih (fun it' h' => h it' (List.mem_cons_of_mem _ h')) (by omega)
    rw [estimateUnits_eq, List.foldl_cons, foldl_units, ← estimateUnits_eq, UInt64.zero_add, UInt64.toNat_add, hit,
      hrest, ← planCost_cons]
    rw [planTokens_cons] at hle
    omega

theorem Trimmed.eq_of_decode (h : Trimmed it it') (hph : it.phase = .decode) : it' = it := by
  obtain ⟨fd, ph, n⟩ := it
  obtain ⟨fd', ph', n'⟩ := it'
  obtain rfl : fd' = fd := h.fd
  obtain rfl : ph' = ph := h.phase
  obtain rfl : n' = n := h.decode hph
  rfl

theorem Priced.trimmed (h : Priced sessions it) (ht : Trimmed it it') : Priced sessions it' := by
  refine ⟨by rw [ht.fd]; exact h.session, ht.nonneg h.nonneg, fun hph => ?_⟩
  rw [ht.phase] at hph
  rw [ht.decode hph, h.decode hph]

theorem planTokens_trimmed (h : List.Forall₂ Trimmed items items') : planTokens items' ≤ planTokens items := by
  induction h with
  | nil => exact Nat.le_refl 0
  | cons ht _ ih =>
    have := ht.le
    rw [planTokens_cons, planTokens_cons]
    omega

theorem estimateUnits_trimmed (h : ∀ it ∈ items, Priced sessions it) (htok : planTokens items < 2 ^ 31)
    (ht : List.Forall₂ Trimmed items items') : (estimateUnits sessions items').toNat = planCost sessions items' := by
  refine estimateUnits_toNat (fun it' hit' => ?_) (lt_of_le_of_lt (planTokens_trimmed ht) htok)
  obtain ⟨it, hit, htr⟩ := trimmed_source ht hit'
  exact (h it hit).trimmed htr

end Costs

/-! ## The loop, where it is defined -/

/-- `trimChunk` without a subtraction that wraps. -/
def trimChunk? (base budget : UInt64) : Nat → Trim → Option (Nat × Trim)
  | 0, t => some (0, t)
  | n + 1, t =>
    if budget < t.est then
      if t.est < base + toU64 (n + 1 : Nat) then none
      else
        trimChunk? base budget n
          { est := t.est - (base + toU64 (n + 1 : Nat)), prefillTokCount := t.prefillTokCount - 1, trimmed := true }
    else some (n + 1, t)

def trimItem? (sessions : SessionPool) (budget : UInt64) (it : BatchItem) (t : Trim) : Option (BatchItem × Trim) :=
  if budget < t.est then
    if it.phase ≠ .prefill ∨ it.nTokens ≤ 0 then some (it, t)
    else do
      let base := toU64 (((sessions.lookup it.fd).map (·.nPast)).getD 0)
      let (n, t) ← trimChunk? base budget it.nTokens.toNat t
      some ({ it with nTokens := n }, t)
  else some (it, t)

def trimItems? (sessions : SessionPool) (budget : UInt64) : List BatchItem → Trim → Option (List BatchItem × Trim)
  | [], t => some ([], t)
  | it :: rest, t => do
    let (rest, t) ← trimItems? sessions budget rest t
    let (it, t) ← trimItem? sessions budget it t
    some (it :: rest, t)

section Loop

variable {sessions : SessionPool} {base budget : UInt64} {it : BatchItem} {items : List BatchItem} {t : Trim}
  {Q n : Nat}

/-- The inner loop, with `Q` the cost of the rest of the plan: the estimate
stays exact, and the loop stops at the budget or at the end of the chunk and
not before it has to. -/
theorem trimChunk_exact (budget : UInt64) (hb : base.toNat < 2 ^ 31) (hn : n < 2 ^ 31)
    (h : t.est.toNat = Q + chunkCost base.toNat n) :
    trimChunk? base budget n t = some (trimChunk base budget n t) ∧
      (trimChunk base budget n t).2.est.toNat = Q + chunkCost base.toNat (trimChunk base budget n t).1 ∧
      ((trimChunk base budget n t).2.est ≤ budget ∨ (trimChunk base budget n t).1 = 0) ∧
      (trimChunk base budget n t = (n, t) ∨
        (trimChunk base budget n t).1 < n ∧ (trimChunk base budget n t).2.trimmed = true ∧
          budget.toNat < Q + chunkCost base.toNat ((trimChunk base budget n t).1 + 1)) := by
  induction n generalizing t with
  | zero => exact ⟨rfl, h, .inr rfl, .inl rfl⟩
  | succ n ih =>
    have htok : (base + toU64 (n + 1 : Nat)).toNat = base.toNat + (n + 1) := by
      rw [UInt64.toNat_add, toU64_toNat (by omega)]
      omega
    have hcost : chunkCost base.toNat (n + 1) = chunkCost base.toNat n + (base.toNat + (n + 1)) := rfl
    unfold trimChunk trimChunk?
    by_cases hover : budget < t.est
    · have hle : base + toU64 (n + 1 : Nat) ≤ t.est := by
        rw [UInt64.le_iff_toNat_le, htok]
        omega
      have hnot : ¬ t.est < base + toU64 (n + 1 : Nat) := UInt64.not_lt.mpr hle
      simp only [if_pos hover, if_neg hnot]
      have hest₁ : (t.est - (base + toU64 (n + 1 : Nat))).toNat = Q + chunkCost base.toNat n := by
        rw [UInt64.toNat_sub_of_le _ _ hle, htok]
        omega
      obtain ⟨hdef, hest, hstop, hcut⟩ := ih (t := ⟨t.est - (base + toU64 (n + 1 : Nat)), t.prefillTokCount - 1, true⟩)
        (by omega) hest₁
      refine ⟨hdef, hest, hstop, .inr ?_⟩
      rcases hcut with heq | ⟨hlt, htrim, hmin⟩
      · -- The token just taken off was the last.
        rw [heq]
        refine ⟨Nat.lt_succ_self n, rfl, ?_⟩
        rw [← h]
        exact UInt64.lt_iff_toNat_lt.mp hover
      · exact ⟨by omega, htrim, hmin⟩
    · simp only [if_neg hover]
      exact ⟨trivial, h, .inl (UInt64.not_lt.mp hover), .inl trivial⟩

/-- One item: nothing is done, because the budget is met or there is no
prefill token to take, or the chunk is cut. -/
theorem trimItem_exact (budget : UInt64) (hp : Priced sessions it) (hn : it.nTokens.toNat < 2 ^ 31)
    (h : t.est.toNat = Q + itemCost sessions it) :
    trimItem? sessions budget it t = some (trimItem sessions budget it t) ∧
      (trimItem sessions budget it t).2.est.toNat = Q + itemCost sessions (trimItem sessions budget it t).1 ∧
      (trimItem sessions budget it t = (it, t) ∧ (t.est ≤ budget ∨ it.phase = .decode ∨ it.nTokens = 0) ∨
        ∃ m : Nat, (trimItem sessions budget it t).1 = { it with nTokens := m } ∧ it.phase = .prefill ∧
          (m : Int) < it.nTokens ∧ budget < t.est ∧ (trimItem sessions budget it t).2.trimmed = true ∧
          ((trimItem sessions budget it t).2.est ≤ budget ∨ m = 0) ∧
          budget.toNat < Q + itemCost sessions { it with nTokens := m + 1 }) := by
  unfold trimItem trimItem?
  by_cases hover : budget < t.est
  · simp only [if_pos hover]
    by_cases hskip : it.phase ≠ .prefill ∨ it.nTokens ≤ 0
    · simp only [if_pos hskip]
      refine ⟨trivial, h, .inl ⟨trivial, ?_⟩⟩
      have h0 := hp.nonneg
      rcases hskip with hph | hle
      · cases hdec : it.phase with
        | decode => exact .inr (.inl rfl)
        | prefill => exact absurd hdec hph
      · exact .inr (.inr (by omega))
    · simp only [if_neg hskip]
      rw [not_or, not_not, not_le] at hskip
      obtain ⟨s, hs, h0, h1⟩ := hp.session
      have hbase : (toU64 s.nPast).toNat = s.nPast.toNat := toU64_exact h0 (by omega)
      have hcost : ∀ m : Nat, itemCost sessions { it with nTokens := m } = chunkCost s.nPast.toNat m := by
        intro m
        simp only [itemCost, hs, hskip.1, Int.toNat_natCast]
      have hcost₀ : itemCost sessions it = chunkCost s.nPast.toNat it.nTokens.toNat := by
        simp only [itemCost, hs, hskip.1]
      have hest₀ : t.est.toNat = Q + chunkCost (toU64 s.nPast).toNat it.nTokens.toNat := by rw [h, hcost₀, hbase]
      obtain ⟨hdef, hest, hstop, hcut⟩ := trimChunk_exact budget (by omega) hn hest₀
      simp only [hs, Option.map_some, Option.getD_some]
      generalize trimChunk (toU64 s.nPast) budget it.nTokens.toNat t = r at hdef hest hstop hcut
      obtain ⟨m, t'⟩ := r
      simp only [hdef, Option.bind_eq_bind, Option.bind_some, hbase] at hest hcut ⊢
      refine ⟨trivial, by rw [hcost]; exact hest, .inr ⟨m, rfl, hskip.1, ?_⟩⟩
      rcases hcut with heq | ⟨hlt, htrim, hmin⟩
      · -- The estimate is over budget, so a chunk is not left whole.
        cases heq
        dsimp only at hstop
        rcases hstop with hle | hz
        · exact absurd hover (UInt64.not_lt.mpr hle)
        · omega
      · refine ⟨by omega, hover, htrim, hstop, ?_⟩
        have := hcost (m + 1)
        push_cast at this
        rw [this]
        exact hmin
  · simp only [if_neg hover]
    exact ⟨trivial, h, .inl ⟨trivial, .inl (UInt64.not_lt.mp hover)⟩⟩

/-- The trim stopped inside one chunk: nothing before it is cut, no prefill
token after it is left, and one token more in it is over the budget. `Q` is
the cost of what is not in the list. -/
def CutAt (sessions : SessionPool) (budget : UInt64) (Q : Nat) (items items' : List BatchItem) : Prop :=
  ∃ (before : List BatchItem) (it : BatchItem) (after after' : List BatchItem) (m : Nat),
    items = before ++ it :: after ∧ items' = before ++ { it with nTokens := m } :: after' ∧
    it.phase = .prefill ∧ (m : Int) < it.nTokens ∧ List.Forall₂ Trimmed after after' ∧
    (∀ j ∈ after', j.phase = .prefill → j.nTokens = 0) ∧
    budget.toNat < Q + planCost sessions (before ++ { it with nTokens := m + 1 } :: after')

theorem CutAt.cons {items' : List BatchItem} (h : CutAt sessions budget (Q + itemCost sessions it) items items') :
    CutAt sessions budget Q (it :: items) (it :: items') := by
  obtain ⟨before, j, after, after', m, rfl, rfl, hph, hlt, htrim, hzero, hmin⟩ := h
  refine ⟨it :: before, j, after, after', m, rfl, rfl, hph, hlt, htrim, hzero, ?_⟩
  rw [List.cons_append, planCost_cons]
  omega

theorem trimmed_one_more {before after after' : List BatchItem} {m : Nat} (hph : it.phase = .prefill)
    (hlt : (m : Int) < it.nTokens) (hafter : List.Forall₂ Trimmed after after') :
    List.Forall₂ Trimmed (before ++ it :: after) (before ++ { it with nTokens := m + 1 } :: after') := by
  refine List.rel_append (List.forall₂_same.mpr fun j _ => .refl j) (.cons ?_ hafter)
  refine ⟨rfl, rfl, fun hd => ?_, fun _ => ?_, ?_⟩
  · rw [hph] at hd; cases hd
  · dsimp only; omega
  · dsimp only; omega

/-- **The loop**: the estimate stays that of the plan, and what is cut is a
suffix of the prefill tokens. -/
theorem trimItems_exact (budget : UInt64) (hp : ∀ it ∈ items, Priced sessions it) (htok : planTokens items < 2 ^ 31)
    (h : t.est.toNat = Q + planCost sessions items) :
    trimItems? sessions budget items t = some (trimItems sessions budget items t) ∧
      (trimItems sessions budget items t).2.est.toNat =
        Q + planCost sessions (trimItems sessions budget items t).1 ∧
      ((trimItems sessions budget items t).2.est ≤ budget ∨
        ∀ it ∈ (trimItems sessions budget items t).1, it.phase = .prefill → it.nTokens = 0) ∧
      (trimItems sessions budget items t = (items, t) ∨
        (trimItems sessions budget items t).2.trimmed = true ∧
          CutAt sessions budget Q items (trimItems sessions budget items t).1) := by
  induction items generalizing Q with
  | nil => exact ⟨rfl, h, .inr (by simp [trimItems]), .inl rfl⟩
  | cons it items ih =>
    rw [planTokens_cons] at htok
    rw [planCost_cons] at h
    -- The loop starts at the end of the list.
    obtain ⟨hdef, hest, hstop, hcut⟩ := ih (Q := Q + itemCost sessions it)
      (fun it' h' => hp it' (List.mem_cons_of_mem _ h')) (by omega) (by omega)
    have htrim := trimItems_trimmed sessions budget items t
    simp only [trimItems, trimItems?, hdef, Option.bind_eq_bind, Option.bind_some]
    generalize trimItems sessions budget items t = r at hest hstop hcut htrim
    obtain ⟨rest, t₁⟩ := r
    dsimp only at hest hstop hcut htrim ⊢
    obtain ⟨hdef', hest', hitem⟩ := trimItem_exact budget (Q := Q + planCost sessions rest)
      (hp it List.mem_cons_self) (by omega) (show t₁.est.toNat = _ by omega)
    simp only [hdef', Option.bind_some]
    generalize trimItem sessions budget it t₁ = r at hest' hitem
    obtain ⟨it', t₂⟩ := r
    dsimp only at hest' hitem ⊢
    refine ⟨trivial, by rw [planCost_cons]; omega, ?_⟩
    rcases hitem with ⟨heq, hwhy⟩ | ⟨m, rfl, hph, hlt, hover, htrimmed, hend, hmin⟩
    · cases heq
      refine ⟨?_, ?_⟩
      · rcases hwhy with hle | hdec
        · exact .inl hle
        · refine hstop.imp_right fun hzero => List.forall_mem_cons.mpr ⟨fun hph => ?_, hzero⟩
          rcases hdec with hdec | hz
          · rw [hph] at hdec; cases hdec
          · exact hz
      · rcases hcut with heq | ⟨htrimmed, hcut⟩
        · cases heq
          exact .inl rfl
        · exact .inr ⟨htrimmed, hcut.cons⟩
    · -- The budget is not met yet, so no prefill token is left behind it.
      have hzero : ∀ j ∈ rest, j.phase = .prefill → j.nTokens = 0 :=
        hstop.resolve_left (UInt64.not_le.mpr hover)
      refine ⟨?_, .inr ⟨htrimmed, [], it, items, rest, m, rfl, rfl, hph, hlt, htrim, hzero, ?_⟩⟩
      · exact hend.imp_right fun hz => List.forall_mem_cons.mpr ⟨fun _ => by simp [hz], hzero⟩
      · rw [List.nil_append, planCost_cons]
        omega

end Loop

/-! ## The guard -/

section Guard

variable {sessions : SessionPool}

/-- The items of the policy's plans are priced, and few enough. -/
theorem scheduleTick_priced (hk : Keyed sessions)
    (hpast : ∀ fd s, sessions.lookup fd = some s → 0 ≤ s.nPast ∧ s.nPast ≤ 2 ^ 31 - 2) (cap target : Int)
    (hmax : min target cap ≤ intMax) (rrd rrp : Nat) :
    (∀ it ∈ (scheduleTick sessions cap target rrd rrp).items, Priced sessions it) ∧
      planTokens (scheduleTick sessions cap target rrd rrp).items < 2 ^ 31 := by
  refine ⟨fun it hit => ?_, ?_⟩
  · obtain ⟨s, hs, hpos, hphase⟩ := mem_scheduleTick hk hit
    refine ⟨⟨s, hs, hpast _ s hs⟩, by omega, fun hph => ?_⟩
    rcases hphase with ⟨-, -, h1⟩ | ⟨hpre, -⟩
    · exact h1
    · rw [hph] at hpre; cases hpre
  · have htok : ∀ l : List Want, planTokens (l.map Want.item) = Lib.asked l := by
      intro l
      simp [planTokens, Lib.asked, Want.item, Function.comp_def]
    rw [scheduleTick_items, htok, Lib.asked_grant]
    unfold intMax at hmax
    omega

/-- **The estimate is the sum of the per-token costs** on every plan of the
policy, whose batch capacity is an `int32_t`. -/
theorem estimateUnits_exact (hk : Keyed sessions)
    (hpast : ∀ fd s, sessions.lookup fd = some s → 0 ≤ s.nPast ∧ s.nPast ≤ 2 ^ 31 - 2) (cap target : Int)
    (hmax : min target cap ≤ intMax) (rrd rrp : Nat) :
    let items := (scheduleTick sessions cap target rrd rrp).items
    (estimateUnits sessions items).toNat = planCost sessions items ∧
    -- No addition to the total wraps.
    (∀ before after : List BatchItem, items = before ++ after →
      (estimateUnits sessions before).toNat = planCost sessions before) ∧
    -- Nor does what is added, or the product it is halved from.
    (∀ it ∈ items, ∃ s, sessions.lookup it.fd = some s ∧
      (itemUnits it s.nPast).toNat = (match it.phase with
        | .decode => s.nPast.toNat + 1
        | .prefill => ∑ j ∈ Finset.range it.nTokens.toNat, (s.nPast.toNat + (j + 1))) ∧
      (let a₀ := toU64 s.nPast + 1
       let n := toU64 (if 0 < it.nTokens then it.nTokens else 0)
       a₀.toNat = s.nPast.toNat + 1 ∧ n.toNat = it.nTokens.toNat ∧
         (n * (2 * a₀ + (n - 1) * 1)).toNat = n.toNat * (2 * a₀.toNat + (n.toNat - 1)))) ∧
    -- Of no tokens `n - 1` wraps, and the sum is zero.
    ∀ a₀ d : UInt64, sumArith a₀ d 0 = 0 := by
  intro items
  obtain ⟨hpriced, htok⟩ := scheduleTick_priced hk hpast cap target hmax rrd rrp
  refine ⟨estimateUnits_toNat hpriced htok, fun before after hsplit => ?_, fun it hit => ?_, fun a₀ d => ?_⟩
  · change items = _ at hsplit
    change planTokens items < 2 ^ 31 at htok
    rw [hsplit, planTokens_append] at htok
    refine estimateUnits_toNat (fun it hit => hpriced it ?_) (by omega)
    change it ∈ items
    rw [hsplit]
    exact List.mem_append_left after hit
  · have hn : it.nTokens.toNat < 2 ^ 31 := lt_of_le_of_lt (nTokens_le_planTokens hit) htok
    have hunits := (hpriced it hit).units hn
    obtain ⟨s, hs, h0, h1⟩ := (hpriced it hit).session
    simp only [unitsOf, itemCost, hs] at hunits
    have hnat : (if 0 < it.nTokens then it.nTokens else 0) = (it.nTokens.toNat : Int) := by split <;> omega
    have hbase : (toU64 s.nPast).toNat = s.nPast.toNat := toU64_exact h0 (by omega)
    have ha : (toU64 s.nPast + 1).toNat = s.nPast.toNat + 1 := by
      rw [UInt64.toNat_add, hbase]
      simp only [UInt64.reduceToNat]
      omega
    have hm : (toU64 (it.nTokens.toNat : Int)).toNat = it.nTokens.toNat := toU64_toNat (by omega)
    refine ⟨s, hs, ?_, ha, by rw [hnat, hm], by rw [hnat]; exact sumArith_product (by omega) (by omega)⟩
    rw [hunits]
    cases it.phase with
    | decode => rfl
    | prefill => exact chunkCost_sum _ _
  · rw [sumArith, UInt64.zero_mul]
    rfl

/-- Two decodes and two chunks, the first at position 0. -/
theorem estimateUnits_exact_mixed :
    (estimateUnits mixed (scheduleTick mixed 64 40 0 0).items).toNat =
      planCost mixed (scheduleTick mixed 64 40 0 0).items := by
  have hpast : ∀ e ∈ mixed.entries, 0 ≤ e.2.nPast ∧ e.2.nPast ≤ 2 ^ 31 - 2 := by decide
  exact (estimateUnits_exact mixed_keyed
    (fun fd s hs => hpast ⟨fd, s⟩ (AList.mem_entries_iff.mpr hs)) 64 40 (by decide) 0 0).1

/-- **The guard is correct** on the plans of the policy, whose budget is an
`int32_t`. -/
theorem bmt_guard_correct (hk : Keyed sessions)
    (hpast : ∀ fd s, sessions.lookup fd = some s → 0 ≤ s.nPast ∧ s.nPast ≤ 2 ^ 31 - 2) (cap target : Int)
    (hmax : min target cap ≤ intMax) (rrd rrp : Nat) (budget : UInt64) :
    let plan := scheduleTick sessions cap target rrd rrp
    let (plan', est, trimmed) := bmtGuard budget sessions plan
    -- The estimate is exact, before and after, and no subtraction wraps.
    (estimateUnits sessions plan.items).toNat = planCost sessions plan.items ∧
    est = estimateUnits sessions plan'.items ∧ est.toNat = planCost sessions plan'.items ∧
    (∃ r, trimItems? sessions budget plan.items
        { est := estimateUnits sessions plan.items, prefillTokCount := plan.prefillTokCount } = some r) ∧
    (est ≤ budget ∨ ∀ it ∈ plan'.items, it.phase = .prefill → it.nTokens = 0) ∧
    List.Forall₂ (fun it it' => it'.fd = it.fd ∧ it'.phase = it.phase ∧ (it.phase = .decode → it' = it) ∧
      it'.nTokens ≤ it.nTokens) plan.items plan'.items ∧
    plan'.decodeTokCount = plan.decodeTokCount ∧
    plan'.prefillTokCount = tokensOf .prefill plan'.items ∧ (∀ it ∈ plan'.items, 0 ≤ it.nTokens) ∧
    (plan'.items = plan.items ∧ trimmed = false ∨
      trimmed = true ∧ ∃ (before : List BatchItem) (it : BatchItem) (after after' : List BatchItem) (m : Nat),
        plan.items = before ++ it :: after ∧ plan'.items = before ++ { it with nTokens := m } :: after' ∧
        it.phase = .prefill ∧ (m : Int) < it.nTokens ∧ (∀ j ∈ after', j.phase = .prefill → j.nTokens = 0) ∧
        budget < estimateUnits sessions (before ++ { it with nTokens := m + 1 } :: after')) := by
  intro plan
  obtain ⟨hpriced, htok⟩ := scheduleTick_priced hk hpast cap target hmax rrd rrp
  have hcounted := (scheduleTick_counted sessions cap target rrd rrp).prefill
  change ∀ it ∈ plan.items, Priced sessions it at hpriced
  change planTokens plan.items < 2 ^ 31 at htok
  change plan.prefillTokCount = tokensOf .prefill plan.items at hcounted
  have hest₀ := estimateUnits_toNat hpriced htok
  have htrim := trimItems_trimmed sessions budget plan.items
    { est := estimateUnits sessions plan.items, prefillTokCount := plan.prefillTokCount }
  have hcount := trimItems_count sessions budget plan.items
    { est := estimateUnits sessions plan.items, prefillTokCount := plan.prefillTokCount }
  obtain ⟨hdef, hest, hstop, hcut⟩ := trimItems_exact budget (Q := 0)
    (t := { est := estimateUnits sessions plan.items, prefillTokCount := plan.prefillTokCount }) hpriced htok
    (by rw [hest₀, Nat.zero_add])
  simp only [bmtGuard]
  generalize trimItems sessions budget plan.items _ = r at htrim hcount hdef hest hstop hcut
  obtain ⟨items, t⟩ := r
  dsimp only at htrim hcount hdef hest hstop hcut ⊢
  rw [Nat.zero_add] at hest
  have hexact := estimateUnits_trimmed hpriced htok htrim
  refine ⟨hest₀, UInt64.toNat.inj (by rw [hest, hexact]), hest, ⟨_, hdef⟩, hstop,
    htrim.imp fun it it' ht => ⟨ht.fd, ht.phase, ht.eq_of_decode, ht.le⟩, trivial, by omega, ?_, ?_⟩
  · intro it' hit'
    obtain ⟨it, hit, ht⟩ := trimmed_source htrim hit'
    exact ht.nonneg (hpriced it hit).nonneg
  · rcases hcut with heq | ⟨htrimmed, before, it, after, after', m, hitems, hitems', hph, hlt, hafter, hzero, hmin⟩
    · cases heq
      exact .inl ⟨rfl, rfl⟩
    · refine .inr ⟨htrimmed, before, it, after, after', m, hitems, hitems', hph, hlt, hzero, ?_⟩
      have hback : List.Forall₂ Trimmed plan.items (before ++ { it with nTokens := (m : Int) + 1 } :: after') := by
        rw [hitems]
        exact trimmed_one_more hph hlt hafter
      rw [UInt64.lt_iff_toNat_lt, estimateUnits_trimmed hpriced htok hback]
      omega

/-- The last chunk goes, and the one before it is cut to what fits. -/
theorem bmt_guard_correct_mixed :
    (bmtGuard 100 mixed (scheduleTick mixed 64 40 0 0)).1.items =
        [⟨3, .decode, 1⟩, ⟨4, .decode, 1⟩, ⟨6, .prefill, 13⟩, ⟨7, .prefill, 0⟩] ∧
      (bmtGuard 100 mixed (scheduleTick mixed 64 40 0 0)).2.1 =
        estimateUnits mixed (bmtGuard 100 mixed (scheduleTick mixed 64 40 0 0)).1.items := by
  have hpast : ∀ e ∈ mixed.entries, 0 ≤ e.2.nPast ∧ e.2.nPast ≤ 2 ^ 31 - 2 := by decide
  obtain ⟨-, hest, -⟩ := bmt_guard_correct mixed_keyed
    (fun fd s hs => hpast ⟨fd, s⟩ (AList.mem_entries_iff.mpr hs)) 64 40 (by decide) 0 0 100
  exact ⟨by decide +kernel, hest⟩

end Guard

end UmaServe

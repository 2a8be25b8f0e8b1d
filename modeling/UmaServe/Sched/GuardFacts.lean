/-
What the guard leaves of a plan. Its running estimate stays that of the
items it has not trimmed, and it takes no token that fits the budget: so a
plan whose chunks start their sequences keeps a token (`trimItems_leaves`),
and ready work makes a batch (`batchRows_ne_nil`).
-/
import UmaServe.Sched.BudgetFacts

namespace UmaServe

/-! ## The units of a plan -/

section Units

variable {sessions : SessionPool} {base budget : UInt64} {it : BatchItem} {rest items : List BatchItem}
  {s : ClientSession} {t : Trim}

theorem toU64_toNat {n : Nat} (h : n < 2 ^ 64) : (toU64 (n : Int)).toNat = n := by
  simp [toU64, UInt64.ofInt]
  omega

theorem chunkUnits_toNat {n : Nat} (hb : base.toNat < 2 ^ 31) (hn : n < 2 ^ 31) :
    2 * (chunkUnits base n).toNat = n * (2 * base.toNat + n + 1) := by
  induction n with
  | zero => simp [chunkUnits]
  | succ n ih =>
    have hle : n * (2 * base.toNat + n + 1) ≤ 2 ^ 31 * (2 ^ 31 * 3) := Nat.mul_le_mul (by omega) (by omega)
    have hsucc : (n + 1) * (2 * base.toNat + (n + 1) + 1) =
        n * (2 * base.toNat + n + 1) + 2 * (base.toNat + (n + 1)) := by ring
    rw [chunkUnits, UInt64.toNat_add, UInt64.toNat_add, toU64_toNat (by omega), hsucc]
    have hn' := ih (by omega)
    omega

/-- The product of `sum_arith` does not wrap on a chunk, and of an empty one
it is zero although `n - 1` wraps. -/
theorem sumArith_product {a₀ n : UInt64} (ha : a₀.toNat ≤ 2 ^ 31) (hn : n.toNat < 2 ^ 31) :
    (n * (2 * a₀ + (n - 1) * 1)).toNat = n.toNat * (2 * a₀.toNat + (n.toNat - 1)) := by
  have hle : n.toNat * (2 * a₀.toNat + (n.toNat - 1)) ≤ 2 ^ 31 * (2 ^ 31 * 3) :=
    Nat.mul_le_mul (by omega) (by omega)
  by_cases hz : n = 0
  · subst hz
    simp
  · have h1 : (1 : UInt64) ≤ n := UInt64.le_iff_toNat_le.mpr (Nat.pos_of_ne_zero fun h =>
      hz (UInt64.toNat.inj (by rw [h]; exact UInt64.toNat_zero.symm)))
    have hin : (2 * a₀ + (n - 1) * 1).toNat = 2 * a₀.toNat + (n.toNat - 1) := by
      rw [UInt64.toNat_add, UInt64.toNat_mul, UInt64.toNat_mul, UInt64.toNat_sub_of_le _ _ h1]
      simp only [UInt64.reduceToNat]
      omega
    rw [UInt64.toNat_mul, hin]
    exact Nat.mod_eq_of_lt (by omega)

theorem sumArith_eq {n : Nat} (hb : base.toNat < 2 ^ 31) (hn : n < 2 ^ 31) :
    sumArith (base + 1) 1 (toU64 (n : Int)) = chunkUnits base n := by
  have h2 := chunkUnits_toNat hb hn
  have hx := toU64_toNat (n := n) (by omega)
  have hb1 : (base + 1).toNat = base.toNat + 1 := by
    rw [UInt64.toNat_add]
    simp only [UInt64.reduceToNat]
    omega
  apply UInt64.toNat.inj
  rw [sumArith, UInt64.toNat_div, sumArith_product (by omega) (by omega), hx, hb1]
  have hsame : n * (2 * (base.toNat + 1) + (n - 1)) = n * (2 * base.toNat + n + 1) := by
    cases n with
    | zero => rw [Nat.zero_mul, Nat.zero_mul]
    | succ n => rw [Nat.add_sub_cancel]; ring
  rw [hsame]
  simp only [UInt64.reduceToNat]
  omega

/-- A chunk of a session that is at the start of its sequence. -/
structure AtStart (sessions : SessionPool) (it : BatchItem) : Prop where
  phase : it.phase = .prefill
  session : ∃ s, sessions.lookup it.fd = some s ∧ s.nPast = 0
  small : it.nTokens ≤ intMax

theorem AtStart.units (h : AtStart sessions it) : itemUnits it 0 = chunkUnits 0 it.nTokens.toNat := by
  have hsmall := h.small
  have hn : (if 0 < it.nTokens then it.nTokens else 0) = (it.nTokens.toNat : Int) := by split <;> omega
  simp only [itemUnits, h.phase, hn]
  exact sumArith_eq (by decide) (by unfold intMax at hsmall; omega)

/-- The units of an item of a plan. -/
def unitsOf (sessions : SessionPool) (it : BatchItem) : UInt64 :=
  match sessions.lookup it.fd with
  | none => 0
  | some s => itemUnits it s.nPast

theorem estimateUnits_eq :
    estimateUnits sessions items = items.foldl (fun total it => total + unitsOf sessions it) 0 := by
  unfold estimateUnits
  congr
  funext total it
  unfold unitsOf
  cases sessions.lookup it.fd <;> simp

theorem foldl_units (total : UInt64) :
    items.foldl (fun total it => total + unitsOf sessions it) total =
      total + items.foldl (fun total it => total + unitsOf sessions it) 0 := by
  induction items generalizing total with
  | nil => simp
  | cons it items ih =>
    rw [List.foldl_cons, List.foldl_cons, ih, ih (0 + _)]
    grind

theorem AtStart.estimateUnits_cons (h : AtStart sessions it) :
    estimateUnits sessions (it :: items) = chunkUnits 0 it.nTokens.toNat + estimateUnits sessions items := by
  obtain ⟨s, hs, h0⟩ := h.session
  have hu : unitsOf sessions it = chunkUnits 0 it.nTokens.toNat := by simp only [unitsOf, hs, h0, h.units]
  rw [estimateUnits_eq, List.foldl_cons, foldl_units, hu, estimateUnits_eq]
  grind

/-- Trimming a chunk keeps the estimate that of what is left, and takes no
token that fits the budget. -/
theorem AtStart.trim (h : AtStart sessions it) (budget : UInt64) (t : Trim) :
    (trimItem sessions budget it t).2.est + chunkUnits 0 it.nTokens.toNat =
        t.est + chunkUnits 0 (trimItem sessions budget it t).1.nTokens.toNat ∧
      ((trimItem sessions budget it t).1.nTokens = it.nTokens ∨
        budget < (trimItem sessions budget it t).2.est +
          toU64 ((trimItem sessions budget it t).1.nTokens.toNat + 1 : Nat)) := by
  obtain ⟨s, hs, h0⟩ := h.session
  unfold trimItem
  split
  next =>
    split
    next => exact ⟨rfl, .inl rfl⟩
    next hph =>
      rw [not_or, not_le] at hph
      obtain ⟨-, hest, hlast⟩ := trimChunk_spec (toU64 0) budget it.nTokens.toNat t
      simp only [hs, h0, Option.map_some, Option.getD_some, Int.toNat_natCast]
      refine ⟨hest, ?_⟩
      rcases hlast with heq | hlt
      · left; omega
      · right
        have hz : toU64 0 + toU64 ((trimChunk (toU64 0) budget it.nTokens.toNat t).1 + 1 : Nat) =
            toU64 ((trimChunk (toU64 0) budget it.nTokens.toNat t).1 + 1 : Nat) := UInt64.zero_add _
        rwa [hz] at hlt
  next => exact ⟨rfl, .inl rfl⟩

theorem AtStart.trimmed {it' : BatchItem} (h : AtStart sessions it) (ht : Trimmed it it') : AtStart sessions it' :=
  ⟨by rw [ht.phase]; exact h.phase, by rw [ht.fd]; exact h.session, le_trans ht.le h.small⟩

theorem trimItems_est (budget : UInt64) (t : Trim) (h : ∀ it ∈ items, AtStart sessions it) :
    (trimItems sessions budget items t).2.est + estimateUnits sessions items =
      t.est + estimateUnits sessions (trimItems sessions budget items t).1 := by
  induction items with
  | nil => rfl
  | cons it items ih =>
    have hit := h it List.mem_cons_self
    have hrest := ih fun it' h' => h it' (List.mem_cons_of_mem _ h')
    have htrim := hit.trimmed (trimItem_trimmed sessions budget it (trimItems sessions budget items t).2)
    obtain ⟨hest, -⟩ := hit.trim budget (trimItems sessions budget items t).2
    simp only [trimItems]
    rw [hit.estimateUnits_cons, htrim.estimateUnits_cons]
    grind

theorem estimateUnits_empty (h : ∀ it ∈ items, AtStart sessions it) (h0 : ∀ it ∈ items, it.nTokens ≤ 0) :
    estimateUnits sessions items = 0 := by
  induction items with
  | nil => rfl
  | cons it items ih =>
    have hn : it.nTokens.toNat = 0 := by have := h0 it List.mem_cons_self; omega
    rw [(h it List.mem_cons_self).estimateUnits_cons, hn,
      ih (fun it' h' => h it' (List.mem_cons_of_mem _ h')) fun it' h' => h0 it' (List.mem_cons_of_mem _ h')]
    rfl

/-- **The guard leaves a token** of chunks that all start their sequences: the
first token costs one unit, and a budget is at least that. -/
theorem trimItems_leaves (hb : 0 < budget) (h : ∀ it' ∈ it :: rest, AtStart sessions it') (hpos : 0 < it.nTokens)
    (hest : t.est = estimateUnits sessions (it :: rest)) :
    ∃ it' ∈ (trimItems sessions budget (it :: rest) t).1, 0 < it'.nTokens := by
  by_contra hnone
  push Not at hnone
  have htrim := trimItems_trimmed sessions budget (it :: rest) t
  have hstart : ∀ it' ∈ (trimItems sessions budget (it :: rest) t).1, AtStart sessions it' := by
    intro it' hit'
    obtain ⟨it₀, hit₀, ht⟩ := trimmed_source htrim hit'
    exact (h it₀ hit₀).trimmed ht
  -- Nothing is left, so the estimate is zero; but the first token was over budget.
  have hzero : (trimItems sessions budget (it :: rest) t).2.est = 0 := by
    have hsum := trimItems_est budget t h
    rw [estimateUnits_empty hstart hnone, hest] at hsum
    grind
  have hfirst : (trimItem sessions budget it (trimItems sessions budget rest t).2).1.nTokens ≤ 0 :=
    hnone _ List.mem_cons_self
  have hz : (trimItem sessions budget it (trimItems sessions budget rest t).2).2.est = 0 := hzero
  obtain ⟨-, hkept | hlast⟩ := (h it List.mem_cons_self).trim budget (trimItems sessions budget rest t).2
  · omega
  · have hn : (trimItem sessions budget it (trimItems sessions budget rest t).2).1.nTokens.toNat = 0 := by
      omega
    rw [hn, hz, UInt64.zero_add, UInt64.lt_iff_toNat_lt, toU64_toNat (by omega)] at hlast
    rw [UInt64.lt_iff_toNat_lt, UInt64.toNat_zero] at hb
    omega

end Units

/-! ## Ready work -/

section Work

variable {sessions : SessionPool} {a : Planning} {s : ClientSession} {fd : Int} {sched : Scheduler}

theorem chunkFor_pos {budget : Int} (h : s.prefillReady = true) (hb : 0 < budget) : 0 < chunkFor s budget := by
  have hlt := (prefillReady_iff.mp h).2
  simp only [chunkFor, intMax, burst]
  split <;> omega

theorem foldl_planPrefill_ne_nil {l : List Int} (hs : sessions.lookup fd = some s) (hr : s.prefillReady = true)
    (hb : 0 < a.budget) : ((fd :: l).foldl (planPrefill sessions) a).plan.items ≠ [] := by
  have hpos := chunkFor_pos hr hb
  obtain ⟨new, hnew, -, -⟩ := foldl_planPrefill sessions l (planPrefill sessions a fd)
  have hfirst : (planPrefill sessions a fd).plan.items = a.plan.items ++ [⟨fd, .prefill, chunkFor s a.budget⟩] := by
    simp [planPrefill, hs, not_le.mpr hb, not_le.mpr hpos]
  rw [List.foldl_cons, hnew, hfirst]
  simp

theorem phaseB_ne_nil {pool : List Int} {rr : Nat} (hpool : pool ≠ [])
    (hr : ∀ fd ∈ pool, ∃ s, sessions.lookup fd = some s ∧ s.prefillReady = true) (hb : 0 < a.budget) :
    (phaseB sessions pool rr a).plan.items ≠ [] := by
  have hrot : ∀ first, ∀ fd ∈ emitPool sessions first (rotated pool rr),
      ∃ s, sessions.lookup fd = some s ∧ s.prefillReady = true :=
    fun first fd h => hr fd (mem_rotated.mp (emitPool_sublist.subset h))
  have hne : (!pool.isEmpty && decide (0 < a.budget)) = true := by simp [hpool, hb]
  rw [phaseB, if_pos hne]
  dsimp only
  cases htrue : emitPool sessions true (rotated pool rr) with
  | cons fd l =>
    obtain ⟨s, hs, hready⟩ := hrot true fd (by rw [htrue]; exact List.mem_cons_self)
    have hfirst := foldl_planPrefill_ne_nil (l := l) hs hready hb
    split
    next =>
      obtain ⟨new, hnew, -, -⟩ := foldl_planPrefill sessions (emitPool sessions false (rotated pool rr))
        ((fd :: l).foldl (planPrefill sessions) a)
      rw [hnew]
      intro hnil
      exact hfirst (List.append_eq_nil_iff.mp hnil).1
    next => exact hfirst
  | nil =>
    -- Everybody has emitted, so the rest pool is the whole pool.
    rw [List.foldl_nil, if_pos hb]
    cases hfalse : emitPool sessions false (rotated pool rr) with
    | cons fd l =>
      obtain ⟨s, hs, hready⟩ := hrot false fd (by rw [hfalse]; exact List.mem_cons_self)
      exact foldl_planPrefill_ne_nil hs hready hb
    | nil =>
      obtain ⟨fd, l, rfl⟩ := List.exists_cons_of_ne_nil hpool
      obtain ⟨s, hs, -⟩ := hr fd List.mem_cons_self
      have hmem : fd ∈ rotated (fd :: l) rr := mem_rotated.mpr List.mem_cons_self
      have hin : ∀ first, (decide (s.firstEmitNs = 0) == first) = true →
          fd ∈ emitPool sessions first (rotated (fd :: l) rr) := by
        intro first hf
        exact List.mem_filter.mpr ⟨hmem, by simp only [hs]; exact hf⟩
      by_cases h0 : s.firstEmitNs = 0
      · have := hin true (by simp [h0])
        rw [htrue] at this
        cases this
      · have := hin false (by simp [h0])
        rw [hfalse] at this
        cases this

/-- The policy plans something when a session is ready and there is a
budget. -/
theorem scheduleTick_ne_nil {cap target : Int} (rrd rrp : Nat) (hk : Keyed sessions) (hB : 0 < min target cap)
    (hs : sessions.lookup fd = some s) (hr : s.decodeReady = true ∨ s.prefillReady = true) :
    (scheduleTick sessions cap target rrd rrp).items ≠ [] := by
  simp only [scheduleTick]
  cases hdec : readyFds ClientSession.decodeReady sessions with
  | cons k l =>
    obtain ⟨new, hB', -, -⟩ := phaseB_items (a := phaseA (k :: l) rrd { budget := min target cap }) sessions
      (readyFds ClientSession.prefillReady sessions) rrp
    have hA : (phaseA (k :: l) rrd { budget := min target cap }).plan.items ≠ [] := by
      have hlen : 0 < (rotated (k :: l) rrd).length := by rw [rotated_eq, List.length_rotate]; simp
      simp only [phaseA, hB, foldl_planDecode]
      simp only [List.isEmpty_cons, Bool.not_false, decide_true, Bool.and_self, if_true, List.nil_append, ne_eq,
        List.map_eq_nil_iff, List.take_eq_nil_iff]
      rintro (h | h)
      · omega
      · rw [h] at hlen; exact absurd hlen (by simp)
    rw [hB']
    intro hnil
    exact hA (List.append_eq_nil_iff.mp hnil).1
  | nil =>
    have hfd : fd ∉ readyFds ClientSession.decodeReady sessions := by rw [hdec]; simp
    have hpre : s.prefillReady = true := hr.resolve_left fun hd => hfd ((mem_readyFds hk).mpr ⟨s, hs, hd⟩)
    refine phaseB_ne_nil ?_ (fun k hk' => (mem_readyFds hk).mp hk') (by simpa [phaseA] using hB)
    exact List.ne_nil_of_mem ((mem_readyFds hk).mpr ⟨s, hs, hpre⟩)

theorem scheduleTick_sized (sessions : SessionPool) (cap target : Int) (rrd rrp : Nat) :
    ∀ it ∈ (scheduleTick sessions cap target rrd rrp).items, 0 < it.nTokens ∧ it.nTokens ≤ intMax := by
  obtain ⟨a, ha, h⟩ := scheduleTick_balanced sessions cap target rrd rrp
  rw [← ha]
  exact h.sized

/-- The plan keeps a token through the guard, when the sessions in `PREFILL`
are at the start of their sequences. -/
theorem plan_keeps_token (cfg : RuntimeConfig) (hk : Keyed sessions) (hB : 0 < min sched.targetBatch sched.batchCap)
    (hz : ∀ fd s, sessions.lookup fd = some s → s.state = .prefill → s.nPast = 0)
    (hs : sessions.lookup fd = some s) (hr : s.decodeReady = true ∨ s.prefillReady = true) :
    ∃ it ∈ sched.items cfg sessions, 0 < it.nTokens := by
  have hne := scheduleTick_ne_nil sched.rrDecodeIdx sched.rrPrefillIdx hk hB hs hr
  have hok := scheduleTick_ok hk sched.batchCap sched.targetBatch sched.rrDecodeIdx sched.rrPrefillIdx
  have hsized := scheduleTick_sized sessions sched.batchCap sched.targetBatch sched.rrDecodeIdx sched.rrPrefillIdx
  unfold Scheduler.items Scheduler.plan
  generalize scheduleTick sessions sched.batchCap sched.targetBatch sched.rrDecodeIdx sched.rrPrefillIdx = plan
    at hne hok hsized ⊢
  dsimp only
  obtain ⟨first, rest, hitems⟩ := List.exists_cons_of_ne_nil hne
  have hfirst : first ∈ plan.items := by rw [hitems]; exact List.mem_cons_self
  split
  next hbudget =>
    have htrim := trimItems_trimmed sessions cfg.bmtBudgetUnits plan.items
      { est := estimateUnits sessions plan.items, prefillTokCount := plan.prefillTokCount }
    by_cases hdec : ∃ it ∈ plan.items, it.phase = .decode
    · obtain ⟨it, hit, hph⟩ := hdec
      obtain ⟨it', hit', ht⟩ := trimmed_target htrim hit
      exact ⟨it', hit', by rw [ht.decode hph]; exact (hsized it hit).1⟩
    · -- Chunks only, all of sessions in `PREFILL`.
      have hstart : ∀ it ∈ plan.items, AtStart sessions it := by
        intro it hit
        have hph : it.phase = .prefill := by
          cases hph : it.phase with
          | prefill => rfl
          | decode => exact absurd ⟨it, hit, hph⟩ hdec
        obtain ⟨t, ht, hm⟩ := hok.ready it hit
        rw [hph] at hm
        exact ⟨hph, ⟨t, ht, hz _ t ht (prefillReady_iff.mp hm.1).1⟩, (hsized it hit).2⟩
      simp only [bmtGuard, hitems] at hstart ⊢
      exact trimItems_leaves hbudget hstart (hsized first hfirst).1 rfl
  next => exact ⟨first, hfirst, (hsized first hfirst).1⟩

/-- **Ready work makes a batch**: some session is ready, the budget is
positive, and the sessions in `PREFILL` are at the start of their
sequences. -/
theorem batchRows_ne_nil (cfg : RuntimeConfig) (hk : Keyed sessions) (hB : 0 < min sched.targetBatch sched.batchCap)
    (hz : ∀ fd s, sessions.lookup fd = some s → s.state = .prefill → s.nPast = 0)
    (hs : sessions.lookup fd = some s) (hr : s.decodeReady = true ∨ s.prefillReady = true) :
    sched.batchRows cfg sessions ≠ [] := by
  obtain ⟨it, hit, hpos⟩ := plan_keeps_token cfg hk hB hz hs hr
  have hok := (plan_ok hk sched cfg).ready it hit
  obtain ⟨t, ht, -⟩ := id hok
  have hlen := itemRows_length hok ht
  have hrows : itemRows t it ≠ [] := by
    intro hnil
    rw [hnil] at hlen
    simp only [List.length_nil] at hlen
    omega
  obtain ⟨before, hserves⟩ := exists_serves hit ht hrows
  exact hserves.batch_ne

end Work
end UmaServe

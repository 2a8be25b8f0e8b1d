/-
Facts about the plan of a tick: it names each session at most once, and
every item names a session that is ready for it (`plan_ok`). The guard only
shortens prefill chunks, so what holds of the policy's items holds of the
trimmed ones too.
-/
import Mathlib.Data.List.Rotate
import UmaServe.Lib.Keyed
import UmaServe.Sched.Scheduler

namespace UmaServe

/-- Every session is filed under its own fd. -/
def Keyed (sessions : SessionPool) : Prop := ∀ fd s, sessions.lookup fd = some s → s.fd = fd

/-- The prompt tokens not fed yet. -/
def ClientSession.remaining (s : ClientSession) : Nat := s.promptTokens.length - s.prefillIdx

theorem decodeReady_iff {s : ClientSession} : s.decodeReady = true ↔ s.state = .decode ∧ s.hasPendingTok = true := by
  simp [ClientSession.decodeReady]

theorem prefillReady_iff {s : ClientSession} :
    s.prefillReady = true ↔ s.state = .prefill ∧ s.prefillIdx < s.promptTokens.length := by
  simp [ClientSession.prefillReady]

/-! ## The pools -/

section Pools

variable {sessions : SessionPool} {ready : ClientSession → Bool} {fd : Int} {pool : List Int} {rr : Nat}

theorem mem_readyFds (hk : Keyed sessions) :
    fd ∈ readyFds ready sessions ↔ ∃ s, sessions.lookup fd = some s ∧ ready s = true := by
  simp only [readyFds, List.mem_filterMap]
  constructor
  · intro ⟨⟨k, s⟩, hmem, h⟩
    have hl := AList.mem_entries_iff.mp hmem
    split at h
    next hr =>
      obtain rfl : s.fd = fd := by simpa using h
      exact ⟨s, by rw [hk k s hl]; exact hl, hr⟩
    next => cases h
  · intro ⟨s, hl, hr⟩
    exact ⟨⟨fd, s⟩, AList.mem_entries_iff.mpr hl, by simp [hr, hk fd s hl]⟩

theorem readyFds_nodup (hk : Keyed sessions) : (readyFds ready sessions).Nodup := by
  have he : readyFds ready sessions =
      (sessions.entries.filter fun e => ready e.2).map Sigma.fst := by
    rw [readyFds, ← List.filterMap_eq_map, List.filterMap_filter]
    refine List.filterMap_congr fun e hmem => ?_
    rw [hk e.1 e.2 (AList.mem_entries_iff.mp hmem)]
    rfl
  rw [he]
  exact List.Nodup.sublist (List.filter_sublist.map _) sessions.keys_nodup

theorem rotated_eq : rotated pool rr = pool.rotate rr := by
  refine List.ext_getElem (by simp [rotated]) fun i h₁ h₂ => ?_
  have hi : i < pool.length := by simpa [rotated] using h₁
  rw [List.getElem_rotate]
  simp only [rotated, List.getElem_map, List.getElem_range, List.getD_eq_getElem?_getD]
  rw [List.getElem?_eq_getElem (Nat.mod_lt _ (by omega)), Option.getD_some]
  simp only [Nat.add_comm]

theorem mem_rotated : fd ∈ rotated pool rr ↔ fd ∈ pool := by rw [rotated_eq, List.mem_rotate]

theorem rotated_nodup (h : pool.Nodup) : (rotated pool rr).Nodup := by
  rw [rotated_eq]; exact List.nodup_rotate.mpr h

theorem emitPool_sublist {first : Bool} : (emitPool sessions first pool).Sublist pool := List.filter_sublist

theorem emitPool_disjoint (h₁ : fd ∈ emitPool sessions true pool) : fd ∉ emitPool sessions false pool := by
  intro h₂
  have a := (List.mem_filter.mp h₁).2
  have b := (List.mem_filter.mp h₂).2
  cases hl : sessions.lookup fd with
  | none => rw [hl] at a; cases a
  | some s => rw [hl] at a b; simp_all

end Pools

/-! ## The loops of the policy -/

/-- Phase A serves the first sessions of the rotated pool, as many as the
budget allows. -/
theorem foldl_planDecode (l : List Int) (a : Planning) :
    (l.foldl planDecode a).plan.items =
      a.plan.items ++ (l.take a.budget.toNat).map fun fd => ⟨fd, .decode, 1⟩ := by
  induction l generalizing a with
  | nil => simp
  | cons fd l ih =>
    rw [List.foldl_cons, ih]
    by_cases hb : 0 < a.budget
    · obtain ⟨n, hn⟩ : ∃ n, a.budget.toNat = n + 1 := ⟨a.budget.toNat - 1, by omega⟩
      have hn' : (a.budget - 1).toNat = n := by omega
      simp [planDecode, hb, hn, hn']
    · have h0 : a.budget.toNat = 0 := by omega
      simp [planDecode, hb, h0]

/-- A prefill item within what its session has left. -/
def PrefillItem (sessions : SessionPool) (it : BatchItem) : Prop :=
  it.phase = .prefill ∧ ∃ s, sessions.lookup it.fd = some s ∧ 0 < it.nTokens ∧ it.nTokens ≤ s.remaining

theorem chunkFor_le {s : ClientSession} {budget : Int} : chunkFor s budget ≤ s.remaining := by
  simp only [chunkFor, ClientSession.remaining]
  split <;> omega

theorem foldl_planPrefill (sessions : SessionPool) (l : List Int) (a : Planning) :
    ∃ new, (l.foldl (planPrefill sessions) a).plan.items = a.plan.items ++ new ∧
      (new.map BatchItem.fd).Sublist l ∧ ∀ it ∈ new, PrefillItem sessions it := by
  induction l generalizing a with
  | nil => exact ⟨[], by simp, by simp, by simp⟩
  | cons fd l ih =>
    obtain ⟨new, h₁, h₂, h₃⟩ := ih (planPrefill sessions a fd)
    have keep : planPrefill sessions a fd = a →
        ∃ new, ((fd :: l).foldl (planPrefill sessions) a).plan.items = a.plan.items ++ new ∧
          (new.map BatchItem.fd).Sublist (fd :: l) ∧ ∀ it ∈ new, PrefillItem sessions it := fun he =>
      ⟨new, by rw [List.foldl_cons, h₁, he], h₂.cons _, h₃⟩
    by_cases hb : a.budget ≤ 0
    · exact keep (by simp [planPrefill, hb])
    cases hl : sessions.lookup fd with
    | none => exact keep (by simp [planPrefill, hl])
    | some s =>
      by_cases hc : chunkFor s a.budget ≤ 0
      · exact keep (by simp [planPrefill, hl, hc])
      · refine ⟨⟨fd, .prefill, chunkFor s a.budget⟩ :: new, ?_, ?_, ?_⟩
        · rw [List.foldl_cons, h₁]
          simp [planPrefill, hb, hl, hc]
        · exact h₂.cons_cons fd
        · intro it hit
          rcases List.mem_cons.mp hit with rfl | hit
          · exact ⟨rfl, s, hl, not_le.mp hc, chunkFor_le⟩
          · exact h₃ it hit

/-! ## Items and what they name -/

/-- The session an item names is ready for it. A trimmed chunk may be empty. -/
def ItemOk (sessions : SessionPool) (it : BatchItem) : Prop :=
  ∃ s, sessions.lookup it.fd = some s ∧
    match it.phase with
    | .decode => s.decodeReady = true ∧ it.nTokens = 1
    | .prefill => s.prefillReady = true ∧ 0 ≤ it.nTokens ∧ it.nTokens ≤ s.remaining

/-- Each session is named at most once, and is ready. -/
structure PlanOk (sessions : SessionPool) (items : List BatchItem) : Prop where
  nodup : (items.map BatchItem.fd).Nodup
  ready : ∀ it ∈ items, ItemOk sessions it

section Policy

variable {sessions : SessionPool} {a : Planning}

theorem phaseA_items (decodePool : List Int) (rr : Nat) :
    ∃ k, (phaseA decodePool rr a).plan.items =
      a.plan.items ++ ((rotated decodePool rr).take k).map fun fd => ⟨fd, .decode, 1⟩ := by
  unfold phaseA
  split
  · exact ⟨_, foldl_planDecode _ a⟩
  · exact ⟨0, by simp⟩

theorem phaseB_items (sessions : SessionPool) (prefillPool : List Int) (rr : Nat) :
    ∃ new, (phaseB sessions prefillPool rr a).plan.items = a.plan.items ++ new ∧
      (prefillPool.Nodup → (new.map BatchItem.fd).Nodup) ∧
      (∀ it ∈ new, PrefillItem sessions it ∧ it.fd ∈ prefillPool) := by
  unfold phaseB
  split
  next =>
    obtain ⟨t, ht, hts, htok⟩ := foldl_planPrefill sessions (emitPool sessions true (rotated prefillPool rr)) a
    have hmem : ∀ first, ∀ fd ∈ emitPool sessions first (rotated prefillPool rr), fd ∈ prefillPool :=
      fun first fd h => mem_rotated.mp (emitPool_sublist.subset h)
    have hnd : ∀ first, prefillPool.Nodup → (emitPool sessions first (rotated prefillPool rr)).Nodup :=
      fun first h => emitPool_sublist.nodup (rotated_nodup h)
    dsimp only
    split
    next =>
      -- Both pools were scheduled.
      obtain ⟨r, hr, hrs, hrok⟩ := foldl_planPrefill sessions (emitPool sessions false (rotated prefillPool rr))
        ((emitPool sessions true (rotated prefillPool rr)).foldl (planPrefill sessions) a)
      refine ⟨t ++ r, by rw [hr, ht, List.append_assoc], fun hn => ?_, fun it hit => ?_⟩
      · rw [List.map_append, List.nodup_append]
        refine ⟨hts.nodup (hnd true hn), hrs.nodup (hnd false hn), ?_⟩
        rintro fd h₁ fd' h₂ rfl
        exact emitPool_disjoint (hts.subset h₁) (hrs.subset h₂)
      · rcases List.mem_append.mp hit with hit | hit
        · exact ⟨htok it hit, hmem true _ (hts.subset (List.mem_map_of_mem hit))⟩
        · exact ⟨hrok it hit, hmem false _ (hrs.subset (List.mem_map_of_mem hit))⟩
    next =>
      exact ⟨t, ht, fun hn => hts.nodup (hnd true hn), fun it hit =>
        ⟨htok it hit, hmem true _ (hts.subset (List.mem_map_of_mem hit))⟩⟩
  next => exact ⟨[], by simp, by simp, by simp⟩

theorem scheduleTick_ok (hk : Keyed sessions) (cap target : Int) (rrd rrp : Nat) :
    PlanOk sessions (scheduleTick sessions cap target rrd rrp).items := by
  obtain ⟨k, hA⟩ := phaseA_items (a := { budget := min target cap })
    (readyFds ClientSession.decodeReady sessions) rrd
  obtain ⟨new, hB, hnd, hnew⟩ := phaseB_items
    (a := phaseA (readyFds ClientSession.decodeReady sessions) rrd { budget := min target cap }) sessions
    (readyFds ClientSession.prefillReady sessions) rrp
  have hitems : (scheduleTick sessions cap target rrd rrp).items =
      ((rotated (readyFds ClientSession.decodeReady sessions) rrd).take k).map (fun fd => ⟨fd, .decode, 1⟩) ++ new := by
    simp only [scheduleTick]
    rw [hB, hA, List.nil_append]
  have hdec : ∀ fd ∈ (rotated (readyFds ClientSession.decodeReady sessions) rrd).take k,
      ∃ s, sessions.lookup fd = some s ∧ s.decodeReady = true := fun fd h =>
    (mem_readyFds hk).mp (mem_rotated.mp (List.mem_of_mem_take h))
  rw [hitems]
  constructor
  · have hfst : (((rotated (readyFds ClientSession.decodeReady sessions) rrd).take k).map
        (fun fd => (⟨fd, .decode, 1⟩ : BatchItem))).map BatchItem.fd =
        (rotated (readyFds ClientSession.decodeReady sessions) rrd).take k := by
      rw [List.map_map]
      exact List.map_id _
    rw [List.map_append, hfst, List.nodup_append]
    refine ⟨(rotated_nodup (readyFds_nodup hk)).sublist (List.take_sublist _ _), hnd (readyFds_nodup hk), ?_⟩
    rintro fd h₁ fd' h₂ rfl
    -- A session is not in both states.
    obtain ⟨it, hit, hfd⟩ := List.mem_map.mp h₂
    obtain ⟨s, hs, hr⟩ := hdec fd h₁
    obtain ⟨s', hs', hr'⟩ := (mem_readyFds hk).mp (hnew it hit).2
    rw [hfd, hs] at hs'
    cases hs'
    have h₃ := (decodeReady_iff.mp hr).1
    rw [(prefillReady_iff.mp hr').1] at h₃
    cases h₃
  · intro it hit
    rcases List.mem_append.mp hit with hit | hit
    · obtain ⟨fd, hfd, rfl⟩ := List.mem_map.mp hit
      obtain ⟨s, hs, hr⟩ := hdec fd hfd
      exact ⟨s, hs, hr, rfl⟩
    · obtain ⟨⟨hph, s, hs, hpos, hle⟩, hfd⟩ := hnew it hit
      obtain ⟨s', hs', hr⟩ := (mem_readyFds hk).mp hfd
      rw [hs] at hs'
      cases hs'
      exact ⟨s, hs, by rw [hph]; exact ⟨hr, by omega, hle⟩⟩

end Policy

/-! ## The guard -/

/-- An item after the guard: the same, or a shorter prefill chunk. -/
structure Trimmed (it it' : BatchItem) : Prop where
  fd : it'.fd = it.fd
  phase : it'.phase = it.phase
  decode : it.phase = .decode → it'.nTokens = it.nTokens
  nonneg : 0 ≤ it.nTokens → 0 ≤ it'.nTokens
  le : it'.nTokens ≤ it.nTokens

theorem Trimmed.refl (it : BatchItem) : Trimmed it it := ⟨rfl, rfl, fun _ => rfl, id, le_refl _⟩

theorem trimChunk_le (base budget : UInt64) (n : Nat) (t : Trim) : (trimChunk base budget n t).1 ≤ n := by
  induction n generalizing t with
  | zero => exact Nat.le_refl 0
  | succ n ih =>
    unfold trimChunk
    split
    · exact Nat.le_succ_of_le (ih _)
    · exact Nat.le_refl _

theorem trimItem_trimmed (sessions : SessionPool) (budget : UInt64) (it : BatchItem) (t : Trim) :
    Trimmed it (trimItem sessions budget it t).1 := by
  unfold trimItem
  split
  next =>
    split
    next => exact .refl it
    next h =>
      rw [not_or, not_not, not_le] at h
      have hle := trimChunk_le (toU64 (((sessions.lookup it.fd).map (·.nPast)).getD 0)) budget it.nTokens.toNat t
      refine ⟨rfl, rfl, fun hd => ?_, fun _ => ?_, ?_⟩
      · rw [h.1] at hd; cases hd
      · exact Int.natCast_nonneg _
      · dsimp only
        omega
  next => exact .refl it

theorem trimItems_trimmed (sessions : SessionPool) (budget : UInt64) (items : List BatchItem) (t : Trim) :
    List.Forall₂ Trimmed items (trimItems sessions budget items t).1 := by
  induction items generalizing t with
  | nil => exact .nil
  | cons it items ih => exact .cons (trimItem_trimmed _ _ _ _) (ih t)

theorem ItemOk.trimmed {sessions : SessionPool} {it it' : BatchItem} (h : ItemOk sessions it) (ht : Trimmed it it') :
    ItemOk sessions it' := by
  obtain ⟨s, hs, hm⟩ := h
  refine ⟨s, by rw [ht.fd]; exact hs, ?_⟩
  rw [ht.phase]
  cases hph : it.phase with
  | decode =>
    rw [hph] at hm
    exact ⟨hm.1, by rw [ht.decode hph]; exact hm.2⟩
  | prefill =>
    rw [hph] at hm
    exact ⟨hm.1, ht.nonneg hm.2.1, le_trans ht.le hm.2.2⟩

theorem PlanOk.trimmed {sessions : SessionPool} {items items' : List BatchItem} (h : PlanOk sessions items)
    (ht : List.Forall₂ Trimmed items items') : PlanOk sessions items' := by
  have hfd : items'.map BatchItem.fd = items.map BatchItem.fd := by
    induction ht with
    | nil => rfl
    | cons hh _ ih =>
      simp only [List.map_cons, hh.fd, List.cons.injEq, true_and]
      exact ih ⟨(List.nodup_cons.mp h.nodup).2, fun it hit => h.ready it (List.mem_cons_of_mem _ hit)⟩
  refine ⟨hfd ▸ h.nodup, fun it' hit' => ?_⟩
  obtain ⟨i, hi, rfl⟩ := List.getElem_of_mem hit'
  have hi' : i < items.length := ht.length_eq ▸ hi
  exact (h.ready _ (List.getElem_mem hi')).trimmed (List.forall₂_iff_get.mp ht |>.2 i hi' hi)

/-- **The plan of a tick** names each session at most once, and every
session it names is ready for its item. -/
theorem plan_ok {sessions : SessionPool} (hk : Keyed sessions) (sched : Scheduler) (cfg : RuntimeConfig) :
    PlanOk sessions (sched.plan cfg sessions).items := by
  have h := scheduleTick_ok hk sched.batchCap sched.targetBatch sched.rrDecodeIdx sched.rrPrefillIdx
  unfold Scheduler.plan
  split
  · exact h.trimmed (trimItems_trimmed _ _ _ _)
  · exact h

end UmaServe

/-
What the policy allocates. A plan is one budget granted to one list of
requesters (`scheduleTick_items`): the decode-ready sessions ask for a token
each, then the sessions that have emitted nothing ask for their prompt up to
the burst, then the others for all of theirs, each pool from its cursor on.
That a plan is well formed, serves in this order, leaves no budget unused
and treats the decode-ready sessions alike is read off from there.
-/
import UmaServe.Lib.Grant
import UmaServe.Sched.GuardFacts

namespace UmaServe

open Lib

/-- A session, the phase it is in, and the tokens it asks for. -/
abbrev Want := (Int × Phase) × Nat

/-- What a session in prefill asks for. -/
def ClientSession.want (s : ClientSession) : Nat :=
  let remain := min s.remaining intMax.toNat
  if s.firstEmitNs = 0 then min remain burst.toNat else remain

def decodeWant (fd : Int) : Want := ((fd, .decode), 1)

def prefillWant (sessions : SessionPool) (fd : Int) : List Want :=
  match sessions.lookup fd with
  | none => []
  | some s => [((fd, .prefill), s.want)]

/-- The decode-ready sessions from the cursor on. -/
def decodeWants (sessions : SessionPool) (rr : Nat) : List Want :=
  (rotated (readyFds ClientSession.decodeReady sessions) rr).map decodeWant

/-- The prefill-ready sessions from the cursor on that have emitted nothing
yet (`first = true`), or have. -/
def prefillWants (sessions : SessionPool) (rr : Nat) (first : Bool) : List Want :=
  (emitPool sessions first (rotated (readyFds ClientSession.prefillReady sessions) rr)).flatMap (prefillWant sessions)

/-- Everybody, in the order in which the policy serves them. -/
def wants (sessions : SessionPool) (rrDecodeIdx rrPrefillIdx : Nat) : List Want :=
  decodeWants sessions rrDecodeIdx ++
    (prefillWants sessions rrPrefillIdx true ++ prefillWants sessions rrPrefillIdx false)

/-- The item of a grant. -/
def Want.item (w : Want) : BatchItem := ⟨w.1.1, w.1.2, w.2⟩

/-! ## The loops grant -/

section Loops

variable {sessions : SessionPool} {a : Planning} {f : Planning → Int → Planning} {w : Int → List Want} {fd : Int}

/-- A step of the policy's loops grants what `ws` ask for. -/
def Granted (a b : Planning) (ws : List Want) : Prop :=
  b.plan.items = a.plan.items ++ (grant a.budget.toNat ws).map Want.item ∧
    b.budget.toNat = a.budget.toNat - asked ws

theorem Granted.refl (a : Planning) : Granted a a [] := ⟨by simp [grant], rfl⟩

theorem Granted.trans {b c : Planning} {ws ws' : List Want} (h : Granted a b ws) (h' : Granted b c ws') :
    Granted a c (ws ++ ws') := by
  refine ⟨?_, ?_⟩
  · rw [h'.1, h.1, h.2, grant_append, List.map_append, List.append_assoc]
  · rw [h'.2, h.2, asked_append, Nat.sub_sub]

theorem Granted.spent (ws : List Want) (h : a.budget ≤ 0) : Granted a a ws := by
  have h0 : a.budget.toNat = 0 := by omega
  refine ⟨by simp [h0], by omega⟩

theorem planDecode_granted (a : Planning) (fd : Int) : Granted a (planDecode a fd) [decodeWant fd] := by
  unfold planDecode
  split
  next hb =>
    have h1 : min 1 a.budget.toNat = 1 := by omega
    refine ⟨?_, ?_⟩
    · simp [grant, decodeWant, h1, Want.item]
    · simp only [decodeWant, asked_cons, asked_nil]
      omega
  next hb => exact .spent _ (by omega)

theorem chunkFor_eq (s : ClientSession) {budget : Int} (hb : 0 < budget) :
    chunkFor s budget = (min s.want budget.toNat : Nat) := by
  simp only [chunkFor, ClientSession.want, ClientSession.remaining, intMax, burst]
  split <;> omega

theorem planPrefill_granted (sessions : SessionPool) (a : Planning) (fd : Int) :
    Granted a (planPrefill sessions a fd) (prefillWant sessions fd) := by
  by_cases hb : a.budget ≤ 0
  · rw [planPrefill, if_pos hb]
    exact .spent _ hb
  cases hs : sessions.lookup fd with
  | none =>
    simp only [planPrefill, prefillWant, hs, if_neg hb]
    exact .refl a
  | some s =>
    have hchunk := chunkFor_eq s (not_le.mp hb)
    simp only [planPrefill, prefillWant, hs, if_neg hb, hchunk]
    by_cases h0 : min s.want a.budget.toNat = 0
    · rw [if_pos (by omega)]
      refine ⟨by simp [grant, h0], ?_⟩
      simp only [asked_cons, asked_nil]
      omega
    · rw [if_neg (by omega)]
      refine ⟨by rw [grant, if_neg h0]; rfl, ?_⟩
      simp only [asked_cons, asked_nil]
      omega

theorem foldl_granted (hf : ∀ a fd, Granted a (f a fd) (w fd)) (l : List Int) (a : Planning) :
    Granted a (l.foldl f a) (l.flatMap w) := by
  induction l generalizing a with
  | nil => exact .refl a
  | cons fd l ih =>
    rw [List.foldl_cons, List.flatMap_cons]
    exact (hf a fd).trans (ih _)

theorem phaseA_granted (pool : List Int) (rr : Nat) (a : Planning) :
    Granted a (phaseA pool rr a) ((rotated pool rr).map decodeWant) := by
  unfold phaseA
  split
  next =>
    have h := foldl_granted planDecode_granted (rotated pool rr) a
    rw [← List.map_eq_flatMap] at h
    exact h
  next hno =>
    simp only [Bool.and_eq_true, Bool.not_eq_true', List.isEmpty_eq_false_iff, decide_eq_true_eq, not_and] at hno
    by_cases hp : pool = []
    · subst hp
      exact .refl a
    · exact .spent _ (not_lt.mp (hno hp))

theorem phaseB_granted (sessions : SessionPool) (pool : List Int) (rr : Nat) (a : Planning) :
    Granted a (phaseB sessions pool rr a) ((emitPool sessions true (rotated pool rr)).flatMap (prefillWant sessions) ++
      (emitPool sessions false (rotated pool rr)).flatMap (prefillWant sessions)) := by
  have hfold := fun first a =>
    foldl_granted (planPrefill_granted sessions) (emitPool sessions first (rotated pool rr)) a
  unfold phaseB
  split
  next =>
    refine (hfold true a).trans ?_
    dsimp only
    split
    next => exact hfold false _
    next hb => exact .spent _ (not_lt.mp hb)
  next hno =>
    simp only [Bool.and_eq_true, Bool.not_eq_true', List.isEmpty_eq_false_iff, decide_eq_true_eq, not_and] at hno
    by_cases hp : pool = []
    · subst hp
      exact .refl a
    · exact .spent _ (not_lt.mp (hno hp))

/-- **A plan is a budget granted in order.** -/
theorem scheduleTick_items (sessions : SessionPool) (cap target : Int) (rrd rrp : Nat) :
    (scheduleTick sessions cap target rrd rrp).items =
      (grant (min target cap).toNat (wants sessions rrd rrp)).map Want.item := by
  have hA := phaseA_granted (readyFds ClientSession.decodeReady sessions) rrd { budget := min target cap }
  have hB := phaseB_granted sessions (readyFds ClientSession.prefillReady sessions) rrp
    (phaseA (readyFds ClientSession.decodeReady sessions) rrd { budget := min target cap })
  exact (hA.trans hB).1

end Loops

/-! ## Who asks for what -/

section Wants

variable {sessions : SessionPool} {rr rrd rrp : Nat} {fd : Int} {s : ClientSession} {first : Bool} {w : Want}

theorem mem_decodeWants (hk : Keyed sessions) :
    w ∈ decodeWants sessions rr ↔ ∃ fd s, w = decodeWant fd ∧ sessions.lookup fd = some s ∧ s.decodeReady = true := by
  simp only [decodeWants, List.mem_map, mem_rotated, mem_readyFds hk]
  constructor
  · intro ⟨fd, ⟨s, hs, hr⟩, hw⟩
    exact ⟨fd, s, hw.symm, hs, hr⟩
  · intro ⟨fd, s, hw, hs, hr⟩
    exact ⟨fd, ⟨s, hs, hr⟩, hw.symm⟩

theorem mem_prefillWants (hk : Keyed sessions) :
    w ∈ prefillWants sessions rr first ↔
      ∃ fd s, w = ((fd, .prefill), s.want) ∧ sessions.lookup fd = some s ∧ s.prefillReady = true ∧
        decide (s.firstEmitNs = 0) = first := by
  simp only [prefillWants, List.mem_flatMap, emitPool, List.mem_filter, mem_rotated, mem_readyFds hk]
  constructor
  · intro ⟨fd, ⟨⟨s, hs, hr⟩, hf⟩, hw⟩
    simp only [hs, beq_iff_eq] at hf
    simp only [prefillWant, hs, List.mem_singleton] at hw
    exact ⟨fd, s, hw, hs, hr, hf⟩
  · intro ⟨fd, s, hw, hs, hr, hf⟩
    refine ⟨fd, ⟨⟨s, hs, hr⟩, ?_⟩, ?_⟩
    · simp only [hs, beq_iff_eq]
      exact hf
    · simp only [prefillWant, hs, List.mem_singleton]
      exact hw

theorem want_le (s : ClientSession) : s.want ≤ s.remaining := by
  simp only [ClientSession.want]
  split <;> omega

theorem want_pos (h : s.prefillReady = true) : 0 < s.want := by
  have hlt := (prefillReady_iff.mp h).2
  simp only [ClientSession.want, ClientSession.remaining, intMax, burst]
  split <;> omega

theorem want_first (h : s.firstEmitNs = 0) : s.want = min s.remaining 16 := by
  simp only [ClientSession.want, if_pos h, intMax, burst]
  omega

theorem want_rest (h : s.firstEmitNs ≠ 0) : s.want = min s.remaining intMax.toNat := by
  simp only [ClientSession.want, if_neg h]

theorem item_first (fd : Int) (h : s.firstEmitNs = 0) :
    Want.item ((fd, .prefill), s.want) = ⟨fd, .prefill, min s.remaining 16⟩ := by
  simp only [Want.item, want_first h, Nat.cast_min, Nat.cast_ofNat]

/-- An item of a plan is part of what its session asks for. -/
theorem mem_scheduleTick (hk : Keyed sessions) {cap target : Int} {it : BatchItem}
    (h : it ∈ (scheduleTick sessions cap target rrd rrp).items) :
    ∃ s, sessions.lookup it.fd = some s ∧ 1 ≤ it.nTokens ∧
      (it.phase = .decode ∧ s.decodeReady = true ∧ it.nTokens = 1 ∨
        it.phase = .prefill ∧ s.prefillReady = true ∧ it.nTokens ≤ s.want) := by
  rw [scheduleTick_items] at h
  obtain ⟨⟨⟨fd, ph⟩, n⟩, hg, rfl⟩ := List.mem_map.mp h
  obtain ⟨hpos, m, hm, hle⟩ := mem_grant hg
  simp only [wants, List.mem_append] at hm
  rcases hm with hm | hm | hm
  · obtain ⟨fd', s, hw, hs, hr⟩ := (mem_decodeWants hk).mp hm
    cases hw
    refine ⟨s, hs, ?_, .inl ⟨rfl, hr, ?_⟩⟩
    · simp only [Want.item]; omega
    · simp only [Want.item]; omega
  all_goals
    obtain ⟨fd', s, hw, hs, hr, -⟩ := (mem_prefillWants hk).mp hm
    cases hw
    refine ⟨s, hs, ?_, .inr ⟨rfl, hr, ?_⟩⟩
    · simp only [Want.item]; omega
    · simp only [Want.item]; omega

end Wants

/-! ## Well-formed plans -/

section WellFormed

variable {sessions : SessionPool}

theorem phaseA_next (pool : List Int) (rr : Nat) (a : Planning) :
    (phaseA pool rr a).plan.nextRrDecodeIdx = if pool ≠ [] ∧ 0 < a.budget then (rr + 1) % pool.length else 0 := by
  unfold phaseA
  simp only [Bool.and_eq_true, Bool.not_eq_true', List.isEmpty_eq_false_iff, decide_eq_true_eq]
  split <;> rfl

theorem phaseB_next (sessions : SessionPool) (pool : List Int) (rr : Nat) (a : Planning) :
    (phaseB sessions pool rr a).plan.nextRrPrefillIdx =
      if pool ≠ [] ∧ 0 < a.budget then (rr + 1) % pool.length else 0 := by
  unfold phaseB
  simp only [Bool.and_eq_true, Bool.not_eq_true', List.isEmpty_eq_false_iff, decide_eq_true_eq]
  split <;> rfl

theorem cursor_in_range (pool : List Int) (rr : Nat) (c : Prop) [Decidable c] :
    (if pool ≠ [] ∧ c then (rr + 1) % pool.length else 0) = 0 ∨
      (if pool ≠ [] ∧ c then (rr + 1) % pool.length else 0) < pool.length := by
  split
  next h => exact .inr (Nat.mod_lt _ (List.length_pos_iff.mpr h.1))
  next => exact .inl rfl

theorem foldl_planPrefill_next (l : List Int) (a : Planning) :
    (l.foldl (planPrefill sessions) a).plan.nextRrDecodeIdx = a.plan.nextRrDecodeIdx := by
  induction l generalizing a with
  | nil => rfl
  | cons fd l ih =>
    rw [List.foldl_cons, ih]
    unfold planPrefill
    split
    · rfl
    · split
      · rfl
      · dsimp only
        split <;> rfl

theorem phaseB_nextDecode (pool : List Int) (rr : Nat) (a : Planning) :
    (phaseB sessions pool rr a).plan.nextRrDecodeIdx = a.plan.nextRrDecodeIdx := by
  unfold phaseB
  split
  · dsimp only
    split
    · rw [foldl_planPrefill_next, foldl_planPrefill_next]
    · rw [foldl_planPrefill_next]
  · rfl

theorem scheduleTick_nextDecode (sessions : SessionPool) (cap target : Int) (rrd rrp : Nat) :
    (scheduleTick sessions cap target rrd rrp).nextRrDecodeIdx =
      if readyFds ClientSession.decodeReady sessions ≠ [] ∧ 0 < min target cap then
        (rrd + 1) % (readyFds ClientSession.decodeReady sessions).length else 0 := by
  simp only [scheduleTick, phaseB_nextDecode, phaseA_next]

/-- **Plans are well formed.** -/
theorem plan_well_formed (hk : Keyed sessions) (cap target : Int) (rrd rrp : Nat) :
    let plan := scheduleTick sessions cap target rrd rrp
    (plan.items.map BatchItem.fd).Nodup ∧
    (∀ it ∈ plan.items, it.phase = .decode → it.nTokens = 1 ∧
      ∃ s, sessions.lookup it.fd = some s ∧ s.state = .decode ∧ s.hasPendingTok = true) ∧
    (∀ it ∈ plan.items, it.phase = .prefill → ∃ s, sessions.lookup it.fd = some s ∧ s.state = .prefill ∧
      1 ≤ it.nTokens ∧ it.nTokens ≤ (s.promptTokens.length : Int) - s.prefillIdx ∧
      (s.firstEmitNs = 0 → it.nTokens ≤ 16)) ∧
    plan.decodeTokCount = tokensOf .decode plan.items ∧
    plan.prefillTokCount = tokensOf .prefill plan.items ∧
    plan.decodeTokCount + plan.prefillTokCount ≤ max 0 (min target cap) ∧
    (plan.nextRrDecodeIdx = 0 ∨ plan.nextRrDecodeIdx < (readyFds ClientSession.decodeReady sessions).length) ∧
    (plan.nextRrPrefillIdx = 0 ∨ plan.nextRrPrefillIdx < (readyFds ClientSession.prefillReady sessions).length) := by
  intro plan
  have hcount := scheduleTick_counted sessions cap target rrd rrp
  refine ⟨(scheduleTick_ok hk cap target rrd rrp).nodup, ?_, ?_, hcount.decode, hcount.prefill, hcount.le, ?_, ?_⟩
  · intro it hit hph
    obtain ⟨s, hs, -, ⟨-, hr, h1⟩ | ⟨hpre, -⟩⟩ := mem_scheduleTick hk hit
    · exact ⟨h1, s, hs, decodeReady_iff.mp hr⟩
    · rw [hph] at hpre; cases hpre
  · intro it hit hph
    obtain ⟨s, hs, hpos, ⟨hdec, -⟩ | ⟨-, hr, hle⟩⟩ := mem_scheduleTick hk hit
    · rw [hph] at hdec; cases hdec
    · obtain ⟨hst, hlt⟩ := prefillReady_iff.mp hr
      have hrem := want_le s
      unfold ClientSession.remaining at hrem
      refine ⟨s, hs, hst, hpos, by omega, fun h0 => ?_⟩
      have := want_first h0
      omega
  · have h := cursor_in_range (readyFds ClientSession.decodeReady sessions) rrd (0 < min target cap)
    rw [← scheduleTick_nextDecode sessions cap target rrd rrp] at h
    exact h
  · have h := cursor_in_range (readyFds ClientSession.prefillReady sessions) rrp
      (0 < (phaseA (readyFds ClientSession.decodeReady sessions) rrd { budget := min target cap }).budget)
    rw [← phaseB_next sessions] at h
    exact h

theorem keyed_of_entries (h : ∀ e ∈ sessions.entries, e.2.fd = e.1) : Keyed sessions :=
  fun fd s hs => h ⟨fd, s⟩ (AList.mem_entries_iff.mpr hs)

/-- Two sessions in decode, one that waits for its first token, and one with
the end of its prompt left. -/
def mixed : SessionPool where
  entries :=
    [⟨3, { fd := 3, state := .decode, hasPendingTok := true }⟩,
      ⟨6, { fd := 6, state := .prefill, promptTokens := List.replicate 20 1 }⟩,
      ⟨4, { fd := 4, state := .decode, hasPendingTok := true }⟩,
      ⟨7, { fd := 7, state := .prefill, promptTokens := List.replicate 20 1, prefillIdx := 15, firstEmitNs := 9 }⟩]
  nodupKeys := by simp [List.NodupKeys, List.keys]

theorem mixed_keyed : Keyed mixed := keyed_of_entries (by decide)

theorem plan_well_formed_mixed :
    (scheduleTick mixed 64 20 1 0).items = [⟨4, .decode, 1⟩, ⟨3, .decode, 1⟩, ⟨6, .prefill, 16⟩, ⟨7, .prefill, 2⟩] ∧
      ((scheduleTick mixed 64 20 1 0).items.map BatchItem.fd).Nodup ∧
      (scheduleTick mixed 64 20 1 0).decodeTokCount + (scheduleTick mixed 64 20 1 0).prefillTokCount ≤ 20 := by
  obtain ⟨hnodup, -, -, -, -, hle, -⟩ := plan_well_formed mixed_keyed 64 20 1 0
  exact ⟨by decide +kernel, hnodup, hle⟩

end WellFormed

/-! ## Priorities -/

section Priorities

variable {sessions : SessionPool} {cap target : Int} {rrd rrp : Nat} {it : BatchItem} {fd : Int} {s : ClientSession}

theorem grant_prefill {b : Nat} {first : Bool} {g : Want} (hk : Keyed sessions)
    (h : g ∈ grant b (prefillWants sessions rrp first)) :
    g.item.phase = .prefill ∧ ∃ s, sessions.lookup g.item.fd = some s ∧ decide (s.firstEmitNs = 0) = first := by
  obtain ⟨⟨fd, ph⟩, n⟩ := g
  obtain ⟨-, m, hm, -⟩ := mem_grant h
  obtain ⟨fd', s, hw, hs, -, hf⟩ := (mem_prefillWants hk).mp hm
  cases hw
  exact ⟨rfl, s, hs, hf⟩

/-- The items of a plan, phase by phase. -/
theorem scheduleTick_split (hk : Keyed sessions) (cap target : Int) (rrd rrp : Nat) :
    ∃ pre, (scheduleTick sessions cap target rrd rrp).items =
        ((rotated (readyFds ClientSession.decodeReady sessions) rrd).take (min target cap).toNat).map
          (fun fd => ⟨fd, .decode, 1⟩) ++ pre ∧
      (∀ it ∈ pre, it.phase = .prefill) := by
  have hunits : decodeWants sessions rrd =
      ((rotated (readyFds ClientSession.decodeReady sessions) rrd).map fun fd => (fd, Phase.decode)).map
        fun i => (i, 1) := by
    rw [decodeWants, List.map_map]
    rfl
  refine ⟨(grant ((min target cap).toNat - asked (decodeWants sessions rrd))
    (prefillWants sessions rrp true ++ prefillWants sessions rrp false)).map Want.item, ?_, ?_⟩
  · rw [scheduleTick_items, wants, grant_append, List.map_append]
    congr 1
    rw [hunits, grant_units, ← List.map_take, List.map_map, List.map_map]
    rfl
  · intro it hit
    obtain ⟨g, hg, rfl⟩ := List.mem_map.mp hit
    rw [grant_append] at hg
    rcases List.mem_append.mp hg with hg | hg
    · exact (grant_prefill hk hg).1
    · exact (grant_prefill hk hg).1

theorem decode_first (hk : Keyed sessions) (hit : it ∈ (scheduleTick sessions cap target rrd rrp).items)
    (hph : it.phase = .prefill) (hs : sessions.lookup fd = some s) (hr : s.decodeReady = true) :
    ⟨fd, .decode, 1⟩ ∈ (scheduleTick sessions cap target rrd rrp).items := by
  rw [scheduleTick_items] at hit ⊢
  obtain ⟨g, hg, rfl⟩ := List.mem_map.mp hit
  have hw : decodeWant fd ∈ decodeWants sessions rrd := (mem_decodeWants hk).mpr ⟨fd, s, rfl, hs, hr⟩
  rw [wants, grant_append] at hg
  refine List.mem_map.mpr ⟨decodeWant fd, grant_priority ?_ hw Nat.one_pos, rfl⟩
  rcases List.mem_append.mp hg with hg | hg
  · obtain ⟨⟨fd', ph⟩, n⟩ := g
    obtain ⟨-, m, hm, -⟩ := mem_grant hg
    obtain ⟨fd'', s', hw', -⟩ := (mem_decodeWants hk).mp hm
    cases hw'
    cases hph
  · exact List.ne_nil_of_mem hg

/-- Somebody who has emitted is served, so everybody who has not gets the
burst. -/
theorem first_token_first (hk : Keyed sessions) (hit : it ∈ (scheduleTick sessions cap target rrd rrp).items)
    (hph : it.phase = .prefill) {s' : ClientSession} (hs' : sessions.lookup it.fd = some s') (h' : s'.firstEmitNs ≠ 0)
    (hs : sessions.lookup fd = some s) (hr : s.prefillReady = true) (h0 : s.firstEmitNs = 0) :
    ⟨fd, .prefill, min s.remaining 16⟩ ∈ (scheduleTick sessions cap target rrd rrp).items := by
  rw [scheduleTick_items, wants, ← List.append_assoc] at hit ⊢
  obtain ⟨g, hg, rfl⟩ := List.mem_map.mp hit
  have hw : ((fd, Phase.prefill), s.want) ∈ decodeWants sessions rrd ++ prefillWants sessions rrp true :=
    List.mem_append_right _ ((mem_prefillWants hk).mpr ⟨fd, s, rfl, hs, hr, by simp [h0]⟩)
  rw [← item_first fd h0]
  refine List.mem_map.mpr ⟨_, grant_priority ?_ hw (want_pos hr), rfl⟩
  -- The grant to one who has emitted comes from the last pool.
  rw [grant_append] at hg
  rcases List.mem_append.mp hg with hg | hg
  · rw [grant_append] at hg
    rcases List.mem_append.mp hg with hg | hg
    · obtain ⟨⟨fd', ph⟩, n⟩ := g
      obtain ⟨-, m, hm, -⟩ := mem_grant hg
      obtain ⟨fd'', _, hw', -⟩ := (mem_decodeWants hk).mp hm
      cases hw'
      cases hph
    · obtain ⟨-, s'', hs'', hf⟩ := grant_prefill hk hg
      rw [hs'] at hs''
      cases hs''
      exact absurd (of_decide_eq_true hf) h'
  · exact List.ne_nil_of_mem hg

theorem tokensOf_item (l : List Want) :
    tokensOf .decode (l.map Want.item) + tokensOf .prefill (l.map Want.item) = asked l := by
  induction l with
  | nil => rfl
  | cons w l ih =>
    obtain ⟨⟨fd, ph⟩, n⟩ := w
    rw [List.map_cons, tokensOf_cons, tokensOf_cons, asked_cons]
    cases ph with
    | decode => simp only [Want.item, if_true, reduceCtorEq, if_false]; omega
    | prefill => simp only [Want.item, if_true, reduceCtorEq, if_false]; omega

/-- A plan below its budget gives everybody what they ask for. -/
theorem budget_left (h : tokensOf .decode (scheduleTick sessions cap target rrd rrp).items +
      tokensOf .prefill (scheduleTick sessions cap target rrd rrp).items < min target cap)
    {w : Want} (hw : w ∈ wants sessions rrd rrp) (hpos : 0 < w.2) :
    w.item ∈ (scheduleTick sessions cap target rrd rrp).items ∧ (w.2 : Int) < min target cap := by
  rw [scheduleTick_items, tokensOf_item, asked_grant] at h
  have hle : w.2 ≤ asked (wants sessions rrd rrp) := le_asked (i := w.1) hw
  rw [scheduleTick_items]
  exact ⟨List.mem_map.mpr ⟨w, grant_all (by omega) hw hpos, rfl⟩, by omega⟩

theorem length_readyFds (p : ClientSession → Bool) (sessions : SessionPool) :
    (readyFds p sessions).length = sessions.entries.countP fun e => p e.2 := by
  rw [readyFds, List.length_filterMap_eq_countP]
  congr 1
  funext e
  split <;> simp_all

/-- **The policy serves decode first, first tokens before other prompts, and
leaves no budget unused.** The budget is an `int32_t`. -/
theorem plan_work_conserving (hk : Keyed sessions) (hB : 1 ≤ min target cap) (hmax : min target cap ≤ intMax)
    (rrd rrp : Nat) :
    let plan := scheduleTick sessions cap target rrd rrp
    (∃ dec pre, plan.items = dec ++ pre ∧ (∀ it ∈ dec, it.phase = .decode) ∧ (∀ it ∈ pre, it.phase = .prefill) ∧
      (dec.length : Int) = min (min target cap) (sessions.entries.countP fun e => e.2.decodeReady)) ∧
    ((∃ it ∈ plan.items, it.phase = .prefill) →
      ∀ fd s, sessions.lookup fd = some s → s.decodeReady = true → ⟨fd, .decode, 1⟩ ∈ plan.items) ∧
    (∀ it ∈ plan.items, it.phase = .prefill → ∀ s', sessions.lookup it.fd = some s' → s'.firstEmitNs ≠ 0 →
      ∀ fd s, sessions.lookup fd = some s → s.prefillReady = true → s.firstEmitNs = 0 →
        ⟨fd, .prefill, min s.remaining 16⟩ ∈ plan.items) ∧
    (plan.decodeTokCount + plan.prefillTokCount < min target cap → ∀ fd s, sessions.lookup fd = some s →
      (s.decodeReady = true → ⟨fd, .decode, 1⟩ ∈ plan.items) ∧
      (s.prefillReady = true → s.firstEmitNs = 0 → ⟨fd, .prefill, min s.remaining 16⟩ ∈ plan.items) ∧
      (s.prefillReady = true → s.firstEmitNs ≠ 0 → ⟨fd, .prefill, s.remaining⟩ ∈ plan.items)) := by
  intro plan
  refine ⟨?_, fun ⟨it, hit, hph⟩ fd s hs hr => decode_first hk hit hph hs hr,
    fun it hit hph s' hs' h' fd s hs hr h0 => first_token_first hk hit hph hs' h' hs hr h0, fun hlt fd s hs => ?_⟩
  · obtain ⟨pre, hitems, hpre⟩ := scheduleTick_split hk cap target rrd rrp
    refine ⟨_, pre, hitems, fun it hit => ?_, hpre, ?_⟩
    · obtain ⟨fd, -, rfl⟩ := List.mem_map.mp hit
      rfl
    · rw [List.length_map, List.length_take, rotated_eq, List.length_rotate, length_readyFds]
      omega
  · have hcount := scheduleTick_counted sessions cap target rrd rrp
    rw [hcount.decode, hcount.prefill] at hlt
    refine ⟨fun hr => ?_, fun hr h0 => ?_, fun hr h0 => ?_⟩
    · have hw : decodeWant fd ∈ wants sessions rrd rrp :=
        List.mem_append_left _ ((mem_decodeWants hk).mpr ⟨fd, s, rfl, hs, hr⟩)
      exact (budget_left hlt hw Nat.one_pos).1
    · have hw : ((fd, Phase.prefill), s.want) ∈ wants sessions rrd rrp :=
        List.mem_append_right _ (List.mem_append_left _
          ((mem_prefillWants hk).mpr ⟨fd, s, rfl, hs, hr, by simp [h0]⟩))
      have hin := (budget_left hlt hw (want_pos hr)).1
      rw [item_first fd h0] at hin
      exact hin
    · have hw : ((fd, Phase.prefill), s.want) ∈ wants sessions rrd rrp :=
        List.mem_append_right _ (List.mem_append_right _
          ((mem_prefillWants hk).mpr ⟨fd, s, rfl, hs, hr, by simp [h0]⟩))
      obtain ⟨hin, hsmall⟩ := budget_left hlt hw (want_pos hr)
      -- What it got is below the budget, so `INT_MAX` cut nothing off.
      have hall : s.want = s.remaining := by
        have := want_rest h0
        dsimp only at hsmall
        omega
      rw [hall] at hin
      exact hin

/-- A budget that is not spent: everybody gets what there is to get. -/
theorem plan_work_conserving_mixed :
    (1 : Int) ≤ min 40 64 ∧ min (40 : Int) 64 ≤ intMax ∧
      (scheduleTick mixed 64 40 0 0).decodeTokCount + (scheduleTick mixed 64 40 0 0).prefillTokCount = 23 ∧
      ∃ s, mixed.lookup 7 = some s ∧ ⟨7, .prefill, s.remaining⟩ ∈ (scheduleTick mixed 64 40 0 0).items := by
  have hcount :
      (scheduleTick mixed 64 40 0 0).decodeTokCount + (scheduleTick mixed 64 40 0 0).prefillTokCount = 23 := by
    decide +kernel
  obtain ⟨-, -, -, hleft⟩ := plan_work_conserving mixed_keyed (show (1 : Int) ≤ min 40 64 by decide) (by decide) 0 0
  have hs : (mixed.lookup 7).map (fun s => (s.prefillReady, s.firstEmitNs)) = some (true, 9) := by decide +kernel
  obtain ⟨s, hs, hst⟩ := Option.map_eq_some_iff.mp hs
  rw [Prod.mk.injEq] at hst
  refine ⟨by decide, by decide, hcount, s, hs, (hleft ?_ 7 s hs).2.2 hst.1 (by omega)⟩
  rw [hcount]
  decide

end Priorities

/-! ## Fairness -/

section Fairness

/-- One call of `schedule_tick`, its decode cursor apart. -/
structure PolicyCall where
  sessions : SessionPool
  batchCap : Int
  targetBatch : Int
  rrPrefillIdx : Nat

def PolicyCall.plan (c : PolicyCall) (rrDecodeIdx : Nat) : Plan :=
  scheduleTick c.sessions c.batchCap c.targetBatch rrDecodeIdx c.rrPrefillIdx

/-- The plans of consecutive calls, each with the decode cursor the plan
before it returned. -/
def plans (calls : Nat → PolicyCall) (rr : Nat) : Nat → Plan
  | 0 => (calls 0).plan rr
  | k + 1 => (calls (k + 1)).plan (plans calls rr k).nextRrDecodeIdx

/-- The decode items for a session in a plan. -/
def Plan.decodes (plan : Plan) (fd : Int) : Nat := plan.items.countP fun it => it.phase = .decode && it.fd = fd

variable {calls : Nat → PolicyCall} {fds : List Int} {B fd : Int}

theorem decodes_eq {sessions : SessionPool} (hk : Keyed sessions) (cap target : Int) (rrd rrp : Nat) (fd : Int) :
    (scheduleTick sessions cap target rrd rrp).decodes fd =
      (((readyFds ClientSession.decodeReady sessions).rotate rrd).take (min target cap).toNat).count fd := by
  obtain ⟨pre, hitems, hpre⟩ := scheduleTick_split hk cap target rrd rrp
  have hnone : pre.countP (fun it => it.phase = .decode && it.fd = fd) = 0 := by
    rw [List.countP_eq_zero]
    intro it hit
    simp [hpre it hit]
  rw [Plan.decodes, hitems, List.countP_append, hnone, rotated_eq, List.countP_map, List.count, Nat.add_zero]
  congr 1

/-- The cursor of the `k`-th call is the first one moved on by `k`. -/
theorem plans_cursor (rr : Nat) (hB : 1 ≤ B) (hne : fds ≠ [])
    (hpool : ∀ k < fds.length, readyFds ClientSession.decodeReady (calls k).sessions = fds)
    (hbudget : ∀ k < fds.length, min (calls k).targetBatch (calls k).batchCap = B) {k : Nat} (hk : k < fds.length) :
    ∃ c, plans calls rr k = (calls k).plan c ∧ c % fds.length = (rr + k) % fds.length := by
  induction k with
  | zero => exact ⟨rr, rfl, rfl⟩
  | succ k ih =>
    obtain ⟨c, hplan, hc⟩ := ih (by omega)
    refine ⟨_, rfl, ?_⟩
    rw [hplan, PolicyCall.plan, scheduleTick_nextDecode, hpool k (by omega), hbudget k (by omega),
      if_pos ⟨hne, by omega⟩, Nat.mod_mod, Nat.add_mod, hc, ← Nat.add_mod, Nat.add_assoc]

/-- **Round robin is fair**: over as many calls as there are decode-ready
sessions, each of them is served as often as every other. -/
theorem round_robin_fair (calls : Nat → PolicyCall) (rr : Nat) (hB : 1 ≤ B)
    (hkeyed : ∀ k < fds.length, Keyed (calls k).sessions)
    (hpool : ∀ k < fds.length, readyFds ClientSession.decodeReady (calls k).sessions = fds)
    (hbudget : ∀ k < fds.length, min (calls k).targetBatch (calls k).batchCap = B) (hfd : fd ∈ fds) :
    (((List.range fds.length).map fun k => (plans calls rr k).decodes fd).sum : Int) = min B fds.length ∧
      ∃ k < fds.length, ∃ it ∈ (plans calls rr k).items, it.phase = .decode ∧ it.fd = fd := by
  have hlen : 0 < fds.length := List.length_pos_of_mem hfd
  have hnodup : fds.Nodup := by
    rw [← hpool 0 hlen]
    exact readyFds_nodup (hkeyed 0 hlen)
  have hwindow : ∀ k ∈ List.range fds.length,
      (plans calls rr k).decodes fd = ((fds.rotate (rr + k)).take B.toNat).count fd := by
    intro k hk
    rw [List.mem_range] at hk
    obtain ⟨c, hplan, hc⟩ := plans_cursor rr hB (List.ne_nil_of_mem hfd) hpool hbudget hk
    rw [hplan, PolicyCall.plan, decodes_eq (hkeyed k hk), hpool k hk, hbudget k hk, ← List.rotate_mod, hc,
      List.rotate_mod]
  have hsum : ((List.range fds.length).map fun k => (plans calls rr k).decodes fd).sum = min B.toNat fds.length := by
    rw [List.map_congr_left hwindow, sum_count_rotate, List.count_eq_one_of_mem hnodup hfd, Nat.mul_one]
  refine ⟨by rw [hsum]; omega, ?_⟩
  by_contra hnone
  push Not at hnone
  have hzero : ((List.range fds.length).map fun k => (plans calls rr k).decodes fd).sum = 0 := by
    rw [List.sum_eq_zero_iff]
    intro n hn
    obtain ⟨k, hk, rfl⟩ := List.mem_map.mp hn
    rw [Plan.decodes, List.countP_eq_zero]
    intro it hit
    simp only [Bool.and_eq_true, decide_eq_true_eq, not_and]
    exact hnone k (List.mem_range.mp hk) it hit
  omega

/-- Two sessions, one token a call: each is served once in two calls. -/
theorem round_robin_fair_two :
    (((List.range 2).map fun k => (plans (fun _ => ⟨mixed, 64, 1, 0⟩) 5 k).decodes 3).sum : Int) = 1 ∧
      (plans (fun _ => ⟨mixed, 64, 1, 0⟩) 5 0).items = [⟨4, .decode, 1⟩] := by
  have hfd : (3 : Int) ∈ [3, 4] := by simp
  have hpool : readyFds ClientSession.decodeReady mixed = [3, 4] := by decide +kernel
  have h := round_robin_fair (fun _ => ⟨mixed, 64, 1, 0⟩) 5 (le_refl 1) (fun _ _ => mixed_keyed) (fun _ _ => hpool)
    (fun _ _ => rfl) hfd
  exact ⟨h.1, by decide +kernel⟩

end Fairness

end UmaServe

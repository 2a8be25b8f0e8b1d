/-
The batch a plan makes. Each item of a plan contributes its own rows, made
from its session as it was before the tick, in plan order: `enact` is a
concatenation (`enact_batch`, `enact_samples`), and it changes each session
by its own item alone (`enact_lookup`).
-/
import UmaServe.Sched.PlanFacts

namespace UmaServe

/-- One row of the batch, across its arrays. -/
structure Row where
  token : Token
  seq : Int
  pos : Int
  logits : Bool

/-- The batch whose arrays hold `rs`. -/
def Batch.ofRows (rs : List Row) : Batch where
  tokens := rs.map Row.token
  nSeqId := rs.map fun _ => 1
  seqIdVals := rs.map Row.seq
  seqIds := List.range rs.length
  logits := rs.map Row.logits
  pos := rs.map Row.pos

theorem ofRows_push (rs : List Row) (t : Token) (seq pos : Int) (lg : Bool) :
    (Batch.ofRows rs).push t seq pos lg = Batch.ofRows (rs ++ [⟨t, seq, pos, lg⟩]) := by
  simp [Batch.ofRows, Batch.push, List.range_succ]

@[simp] theorem ofRows_tokens_length (rs : List Row) : (Batch.ofRows rs).tokens.length = rs.length := by
  simp [Batch.ofRows]

theorem ofRows_rows (rs : List Row) : (Batch.ofRows rs).rows = rs.map fun r => (r.seq, r.token) := by
  refine List.ext_getElem (by simp [Batch.ofRows, Batch.rows]) fun i h₁ h₂ => ?_
  have hi : i < rs.length := by simpa using h₂
  simp [Batch.ofRows, Batch.rows, hi]

/-- The rows an item makes of its session. -/
def itemRows (s : ClientSession) (it : BatchItem) : List Row :=
  match it.phase with
  | .decode => [⟨s.pendingTok, s.seq, s.nPast, true⟩]
  | .prefill => (List.range it.nTokens.toNat).map fun j : Nat =>
      ⟨s.promptTokens.getD (s.prefillIdx + j) 0, s.seq, s.nPast + j, (j : Int) = it.nTokens - 1⟩

/-- The session after its item was enacted. -/
def ClientSession.enacted (s : ClientSession) (it : BatchItem) : ClientSession :=
  match it.phase with
  | .decode => { s with hasPendingTok := false }
  | .prefill => { s with prefillIdx := s.prefillIdx + it.nTokens.toNat, nPast := s.nPast + it.nTokens }

/-- The state a sample reference carries. -/
def Phase.state : Phase → SessionState
  | .prefill => .prefill
  | .decode => .decode

/-- The sample of an item whose rows start at `off`: its last row. -/
def itemSample (s : ClientSession) (it : BatchItem) (off : Nat) : List SampleRef :=
  if (itemRows s it).isEmpty then [] else [⟨s.fd, off + (itemRows s it).length - 1, it.phase.state⟩]

/-! ## One item -/

theorem prefillRow_foldl (s : ClientSession) (it : BatchItem) (rs : List Row) (samples : List SampleRef)
    (hph : it.phase = .prefill) {k : Nat} (hk : k ≤ it.nTokens.toNat) :
    (List.range k).foldl (prefillRow it.nTokens s.nPast) ⟨s, Batch.ofRows rs, samples⟩ =
      ⟨{ s with prefillIdx := s.prefillIdx + k }, Batch.ofRows (rs ++ (itemRows s it).take k),
        if k = it.nTokens.toNat ∧ 0 < k then samples ++ [⟨s.fd, rs.length + k - 1, .prefill⟩] else samples⟩ := by
  induction k with
  | zero => simp
  | succ k ih =>
    have hrow : (itemRows s it).take (k + 1) = (itemRows s it).take k ++
        [⟨s.promptTokens.getD (s.prefillIdx + k) 0, s.seq, s.nPast + k, (k : Int) = it.nTokens - 1⟩] := by
      have hlt : k < (itemRows s it).length := by simp [itemRows, hph]; omega
      rw [List.take_succ_eq_append_getElem hlt]
      simp [itemRows, hph]
    have hlast : ((k : Int) = it.nTokens - 1) ↔ k + 1 = it.nTokens.toNat := by omega
    have hnot : ¬ (k = it.nTokens.toNat ∧ 0 < k) := by omega
    have hlen : ((itemRows s it).take k).length = k := by simp [itemRows, hph]; omega
    rw [List.range_succ, List.foldl_append, ih (by omega), if_neg hnot, hrow]
    simp only [List.foldl_cons, List.foldl_nil, prefillRow, ofRows_push, ofRows_tokens_length, ChunkRows.mk.injEq,
      List.append_assoc, List.length_append, List.length_cons, List.length_nil, hlen, decide_eq_true_eq, hlast,
      Nat.zero_lt_succ, and_true]
    rfl

theorem prefillRow_session (chunk basePos : Int) (l : List Nat) (c : ChunkRows) :
    (l.foldl (prefillRow chunk basePos) c).session =
      { c.session with prefillIdx := c.session.prefillIdx + l.length } := by
  induction l generalizing c with
  | nil => rfl
  | cons j l ih =>
    rw [List.foldl_cons, ih]
    simp [prefillRow, Nat.add_assoc, Nat.add_comm 1]

/-- What one item does. -/
theorem enactItem_eq {e : Enacted} {it : BatchItem} {s : ClientSession} {rs : List Row}
    (hl : e.sessions.lookup it.fd = some s) (hb : e.batch = Batch.ofRows rs) :
    enactItem e it =
      { sessions := e.sessions.replace it.fd (s.enacted it)
        batch := Batch.ofRows (rs ++ itemRows s it)
        samples := e.samples ++ itemSample s it rs.length } := by
  cases hph : it.phase with
  | decode =>
    simp [enactItem, hl, hph, hb, ofRows_push, ClientSession.enacted, itemSample, itemRows, Phase.state]
  | prefill =>
    have hlen : (itemRows s it).length = it.nTokens.toNat := by simp [itemRows, hph]
    have hfold := prefillRow_foldl s it rs e.samples hph (Nat.le_refl _)
    simp only [true_and] at hfold
    simp only [enactItem, hl, hph, hb, hfold, ClientSession.enacted, Enacted.mk.injEq, true_and]
    refine ⟨by rw [← hlen, List.take_length], ?_⟩
    unfold itemSample
    by_cases h0 : 0 < it.nTokens.toNat
    · have hne : (itemRows s it).isEmpty = false := by
        rw [List.isEmpty_eq_false_iff, ← List.length_pos_iff, hlen]; exact h0
      simp [h0, hne, hlen, hph, Phase.state]
    · have he : (itemRows s it).isEmpty = true := by
        rw [List.isEmpty_iff, ← List.length_eq_zero_iff, hlen]; omega
      simp [h0, he]

theorem enactItem_none {e : Enacted} {it : BatchItem} (hl : e.sessions.lookup it.fd = none) : enactItem e it = e := by
  simp [enactItem, hl]

/-! ## The plan -/

/-- The rows of a plan over the sessions it was made for. -/
def planRows (sessions : SessionPool) (items : List BatchItem) : List Row :=
  items.flatMap fun it =>
    match sessions.lookup it.fd with
    | none => []
    | some s => itemRows s it

/-- The samples of a plan whose rows start at `off`. -/
def planSamples (sessions : SessionPool) : Nat → List BatchItem → List SampleRef
  | _, [] => []
  | off, it :: items =>
    match sessions.lookup it.fd with
    | none => planSamples sessions off items
    | some s => itemSample s it off ++ planSamples sessions (off + (itemRows s it).length) items

section Plan

variable {sessions : SessionPool} {items : List BatchItem} {fd : Int}

theorem enact_view (e : Enacted) (it : BatchItem) (k : Int) (hne : k ≠ it.fd) :
    (enactItem e it).sessions.lookup k = e.sessions.lookup k := by
  unfold enactItem
  cases hl : e.sessions.lookup it.fd with
  | none => rfl
  | some s => cases it.phase <;> exact AList.lookup_replace_ne hne

theorem enact_view_self (e : Enacted) (it : BatchItem) :
    (enactItem e it).sessions.lookup it.fd = (e.sessions.lookup it.fd).map (·.enacted it) := by
  cases hl : e.sessions.lookup it.fd with
  | none => rw [enactItem_none hl, hl]; rfl
  | some s =>
    cases hph : it.phase with
    | decode =>
      simp only [enactItem, hl, hph, ClientSession.enacted, Option.map_some]
      exact AList.lookup_replace_self hl
    | prefill =>
      simp only [enactItem, hl, hph, ClientSession.enacted, Option.map_some, prefillRow_session, List.length_range]
      exact AList.lookup_replace_self hl

theorem enact_lookup_other (h : ∀ it ∈ items, it.fd ≠ fd) :
    (enact sessions items).sessions.lookup fd = sessions.lookup fd :=
  Lib.foldl_frame (fun (e : Enacted) k => e.sessions.lookup k) enact_view h

theorem enact_lookup (hn : (items.map BatchItem.fd).Nodup) {it : BatchItem} (hit : it ∈ items) :
    (enact sessions items).sessions.lookup it.fd = (sessions.lookup it.fd).map (·.enacted it) :=
  Lib.foldl_local (fun (e : Enacted) k => e.sessions.lookup k) (g := fun it => Option.map (·.enacted it)) enact_view
    enact_view_self hn hit

theorem enact_foldl (e : Enacted) (rs : List Row) (hn : (items.map BatchItem.fd).Nodup)
    (hl : ∀ it ∈ items, e.sessions.lookup it.fd = sessions.lookup it.fd) (hb : e.batch = Batch.ofRows rs) :
    (items.foldl enactItem e).batch = Batch.ofRows (rs ++ planRows sessions items) ∧
      (items.foldl enactItem e).samples = e.samples ++ planSamples sessions rs.length items := by
  induction items generalizing e rs with
  | nil => simp [hb, planRows, planSamples]
  | cons it items ih =>
    rw [List.map_cons, List.nodup_cons] at hn
    have hit := hl it List.mem_cons_self
    have hrest : ∀ it' ∈ items, (enactItem e it).sessions.lookup it'.fd = sessions.lookup it'.fd := by
      intro it' h'
      rw [enact_view e it it'.fd fun he => hn.1 (he ▸ List.mem_map_of_mem h')]
      exact hl it' (List.mem_cons_of_mem _ h')
    rw [List.foldl_cons]
    cases hs : sessions.lookup it.fd with
    | none =>
      rw [hs] at hit
      obtain ⟨h₁, h₂⟩ := ih (enactItem e it) rs hn.2 hrest (by rw [enactItem_none hit]; exact hb)
      refine ⟨?_, ?_⟩
      · rw [h₁]; simp [planRows, hs]
      · rw [h₂, enactItem_none hit]; simp [planSamples, hs]
    | some s =>
      rw [hs] at hit
      have heq := enactItem_eq hit hb
      obtain ⟨h₁, h₂⟩ := ih (enactItem e it) (rs ++ itemRows s it) hn.2 hrest (by rw [heq])
      refine ⟨?_, ?_⟩
      · rw [h₁]; simp [planRows, hs]
      · rw [h₂, heq]; simp [planSamples, hs]

/-- **The batch** is the rows of the items, in plan order. -/
theorem enact_batch (hn : (items.map BatchItem.fd).Nodup) :
    (enact sessions items).batch = Batch.ofRows (planRows sessions items) := by
  simpa [enact] using (enact_foldl { sessions } [] hn (fun _ _ => rfl) rfl).1

theorem enact_samples (hn : (items.map BatchItem.fd).Nodup) :
    (enact sessions items).samples = planSamples sessions 0 items := by
  simpa [enact] using (enact_foldl { sessions } [] hn (fun _ _ => rfl) rfl).2

/-! ## Where a sample points -/

theorem planRows_append (items₁ items₂ : List BatchItem) :
    planRows sessions (items₁ ++ items₂) = planRows sessions items₁ ++ planRows sessions items₂ := by
  simp [planRows]

theorem planRows_cons {it : BatchItem} {s : ClientSession} (hs : sessions.lookup it.fd = some s) :
    planRows sessions (it :: items) = itemRows s it ++ planRows sessions items := by
  simp [planRows, hs]

theorem planSamples_append (off : Nat) (items₁ items₂ : List BatchItem) :
    planSamples sessions off (items₁ ++ items₂) =
      planSamples sessions off items₁ ++ planSamples sessions (off + (planRows sessions items₁).length) items₂ := by
  induction items₁ generalizing off with
  | nil => simp [planSamples, planRows]
  | cons it items₁ ih =>
    cases hs : sessions.lookup it.fd with
    | none => simp [planSamples, planRows, hs, ih]
    | some s => simp [planSamples, planRows, hs, ih, Nat.add_assoc]

/-- `it`, after the items `before`, gives the session `s` at `fd` at least
one row. -/
structure Serves (sessions : SessionPool) (items : List BatchItem) (fd : Int) (s : ClientSession)
    (before : List BatchItem) (it : BatchItem) : Prop where
  split : ∃ after, items = before ++ it :: after
  fd_eq : it.fd = fd
  lookup : sessions.lookup fd = some s
  rows_ne : itemRows s it ≠ []

/-- The batch index of the last row of an item. -/
def sampleIndex (sessions : SessionPool) (before : List BatchItem) (s : ClientSession) (it : BatchItem) : Nat :=
  (planRows sessions before).length + (itemRows s it).length - 1

namespace Serves

variable {s : ClientSession} {before : List BatchItem} {it : BatchItem}

theorem mem (h : Serves sessions items fd s before it) : it ∈ items := by
  obtain ⟨after, he⟩ := h.split
  simp [he]

theorem item_lookup (h : Serves sessions items fd s before it) : sessions.lookup it.fd = some s := by
  rw [h.fd_eq]; exact h.lookup

theorem rows_eq (h : Serves sessions items fd s before it) :
    ∃ after, items = before ++ it :: after ∧
      planRows sessions items = planRows sessions before ++ itemRows s it ++ planRows sessions after := by
  obtain ⟨after, he⟩ := h.split
  exact ⟨after, he, by rw [he, planRows_append, planRows_cons h.item_lookup, List.append_assoc]⟩

theorem sample_mem (h : Serves sessions items fd s before it) :
    ⟨s.fd, sampleIndex sessions before s it, it.phase.state⟩ ∈ planSamples sessions 0 items := by
  obtain ⟨after, he⟩ := h.split
  have hne : (itemRows s it).isEmpty = false := List.isEmpty_eq_false_iff.mpr h.rows_ne
  rw [he, planSamples_append]
  simp [planSamples, h.item_lookup, itemSample, hne, sampleIndex]

end Serves

/-- The item that serves a session, by its place in the plan. -/
theorem Serves.place {s : ClientSession} {before : List BatchItem} {it : BatchItem}
    (h : Serves sessions items fd s before it) :
    before.length < items.length ∧ items[before.length]? = some it ∧ items.take before.length = before := by
  obtain ⟨after, he⟩ := h.split
  rw [he]
  simp

theorem serves_at {i : Nat} {it : BatchItem} {s : ClientSession} (hget : items[i]? = some it)
    (hs : sessions.lookup it.fd = some s) (hne : itemRows s it ≠ []) :
    Serves sessions items it.fd s (items.take i) it := by
  obtain ⟨hi, hget⟩ := List.getElem?_eq_some_iff.mp hget
  refine ⟨⟨items.drop (i + 1), ?_⟩, rfl, hs, hne⟩
  rw [← hget, ← List.drop_eq_getElem_cons hi, List.take_append_drop]

theorem exists_serves {it : BatchItem} {s : ClientSession} (hit : it ∈ items) (hs : sessions.lookup it.fd = some s)
    (hne : itemRows s it ≠ []) : ∃ before, Serves sessions items it.fd s before it := by
  obtain ⟨before, after, he⟩ := List.append_of_mem hit
  exact ⟨before, ⟨after, he⟩, rfl, hs, hne⟩

theorem mem_planSamples {off : Nat} {sm : SampleRef} (h : sm ∈ planSamples sessions off items) :
    ∃ it ∈ items, ∃ s, sessions.lookup it.fd = some s ∧ itemRows s it ≠ [] ∧ sm.fd = s.fd := by
  induction items generalizing off with
  | nil => simp [planSamples] at h
  | cons it items ih =>
    have tail : ∀ off, sm ∈ planSamples sessions off items →
        ∃ it' ∈ it :: items, ∃ s, sessions.lookup it'.fd = some s ∧ itemRows s it' ≠ [] ∧ sm.fd = s.fd := by
      intro off h
      obtain ⟨it', hit', hrest⟩ := ih h
      exact ⟨it', List.mem_cons_of_mem _ hit', hrest⟩
    cases hs : sessions.lookup it.fd with
    | none => rw [planSamples, hs] at h; exact tail _ h
    | some s =>
      rw [planSamples, hs] at h
      rcases List.mem_append.mp h with h | h
      · unfold itemSample at h
        split at h
        next => cases h
        next hne =>
          rw [List.mem_singleton] at h
          exact ⟨it, List.mem_cons_self, s, hs, by simpa using hne, by rw [h]⟩
      · exact tail _ h

theorem planSamples_fds_sublist (hk : Keyed sessions) (off : Nat) :
    ((planSamples sessions off items).map SampleRef.fd).Sublist (items.map BatchItem.fd) := by
  induction items generalizing off with
  | nil => exact List.Sublist.refl _
  | cons it items ih =>
    cases hs : sessions.lookup it.fd with
    | none => simp only [planSamples, hs, List.map_cons]; exact (ih off).cons _
    | some s =>
      simp only [planSamples, hs, List.map_append, List.map_cons]
      unfold itemSample
      split
      · exact (ih _).cons _
      · simp only [List.map_cons, List.map_nil, hk _ _ hs]
        exact (ih _).cons_cons _

theorem planSamples_nodup (hk : Keyed sessions) (hn : (items.map BatchItem.fd).Nodup) :
    ((planSamples sessions 0 items).map SampleRef.fd).Nodup :=
  (planSamples_fds_sublist hk 0).nodup hn

end Plan
end UmaServe

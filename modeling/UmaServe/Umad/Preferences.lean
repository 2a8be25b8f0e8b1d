/-
The sampling preferences a request runs with. The session keeps them from
one request to the next, and none of the three resets between requests
touches them; so a request that omits one runs with the last value an
earlier request on the connection gave, and has the session's default exactly
when that value is the default (`own_preferences_iff`).
-/
import UmaServe.Umad.Busy
import UmaServe.Umad.Inbound

namespace UmaServe

/-- The preferences of a request on its own: as the payload gives them, or
the defaults of `ClientSession`. A payload gives what the server finds in it,
a number behind the first occurrence of the quoted key, whether that is the
name of a member or not. -/
def ownPreferences (js : Bytes) : SamplingParams where
  temperature := (extractJsonNumber js (bytes "temperature")).getD ({} : ClientSession).temperature
  topP := (extractJsonNumber js (bytes "top_p")).getD ({} : ClientSession).topP
  topK := ((extractJsonNumber js (bytes "top_k")).map truncInt).getD ({} : ClientSession).topK

/-- The last value that payloads give for a key. -/
def lastGiven (key : Bytes) (frames : List Bytes) : Option Double :=
  (frames.filterMap fun js => extractJsonNumber js key).getLast?

/-- What the request omits, the earlier ones left at its default. -/
structure NoneInherited (frames : List Bytes) (js : Bytes) : Prop where
  temperature : extractJsonNumber js (bytes "temperature") = none →
    ∀ v ∈ lastGiven (bytes "temperature") frames, v = ({} : ClientSession).temperature
  topP : extractJsonNumber js (bytes "top_p") = none →
    ∀ v ∈ lastGiven (bytes "top_p") frames, v = ({} : ClientSession).topP
  topK : extractJsonNumber js (bytes "top_k") = none →
    ∀ v ∈ lastGiven (bytes "top_k") frames, truncInt v = ({} : ClientSession).topK

/-- The request a readable event names, if it does. -/
def ClientSession.named (s : ClientSession) (nowNs : Nat) (reads : List ReadRes) : Option Bytes :=
  (s.frame? nowNs reads).filter namesRequest

/-- The payloads on a connection that named a request. -/
def requests : Ledger (List Bytes) where
  fresh := []
  read := fun s nowNs reads frames => frames ++ (s.named nowNs reads).toList

/-- The session has the last values given, or the defaults. -/
structure Prefers (frames : List Bytes) (p : SamplingParams) : Prop where
  temperature : p.temperature = (lastGiven (bytes "temperature") frames).getD ({} : ClientSession).temperature
  topP : p.topP = (lastGiven (bytes "top_p") frames).getD ({} : ClientSession).topP
  topK : p.topK = ((lastGiven (bytes "top_k") frames).map truncInt).getD ({} : ClientSession).topK

section Preferences

variable {pf : Platform} {cfg : RuntimeConfig} {d : Daemon} {fd next : Int} {s s' t : ClientSession}
  {frames : List Bytes} {js key : Bytes} {vocab : Vocab} {nowNs : Nat} {reads : List ReadRes}

theorem lastGiven_snoc : lastGiven key (frames ++ [js]) = (extractJsonNumber js key).or (lastGiven key frames) := by
  rw [lastGiven, List.filterMap_append]
  cases h : extractJsonNumber js key with
  | none => simp [h, lastGiven]
  | some v => simp [h]

theorem getD_or {α : Type} (o₁ o₂ : Option α) (a : α) : (o₁.or o₂).getD a = o₁.getD (o₂.getD a) := by
  cases o₁ <;> rfl

theorem Prefers.snoc (h : Prefers frames s.samplingParams) (js : Bytes) :
    Prefers (frames ++ [js]) (s.setSampling js).samplingParams := by
  have ht : s.temperature = _ := h.temperature
  have hp : s.topP = _ := h.topP
  have hk : s.topK = _ := h.topK
  constructor
  · rw [lastGiven_snoc, getD_or, ← ht]
    rfl
  · rw [lastGiven_snoc, getD_or, ← hp]
    rfl
  · rw [lastGiven_snoc, Option.map_or, getD_or, ← hk]
    rfl

theorem onFrame_sampling {rr : ReadResult} (js : Bytes) :
    (t.onFrame cfg vocab nowNs next rr js).session.samplingParams =
      if namesRequest js then (t.setSampling js).samplingParams else t.samplingParams := by
  have hframed := onFrame_framed cfg vocab nowNs next rr js t
  generalize t.onFrame cfg vocab nowNs next rr js = o at hframed ⊢
  cases hframed with
  | admin hadm =>
    rw [if_neg (by simp [namesRequest, hadm])]
    rfl
  | unnamed _ hn =>
    rw [if_neg (by simp [hn])]
    rfl
  | tooLarge _ hn | empty hn | started hn =>
    rw [if_pos hn]
    rfl

theorem received_sampling (nowNs : Nat) (reads : List ReadRes) :
    (s.received nowNs reads).samplingParams = s.samplingParams := by
  obtain ⟨rx, act, rc, -, h⟩ := s.received_eq nowNs reads
  rw [h]
  rfl

theorem setSampling_congr (h : t.samplingParams = s.samplingParams) (js : Bytes) :
    (t.setSampling js).samplingParams = (s.setSampling js).samplingParams := by
  simp only [ClientSession.samplingParams, SamplingParams.mk.injEq] at h
  simp only [ClientSession.samplingParams, ClientSession.setSampling, h.1, h.2.1, h.2.2]

theorem read_sampling (cfg : RuntimeConfig) (vocab : Vocab) (nowNs : Nat) (next : Int) (reads : List ReadRes)
    (s : ClientSession) :
    (s.read cfg vocab nowNs next reads).session.samplingParams =
      (s.named nowNs reads).elim s.samplingParams fun js => (s.setSampling js).samplingParams := by
  have hrec := received_sampling (s := s) nowNs reads
  have hheard : Heard cfg vocab nowNs next reads s (s.read cfg vocab nowNs next reads) := read_heard
  generalize s.read cfg vocab nowNs next reads = o at hheard ⊢
  cases hheard with
  | quiet hnone | invalid hnone =>
    rw [ClientSession.named, hnone]
    exact hrec
  | @frame _ js hf =>
    rw [onFrame_sampling, ClientSession.named, hf, Option.filter_some]
    split
    · exact setSampling_congr hrec js
    · exact hrec

theorem Served.samplingParams {out : Decoded} {it : BatchItem} {i : Nat} (h : Served pf cfg nowNs out s it i s') :
    s'.samplingParams = s.samplingParams := by
  cases h with
  | failed | noRow | ended => exact enacted_samplingParams
  | first => rw [prefillSampled_eq]; exact enacted_samplingParams
  | more => rw [decodeSampled_eq]; exact enacted_samplingParams

theorem prefers_of_reach {D : Daemon × (Int → List Bytes) → Action → Prop} {p : Daemon × (Int → List Bytes)}
    (h : (requests.daemon pf cfg).Reach D p) (hs : p.1.find fd = some s) : Prefers (p.2 fd) s.samplingParams := by
  refine Ledger.request_invariant (I := fun frames s => Prefers frames s.samplingParams) (fun _ _ => ⟨rfl, rfl, rfl⟩)
    (fun _ _ _ h => h) (fun _ _ _ _ h => h) (fun _ _ h => h) ?_ (fun d g nowNs out fd s _ _ _ _ h => h) ?_ h hs
  · intro d g fd reads now nowNs s _ _ hs hi
    rw [read_sampling]
    show Prefers (g fd ++ (s.named nowNs reads).toList) _
    cases s.named nowNs reads with
    | none => simpa using hi
    | some js => exact hi.snoc js
  · intro d g nowNs out fd s s' before it _ _ _ _ hserved hi
    rw [hserved.samplingParams]
    exact hi

/-- A default is what a parameter comes to exactly when it was not given, or
given so. -/
theorem omitted_iff {α : Type} {given : Option α} {last : Option α} {default : α} :
    given.getD (last.getD default) = given.getD default ↔ (given = none → ∀ v ∈ last, v = default) := by
  cases given with
  | none => simp [getD_eq_iff]
  | some v => simp

theorem Prefers.own_iff (h : Prefers frames s.samplingParams) (js : Bytes) :
    (s.setSampling js).samplingParams = ownPreferences js ↔ NoneInherited frames js := by
  have ht : s.temperature = _ := h.temperature
  have hp : s.topP = _ := h.topP
  have hk : s.topK = _ := h.topK
  simp only [ClientSession.samplingParams, ClientSession.setSampling, ownPreferences, SamplingParams.mk.injEq]
  rw [ht, hp, hk, omitted_iff, omitted_iff, omitted_iff, Option.map_eq_none_iff]
  simp only [Option.mem_map, forall_exists_index, and_imp, forall_apply_eq_imp_iff₂]
  constructor
  · rintro ⟨h₁, h₂, h₃⟩
    exact ⟨h₁, h₂, h₃⟩
  · intro hn
    exact ⟨hn.temperature, hn.topP, hn.topK⟩

/-- **Whose preferences a request runs with.** On every connection, whatever
requests came before: the temperature, `top_p` and `top_k` in effect after
`on_readable` accepts a request are those of the request alone exactly when,
for each one it omits, the last value an earlier request gave (if any did)
is the default. -/
theorem own_preferences_iff {p : Daemon × (Int → List Bytes)} (h : (requests.daemon pf cfg).Reach Lib.Always p)
    (hs : p.1.find fd = some s) (hf : s.frame? nowNs reads = some js) (hacc : acceptsRequest cfg js = true) :
    ∃ s', (p.1.mgr.onReadable fd cfg pf.vocab nowNs reads).1.sessions.lookup fd = some s' ∧
      (s'.samplingParams = ownPreferences js ↔ NoneInherited (p.2 fd) js) := by
  have hl : p.1.mgr.sessions.lookup fd = some s := hs
  refine ⟨(s.read cfg pf.vocab nowNs p.1.mgr.nextSeqId reads).session, (onReadable_read hl).1, ?_⟩
  have hn : namesRequest js = true := by
    simp only [acceptsRequest, Bool.and_eq_true] at hacc
    simp only [namesRequest, Bool.and_eq_true]
    exact hacc.1
  have hnamed : s.named nowNs reads = some js := by rw [ClientSession.named, hf, Option.filter_some, if_pos hn]
  rw [read_sampling, hnamed]
  exact (prefers_of_reach h hs).own_iff js

/-- A request that gives no parameter. -/
def plainJson : Bytes := bytes "\x7b\"id\":\"r\",\"prompt\":\"b\"\x7d"

/-- On a new connection, it has the defaults. -/
theorem own_preferences_plain :
    ∃ s', (((requests.daemon small {}).after (requests.daemon small {}).init [.accept 7 [7] 1]).1.mgr.onReadable 7 {}
      small.vocab 5 (framed plainJson)).1.sessions.lookup 7 = some s' ∧
        s'.samplingParams = ownPreferences plainJson := by
  have hr : (requests.daemon small {}).Reach Lib.Always
      ((requests.daemon small {}).after (requests.daemon small {}).init [.accept 7 [7] 1]) :=
    Lib.System.Reach.init.run (by decide +kernel)
  have hst : (((requests.daemon small {}).after (requests.daemon small {}).init [.accept 7 [7] 1]).1.find 7).map
      (fun s => s.frame? 5 (framed plainJson)) = some (some plainJson) := by decide +kernel
  obtain ⟨s, hs, hf⟩ := Option.map_eq_some_iff.mp hst
  obtain ⟨s', hs', hiff⟩ := own_preferences_iff hr hs hf (by decide +kernel)
  have hnil : ((requests.daemon small {}).after (requests.daemon small {}).init [.accept 7 [7] 1]).2 7 = [] := by
    decide +kernel
  refine ⟨s', hs', hiff.mpr ?_⟩
  rw [hnil]
  exact ⟨fun _ v hv => (by cases hv), fun _ v hv => (by cases hv), fun _ v hv => (by cases hv)⟩

/-- The same request after one that asked for temperature 0, which was
answered: two connections on which the session waits for a request, and two
temperatures. -/
theorem own_preferences_inherited :
    ∃ d₁ d₂, (umad small {}).Reach Lib.Always d₁ ∧ (umad small {}).Reach Lib.Always d₂ ∧
      (d₁.find 7).map ClientSession.state = some .recvReq ∧ (d₂.find 7).map ClientSession.state = some .recvReq ∧
      ((d₁.mgr.onReadable 7 {} small.vocab 5 (framed plainJson)).1.sessions.lookup 7).map
        (fun s => (s.state, s.temperature)) = some (.prefill, .ofScientific false 8 (-1)) ∧
      ((d₂.mgr.onReadable 7 {} small.vocab 5 (framed plainJson)).1.sessions.lookup 7).map
        (fun s => (s.state, s.temperature)) = some (.prefill, 0) := by
  refine ⟨(umad small {}).after (umad small {}).init [.accept 7 [7] 1],
    (umad small {}).after (umad small {}).init (answered (request "a")), Lib.System.Reach.init.run (by decide +kernel),
    Lib.System.Reach.init.run (by decide +kernel), ?_⟩
  decide +kernel

end Preferences
end UmaServe

/-
A second request on a busy session. `on_readable` does not look at the state
of the session: it assigns the fields of whatever request it parses, and
starts it. The request in flight stays as it is, and a frame that arrives is
rejected, exactly when the frame names no request and asks for no metrics, or
names one that is too large and says what the session holds already
(`onReadable_intact_iff`).
-/
import UmaServe.Umad.Ownership

namespace UmaServe

/-- What a request in flight consists of. -/
structure InFlight where
  requestId : Bytes
  promptTokens : List Token
  prefillIdx : Nat
  nPast : Int
  generatedCount : Nat
  hasPendingTok : Bool
  pendingTok : Token
  temperature : Double
  topP : Double
  topK : Int
  deriving DecidableEq

def ClientSession.inFlight (s : ClientSession) : InFlight where
  requestId := s.requestId
  promptTokens := s.promptTokens
  prefillIdx := s.prefillIdx
  nPast := s.nPast
  generatedCount := s.generatedCount
  hasPendingTok := s.hasPendingTok
  pendingTok := s.pendingTok
  temperature := s.temperature
  topP := s.topP
  topK := s.topK

/-- The request is too large, and has the id and the sampling parameters of
the session. -/
structure Repeats (cfg : RuntimeConfig) (s : ClientSession) (js : Bytes) : Prop where
  tooLarge : cfg.maxPromptBytes < (extractJsonString js (bytes "prompt")).1.length
  id : (extractJsonString js (bytes "id")).1 = s.requestId
  temperature : ∀ v ∈ extractJsonNumber js (bytes "temperature"), v = s.temperature
  topP : ∀ v ∈ extractJsonNumber js (bytes "top_p"), v = s.topP
  topK : ∀ v ∈ (extractJsonNumber js (bytes "top_k")).map truncInt, v = s.topK

/-- The session is `s'` after bytes came in on `s`: its request is as it was,
and a frame that was parsed was rejected, with an error for its only event. -/
def Intact (s s' : ClientSession) (parsed : Bool) : Prop :=
  s'.inFlight = s.inFlight ∧ (parsed = true → ∃ id code message, s'.hist.window = { events := [.error id code message] })

/-- A frame that is no reason to touch the request in flight: no metrics
request, and no generation request but one that is too large and repeats it. -/
def Harmless (cfg : RuntimeConfig) (s : ClientSession) (js : Bytes) : Prop :=
  isAdminRequest js = false ∧ (namesRequest js = true → Repeats cfg s js)

section Busy

variable {cfg : RuntimeConfig} {vocab : Vocab} {nowNs : Nat} {next : Int} {reads : List ReadRes} {s t : ClientSession}
  {js : Bytes}

theorem getD_eq_iff {α : Type} {o : Option α} {a : α} : o.getD a = a ↔ ∀ v ∈ o, v = a := by
  cases o <;> simp

/-- **A frame** leaves the request in flight, and is rejected, when it is
harmless. -/
theorem onFrame_intact_iff {rr : ReadResult} :
    Intact s (s.onFrame cfg vocab nowNs next rr js).session true ↔ Harmless cfg s js := by
  have hframed := onFrame_framed cfg vocab nowNs next rr js s
  generalize s.onFrame cfg vocab nowNs next rr js = o at hframed ⊢
  cases hframed with
  | admin hadm =>
    -- The session is marked for the reply, and no error is queued.
    refine ⟨fun hi => ?_, fun h => ?_⟩
    · obtain ⟨_, _, _, hwindow⟩ := hi.2 rfl
      cases hwindow
    · cases hadm.symm.trans h.1
  | unnamed hadm hn =>
    refine ⟨fun _ => ⟨hadm, fun h => ?_⟩, fun _ => ⟨rfl, fun _ => ⟨_, _, _, rfl⟩⟩⟩
    cases hn.symm.trans h
  | tooLarge hadm hn hlong =>
    -- The id and the parameters are assigned, and nothing else.
    simp only [Intact, Harmless, hadm, hn, ClientSession.inFlight, ClientSession.fail, ClientSession.emit,
      ClientSession.asked, ClientSession.setSampling, ClientSession.openWindow, InFlight.mk.injEq, true_and,
      true_implies, getD_eq_iff]
    constructor
    · rintro ⟨⟨hid, htemp, hp, hk⟩, -⟩
      exact ⟨hlong, hid, htemp, hp, hk⟩
    · intro hr
      exact ⟨⟨hr.id, hr.temperature, hr.topP, hr.topK⟩, _, _, _, rfl⟩
  | empty hn hacc | started hn hacc =>
    -- Accepted, with tokens or without.
    rw [acceptsRequest_eq, Bool.and_eq_true, decide_eq_true_eq] at hacc
    refine ⟨fun hi => ?_, fun h => absurd (h.2 hn).tooLarge (Nat.not_lt.mpr hacc.2)⟩
    obtain ⟨_, _, _, hwindow⟩ := hi.2 rfl
    cases hwindow

theorem Intact.congr {parsed : Bool} {s' : ClientSession} (h : t.inFlight = s.inFlight) :
    Intact s s' parsed ↔ Intact t s' parsed := by
  rw [Intact, Intact, h]

theorem Repeats.congr (h : t.inFlight = s.inFlight) : Repeats cfg t js ↔ Repeats cfg s js := by
  simp only [ClientSession.inFlight, InFlight.mk.injEq] at h
  obtain ⟨hid, -, -, -, -, -, -, htemp, hp, hk⟩ := h
  constructor
  · intro k
    exact ⟨k.tooLarge, hid ▸ k.id, htemp ▸ k.temperature, hp ▸ k.topP, hk ▸ k.topK⟩
  · intro k
    exact ⟨k.tooLarge, hid ▸ k.id, htemp ▸ k.temperature, hp ▸ k.topP, hk ▸ k.topK⟩

theorem onFrame_intact {rr : ReadResult} (h : t.inFlight = s.inFlight) :
    Intact s (t.onFrame cfg vocab nowNs next rr js).session true ↔ Harmless cfg s js := by
  rw [Intact.congr h, Harmless, ← Repeats.congr h]
  exact onFrame_intact_iff

theorem received_inFlight (nowNs : Nat) (reads : List ReadRes) :
    (s.received nowNs reads).inFlight = s.inFlight := by
  obtain ⟨rx, act, rc, -, h⟩ := s.received_eq nowNs reads
  rw [h]
  rfl

theorem read_intact_iff :
    Intact s (s.read cfg vocab nowNs next reads).session (s.parses nowNs reads) ↔
      ∀ js, s.frame? nowNs reads = some js → Harmless cfg s js := by
  have hrec := received_inFlight (s := s) nowNs reads
  have hheard : Heard cfg vocab nowNs next reads s (s.read cfg vocab nowNs next reads) := read_heard
  generalize s.read cfg vocab nowNs next reads = o at hheard ⊢
  cases hheard with
  | quiet hnone hp => simp [Intact, hrec, hnone, hp]
  | invalid hnone =>
    rw [hnone]
    refine ⟨fun _ js hjs => (by cases hjs), fun _ => ⟨hrec, fun _ => ⟨_, _, _, rfl⟩⟩⟩
  | frame hf hp =>
    simp only [hf, hp, Option.some.injEq, forall_eq']
    exact onFrame_intact hrec

/-- **What becomes of the request in flight.** Whatever bytes arrive, and
whatever the state of the session, `on_readable` leaves its request as it is,
and rejects the frame it parses if it parses one, exactly when a frame that
they complete is harmless. -/
theorem onReadable_intact_iff (cfg : RuntimeConfig) (vocab : Vocab) (nowNs : Nat) (reads : List ReadRes)
    {m : SessionManager} {fd : Int} (hs : m.sessions.lookup fd = some s) :
    ∃ s', (m.onReadable fd cfg vocab nowNs reads).1.sessions.lookup fd = some s' ∧
      (Intact s s' (s.parses nowNs reads) ↔ ∀ js, s.frame? nowNs reads = some js → Harmless cfg s js) := by
  exact ⟨(s.read cfg vocab nowNs m.nextSeqId reads).session, (onReadable_read hs).1, read_intact_iff⟩

/-- One client in the middle of its response. -/
def midResponse : List Action :=
  [.accept 7 [7] 1, .readable 7 (request "ab") .wouldBlock 2, .tick 3 (choosing 1)]

/-- The first byte of a header is only buffered. -/
theorem onReadable_intact_byte :
    ∃ s s', ((umad small {}).after (umad small {}).init midResponse).find 7 = some s ∧ s.state = .decode ∧
      (((umad small {}).after (umad small {}).init midResponse).mgr.onReadable 7 {} small.vocab 4
        [.data 5 []]).1.sessions.lookup 7 = some s' ∧ Intact s s' (s.parses 4 [.data 5 []]) := by
  have hst : (((umad small {}).after (umad small {}).init midResponse).find 7).map
      (fun s => (s.state, s.frame? 4 [.data 5 []])) = some (.decode, none) := by decide +kernel
  obtain ⟨s, hs, hst⟩ := Option.map_eq_some_iff.mp hst
  rw [Prod.mk.injEq] at hst
  have hl : ((umad small {}).after (umad small {}).init midResponse).mgr.sessions.lookup 7 = some s := hs
  obtain ⟨s', hs', hiff⟩ := onReadable_intact_iff {} small.vocab 4 [.data 5 []] hl
  refine ⟨s, s', hs, hst.1, hs', hiff.mpr ?_⟩
  intro js hjs
  rw [hst.2] at hjs
  cases hjs

/-- A whole second request takes the place of the first, whose two prompt
tokens and one sample are in the memory by then. -/
theorem onReadable_overwrites :
    ∃ d, (umad small {}).Reach Lib.Always d ∧ d.poller.read 7 = true ∧ d.memory 1 = [97, 98] ∧
      ∃ s s', d.find 7 = some s ∧ s.state = .decode ∧ s.promptTokens = [97, 98] ∧ s.nPast = 2 ∧
        (d.mgr.onReadable 7 {} small.vocab 4 (request "c")).1.sessions.lookup 7 = some s' ∧
        s'.promptTokens = [99] ∧ s'.nPast = 0 ∧ s'.inFlight ≠ s.inFlight := by
  refine ⟨(umad small {}).after (umad small {}).init midResponse, Lib.System.Reach.init.run (by decide +kernel),
    by decide +kernel, by decide +kernel, ?_⟩
  have hst : (((umad small {}).after (umad small {}).init midResponse).find 7).map
      (fun s => (s.state, s.promptTokens, s.nPast)) = some (.decode, [97, 98], 2) := by decide +kernel
  have hst' : ((((umad small {}).after (umad small {}).init midResponse).mgr.onReadable 7 {} small.vocab 4
      (request "c")).1.sessions.lookup 7).map (fun s => (s.promptTokens, s.nPast)) = some ([99], 0) := by decide +kernel
  obtain ⟨s, hs, hst⟩ := Option.map_eq_some_iff.mp hst
  obtain ⟨s', hs', hst'⟩ := Option.map_eq_some_iff.mp hst'
  rw [Prod.mk.injEq, Prod.mk.injEq] at hst
  rw [Prod.mk.injEq] at hst'
  refine ⟨s, s', hs, hst.1, hst.2.1, hst.2.2, hs', hst'.1, hst'.2, fun heq => ?_⟩
  have hp : s'.promptTokens = s.promptTokens := congrArg InFlight.promptTokens heq
  rw [hst'.1, hst.2.1] at hp
  cases hp

end Busy
end UmaServe

/-
The outcomes of a readable event. What the reads bring is said once
(`read_heard`), and what a frame does to the session once (`onFrame_framed`).
The body of `on_readable` has eight exits; by what they leave behind there
are five (`read_reading`): nothing parsed, an error reply, a metrics request,
a request with no tokens, and a request that starts.
-/
import UmaServe.Ipc.SessionManager

namespace UmaServe

/-- The payload is a generation request that passes every check. -/
def acceptsRequest (cfg : RuntimeConfig) (js : Bytes) : Bool :=
  let id := extractJsonString js (bytes "id")
  let prompt := extractJsonString js (bytes "prompt")
  !isAdminRequest js && !id.2 && !prompt.2 && !prompt.1.isEmpty && decide (prompt.1.length ≤ cfg.maxPromptBytes)

/-- The payload is a generation request with a readable id and a non-empty
readable prompt. -/
def namesRequest (js : Bytes) : Bool :=
  let id := extractJsonString js (bytes "id")
  let prompt := extractJsonString js (bytes "prompt")
  !isAdminRequest js && !id.2 && !prompt.2 && !prompt.1.isEmpty

/-- The tokens of the prompt of a request. -/
def promptOf (vocab : Vocab) (js : Bytes) : List Token :=
  tokenize vocab (extractJsonString js (bytes "prompt")).1 true true

namespace ClientSession

/-- The session after the drain loop and, at end of file, its marking. -/
def received (s : ClientSession) (nowNs : Nat) (reads : List ReadRes) : ClientSession :=
  let (s, fin) := s.drain nowNs reads
  if fin = .eof then { s with readClosed := true, lastActivityNs := nowNs } else s

/-- What `try_read_frame` makes of the bytes, unless the read failed. -/
def attempt (s : ClientSession) (nowNs : Nat) (reads : List ReadRes) : Option FrameRead :=
  if (s.drain nowNs reads).2 = .error then none
  else some (tryReadFrame (s.received nowNs reads).rx [] defaultMaxFrameBytes)

/-- The payload of the complete frame that is parsed, if there is one. -/
def frame? (s : ClientSession) (nowNs : Nat) (reads : List ReadRes) : Option Bytes :=
  (s.attempt nowNs reads).bind fun fr => if fr.ok then some fr.outJson else none

/-- A complete or invalid frame is parsed. -/
def parses (s : ClientSession) (nowNs : Nat) (reads : List ReadRes) : Bool :=
  (s.attempt nowNs reads).any fun fr => fr.ok || fr.errMsg.isSome

/-- `t` is `s` with bytes moved and, perhaps, the fields of a request set. -/
def Taken (s t : ClientSession) : Prop :=
  ∃ rx act rc id temp p k, (s.readClosed = true → rc = true) ∧
    t = { s with
      rx := rx
      lastActivityNs := act
      readClosed := rc
      requestId := id
      temperature := temp
      topP := p
      topK := k }

theorem drain_eq (s : ClientSession) (nowNs : Nat) (reads : List ReadRes) :
    ∃ rx act, (s.drain nowNs reads).1 = { s with rx := rx, lastActivityNs := act } := by
  induction reads generalizing s with
  | nil => exact ⟨s.rx, s.lastActivityNs, rfl⟩
  | cons r reads ih =>
    cases r with
    | data b bs =>
      obtain ⟨rx, act, h⟩ := ih { s with rx := s.rx ++ b :: bs, lastActivityNs := nowNs }
      exact ⟨rx, act, h⟩
    | eof | wouldBlock | error => exact ⟨s.rx, s.lastActivityNs, rfl⟩

theorem received_eq (s : ClientSession) (nowNs : Nat) (reads : List ReadRes) :
    ∃ rx act rc, (s.readClosed = true → rc = true) ∧
      s.received nowNs reads = { s with rx := rx, lastActivityNs := act, readClosed := rc } := by
  obtain ⟨rx, act, h⟩ := s.drain_eq nowNs reads
  unfold received
  dsimp only
  rw [h]
  split
  · exact ⟨rx, nowNs, true, fun _ => rfl, rfl⟩
  · exact ⟨rx, act, s.readClosed, id, rfl⟩

end ClientSession

/-! ## A frame -/

/-- The session with the id and the preferences of a request. -/
def ClientSession.asked (s : ClientSession) (js : Bytes) : ClientSession :=
  { s.openWindow with requestId := (extractJsonString js (bytes "id")).1 }.setSampling js

/-- What a frame with payload `js` makes of `s`. -/
inductive Framed (cfg : RuntimeConfig) (vocab : Vocab) (nowNs : Nat) (next : Int) (rr : ReadResult) (js : Bytes)
    (s : ClientSession) : ReadOutcome → Prop
  | admin : isAdminRequest js = true →
      Framed cfg vocab nowNs next rr js s
        ⟨{ s.openWindow with state := .stream, readClosed := true }, next,
          { wantsWrite := true, removedRead := true, adminRequest := true }⟩
  | unnamed {id code message : Bytes} : isAdminRequest js = false → namesRequest js = false →
      Framed cfg vocab nowNs next rr js s ⟨s.openWindow.fail id code message, next, rr.failed⟩
  | tooLarge {code message : Bytes} : isAdminRequest js = false → namesRequest js = true →
      cfg.maxPromptBytes < (extractJsonString js (bytes "prompt")).1.length →
      Framed cfg vocab nowNs next rr js s ⟨(s.asked js).fail (s.asked js).requestId code message, next, rr.failed⟩
  | empty : namesRequest js = true → acceptsRequest cfg js = true → promptOf vocab js = [] →
      Framed cfg vocab nowNs next rr js s
        ⟨{ (s.asked js).acceptWindow with promptTokens := [], state := .stream }.emit
          (.eos (s.asked js).requestId (bytes "stop")), next, { rr with wantsWrite := true }⟩
  | started {seq next' : Int} : namesRequest js = true → acceptsRequest cfg js = true → promptOf vocab js ≠ [] →
      (s.seq < 0 ∧ seq = next ∧ next' = next + 1 ∨ 0 ≤ s.seq ∧ seq = s.seq ∧ next' = next) →
      Framed cfg vocab nowNs next rr js s
        ⟨(s.asked js).acceptWindow.start cfg nowNs (promptOf vocab js) seq, next', rr⟩

section Frame

variable {cfg : RuntimeConfig} {js : Bytes}

theorem acceptsRequest_eq : acceptsRequest cfg js =
    (namesRequest js && decide ((extractJsonString js (bytes "prompt")).1.length ≤ cfg.maxPromptBytes)) := rfl

/-- **Every frame** has one of these outcomes. -/
theorem onFrame_framed (cfg : RuntimeConfig) (vocab : Vocab) (nowNs : Nat) (next : Int) (rr : ReadResult) (js : Bytes)
    (s : ClientSession) : Framed cfg vocab nowNs next rr js s (s.onFrame cfg vocab nowNs next rr js) := by
  unfold ClientSession.onFrame
  dsimp only
  split
  next hadm => exact .admin hadm
  next hadm =>
    rw [Bool.not_eq_true] at hadm
    split
    next hinv =>
      refine .unnamed hadm ?_
      rcases Bool.or_eq_true_iff.mp hinv with h | h <;> simp [namesRequest, h]
    next hinv =>
      rw [Bool.or_eq_true, not_or, Bool.not_eq_true, Bool.not_eq_true] at hinv
      split
      next hnil => exact .unnamed hadm (by simp [namesRequest, hnil])
      next hnil =>
        rw [Bool.not_eq_true] at hnil
        have hnames : namesRequest js = true := by simp [namesRequest, hadm, hinv.1, hinv.2, hnil]
        split
        next hlong => exact .tooLarge hadm hnames hlong
        next hlong =>
          have hacc : acceptsRequest cfg js = true := by
            rw [acceptsRequest_eq, hnames, Bool.true_and, decide_eq_true_eq]
            exact Nat.not_lt.mp hlong
          split
          next htoks => exact .empty hnames hacc (List.isEmpty_iff.mp htoks)
          next htoks =>
            have hne : promptOf vocab js ≠ [] := fun h => htoks (List.isEmpty_iff.mpr h)
            split
            next hseq =>
              have h : Framed cfg vocab nowNs next rr js s ⟨_, next + 1, rr⟩ :=
                .started hnames hacc hne (.inl ⟨hseq, rfl, rfl⟩)
              exact h
            next hseq =>
              have h : Framed cfg vocab nowNs next rr js s ⟨_, next, rr⟩ :=
                .started hnames hacc hne (.inr ⟨Int.not_lt.mp hseq, rfl, rfl⟩)
              exact h

end Frame

/-! ## A readable event -/

/-- What the reads bring: nothing complete, an invalid frame, or a frame. -/
inductive Heard (cfg : RuntimeConfig) (vocab : Vocab) (nowNs : Nat) (next : Int) (reads : List ReadRes)
    (s : ClientSession) : ReadOutcome → Prop
  | quiet {rr : ReadResult} : s.frame? nowNs reads = none → s.parses nowNs reads = false →
      rr.wantsWrite = false → rr.adminRequest = false →
      Heard cfg vocab nowNs next reads s ⟨s.received nowNs reads, next, rr⟩
  | invalid {rr : ReadResult} {id code message : Bytes} : s.frame? nowNs reads = none → s.parses nowNs reads = true →
      rr.adminRequest = false →
      Heard cfg vocab nowNs next reads s ⟨(s.received nowNs reads).openWindow.fail id code message, next, rr.failed⟩
  | frame {rr : ReadResult} {js : Bytes} : s.frame? nowNs reads = some js → s.parses nowNs reads = true →
      rr.wantsWrite = false → rr.adminRequest = false →
      Heard cfg vocab nowNs next reads s
        ({ s.received nowNs reads with
          rx := (tryReadFrame (s.received nowNs reads).rx [] defaultMaxFrameBytes).rx }.onFrame
          cfg vocab nowNs next rr js)

/-- The outcomes of a readable event on `s`. -/
inductive Reading (cfg : RuntimeConfig) (vocab : Vocab) (nowNs : Nat) (next : Int) (reads : List ReadRes)
    (s : ClientSession) : ReadOutcome → Prop
  /-- Nothing to parse: more bytes are needed, or the read failed. -/
  | quiet {rr : ReadResult} : s.parses nowNs reads = false → rr.wantsWrite = false → rr.adminRequest = false →
      Reading cfg vocab nowNs next reads s ⟨s.received nowNs reads, next, rr⟩
  /-- An error reply. -/
  | rejected {t : ClientSession} {id code message : Bytes} : s.parses nowNs reads = true → s.Taken t →
      (∀ js, s.frame? nowNs reads = some js → isAdminRequest js = false ∧ acceptsRequest cfg js = false) →
      Reading cfg vocab nowNs next reads s
        ⟨t.openWindow.fail id code message, next, { wantsWrite := true, removedRead := true }⟩
  /-- A metrics request. -/
  | admin {t : ClientSession} {js : Bytes} : s.parses nowNs reads = true → s.Taken t →
      s.frame? nowNs reads = some js → isAdminRequest js = true →
      Reading cfg vocab nowNs next reads s
        ⟨{ t.openWindow with state := .stream, readClosed := true }, next,
          { wantsWrite := true, removedRead := true, adminRequest := true }⟩
  /-- A request whose prompt has no tokens. -/
  | empty {t : ClientSession} {rr : ReadResult} {js : Bytes} : s.parses nowNs reads = true → s.Taken t →
      s.frame? nowNs reads = some js → acceptsRequest cfg js = true → promptOf vocab js = [] → rr.wantsWrite = true →
      rr.adminRequest = false →
      Reading cfg vocab nowNs next reads s
        ⟨{ t.openWindow.acceptWindow with promptTokens := [], state := .stream }.emit (.eos t.requestId (bytes "stop")),
          next, rr⟩
  /-- A request that starts, on a new sequence or on the session's own. -/
  | started {t : ClientSession} {rr : ReadResult} {js : Bytes} {seq next' : Int} :
      s.parses nowNs reads = true → s.Taken t → s.frame? nowNs reads = some js → acceptsRequest cfg js = true →
      promptOf vocab js ≠ [] → rr.wantsWrite = false → rr.adminRequest = false →
      (s.seq < 0 ∧ seq = next ∧ next' = next + 1 ∨ 0 ≤ s.seq ∧ seq = s.seq ∧ next' = next) →
      Reading cfg vocab nowNs next reads s
        ⟨t.openWindow.acceptWindow.start cfg nowNs (promptOf vocab js) seq, next', rr⟩

section Read

variable {cfg : RuntimeConfig} {vocab : Vocab} {nowNs : Nat} {next : Int} {reads : List ReadRes} {s : ClientSession}

theorem read_failed (h : (s.drain nowNs reads).2 = .error) :
    s.read cfg vocab nowNs next reads = ⟨s.received nowNs reads, next, { removedRead := true }⟩ := by
  simp [ClientSession.read, ClientSession.received, h]

theorem read_eq (h : (s.drain nowNs reads).2 ≠ .error) :
    s.read cfg vocab nowNs next reads =
      (let t := s.received nowNs reads
       let rr : ReadResult := { removedRead := (s.drain nowNs reads).2 = .eof }
       let fr := tryReadFrame t.rx [] defaultMaxFrameBytes
       if fr.ok then { t with rx := fr.rx }.onFrame cfg vocab nowNs next rr fr.outJson
       else
         match fr.errMsg with
         | none => ⟨t, next, rr⟩
         | some err =>
           let code := if (find (bytes "invalid frame length 0") err).isSome then bytes "E_PROTO_INVALID_LEN"
             else bytes "E_PROTO_FRAME_TOO_LARGE"
           ⟨t.openWindow.fail t.requestId code err, next, rr.failed⟩) := by
  unfold ClientSession.read
  dsimp only
  rw [if_neg h]
  rfl

theorem read_heard : Heard cfg vocab nowNs next reads s (s.read cfg vocab nowNs next reads) := by
  by_cases herr : (s.drain nowNs reads).2 = .error
  · have hatt : s.attempt nowNs reads = none := by simp [ClientSession.attempt, herr]
    rw [read_failed herr]
    exact .quiet (by simp [ClientSession.frame?, hatt]) (by simp [ClientSession.parses, hatt]) rfl rfl
  have hatt : s.attempt nowNs reads = some (tryReadFrame (s.received nowNs reads).rx [] defaultMaxFrameBytes) := by
    simp [ClientSession.attempt, herr]
  rw [read_eq herr]
  dsimp only
  split
  next hok =>
    exact .frame (by simp [ClientSession.frame?, hatt, hok]) (by simp [ClientSession.parses, hatt, hok]) rfl rfl
  next hok =>
    have hnone : s.frame? nowNs reads = none := by simp [ClientSession.frame?, hatt, hok]
    split
    next hmsg => exact .quiet hnone (by simp [ClientSession.parses, hatt, hok, hmsg]) rfl rfl
    next err hmsg => exact .invalid hnone (by simp [ClientSession.parses, hatt, hmsg]) rfl

/-- When the reads complete a frame, its outcome is that of `read`. -/
theorem read_framed (cfg : RuntimeConfig) (vocab : Vocab) (next : Int) {js : Bytes}
    (hf : s.frame? nowNs reads = some js) :
    ∃ rx act rc rr, rr.wantsWrite = false ∧ rr.adminRequest = false ∧
      Framed cfg vocab nowNs next rr js { s with rx := rx, lastActivityNs := act, readClosed := rc }
        (s.read cfg vocab nowNs next reads) := by
  obtain ⟨rx, act, rc, -, hrec⟩ := s.received_eq nowNs reads
  have hheard : Heard cfg vocab nowNs next reads s (s.read cfg vocab nowNs next reads) := read_heard
  generalize s.read cfg vocab nowNs next reads = o at hheard ⊢
  cases hheard with
  | quiet hnone => simp [hf] at hnone
  | invalid hnone => simp [hf] at hnone
  | @frame rr js' hf' _ hw ha =>
    obtain rfl : js' = js := by simpa [hf] using hf'.symm
    rw [hrec]
    exact ⟨_, act, rc, rr, hw, ha, onFrame_framed cfg vocab nowNs next rr js' _⟩

/-- Exactly the frames that pass the admin test are treated as admin
requests. -/
theorem read_adminRequest {js : Bytes} (hf : s.frame? nowNs reads = some js) :
    (s.read cfg vocab nowNs next reads).rr.adminRequest = isAdminRequest js := by
  obtain ⟨rx, act, rc, rr, -, ha, hframed⟩ := read_framed cfg vocab next hf
  generalize s.read cfg vocab nowNs next reads = o at hframed ⊢
  cases hframed with
  | admin hadm => exact hadm.symm
  | unnamed hadm | tooLarge hadm => rw [hadm]; exact ha
  | empty hnames | started hnames =>
    simp only [namesRequest, Bool.and_eq_true, Bool.not_eq_true'] at hnames
    rw [hnames.1.1.1]
    exact ha

/-- `on_readable` on the session found. -/
theorem onReadable_read {m : SessionManager} {fd : Int} (hs : m.sessions.lookup fd = some s) :
    (m.onReadable fd cfg vocab nowNs reads).1.sessions.lookup fd =
        some (s.read cfg vocab nowNs m.nextSeqId reads).session ∧
      (m.onReadable fd cfg vocab nowNs reads).2 = (s.read cfg vocab nowNs m.nextSeqId reads).rr := by
  simp only [SessionManager.onReadable, hs, and_true]
  exact AList.lookup_replace_self hs

theorem ReadResult.failed_eq {rr : ReadResult} (h : rr.adminRequest = false) :
    rr.failed = { wantsWrite := true, removedRead := true } := by
  simp [ReadResult.failed, h]

theorem onFrame_reading {t : ClientSession} {rr : ReadResult} {js : Bytes} (hp : s.parses nowNs reads = true)
    (hf : s.frame? nowNs reads = some js) (hw : rr.wantsWrite = false) (ha : rr.adminRequest = false)
    (ht : ∃ rx act rc, (s.readClosed = true → rc = true) ∧
      t = { s with rx := rx, lastActivityNs := act, readClosed := rc }) :
    Reading cfg vocab nowNs next reads s (t.onFrame cfg vocab nowNs next rr js) := by
  obtain ⟨rx, act, rc, hrc, rfl⟩ := ht
  -- Whatever request fields are set, the session stays `Taken`.
  have htaken : ∀ id temp p k, s.Taken { s with
      rx := rx
      lastActivityNs := act
      readClosed := rc
      requestId := id
      temperature := temp
      topP := p
      topK := k } := fun id temp p k => ⟨rx, act, rc, id, temp, p, k, hrc, rfl⟩
  -- A payload that fails a check is no request to accept.
  have hnot : acceptsRequest cfg js = false → isAdminRequest js = false →
      ∀ js', s.frame? nowNs reads = some js' → isAdminRequest js' = false ∧ acceptsRequest cfg js' = false := by
    intro hacc hadm js' hjs'
    rw [hf, Option.some.injEq] at hjs'
    rw [← hjs']
    exact ⟨hadm, hacc⟩
  have hframed := onFrame_framed cfg vocab nowNs next rr js
    { s with rx := rx, lastActivityNs := act, readClosed := rc }
  generalize ClientSession.onFrame _ cfg vocab nowNs next rr js = o at hframed ⊢
  cases hframed with
  | admin hadm => exact .admin hp (htaken s.requestId s.temperature s.topP s.topK) hf hadm
  | unnamed hadm hnames =>
    rw [ReadResult.failed_eq ha]
    refine .rejected hp (htaken s.requestId s.temperature s.topP s.topK) (hnot ?_ hadm)
    rw [acceptsRequest_eq, hnames, Bool.false_and]
  | tooLarge hadm hnames hlong =>
    rw [ReadResult.failed_eq ha]
    refine .rejected hp (htaken _ _ _ _) (hnot ?_ hadm)
    rw [acceptsRequest_eq, decide_eq_false (Nat.not_le.mpr hlong), Bool.and_false]
  | empty _ hacc hnil => exact .empty hp (htaken _ _ _ _) hf hacc hnil rfl ha
  | started _ hacc hne hseq => exact .started hp (htaken _ _ _ _) hf hacc hne hw ha hseq

/-- **Every readable event** has one of the five outcomes. -/
theorem read_reading : Reading cfg vocab nowNs next reads s (s.read cfg vocab nowNs next reads) := by
  obtain ⟨rx, act, rc, hrc, hrec⟩ := s.received_eq nowNs reads
  have hheard : Heard cfg vocab nowNs next reads s (s.read cfg vocab nowNs next reads) := read_heard
  generalize s.read cfg vocab nowNs next reads = o at hheard ⊢
  cases hheard with
  | quiet _ hp hw ha => exact .quiet hp hw ha
  | invalid hnone hp ha =>
    rw [ReadResult.failed_eq ha]
    refine .rejected hp ⟨rx, act, rc, s.requestId, s.temperature, s.topP, s.topK, hrc, hrec⟩ ?_
    intro js hjs
    rw [hnone] at hjs
    cases hjs
  | frame hf hp hw ha => exact onFrame_reading hp hf hw ha ⟨_, act, rc, hrc, by rw [hrec]⟩

end Read
end UmaServe

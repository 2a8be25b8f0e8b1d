/-
What one step of the loop does, descriptor by descriptor: `step_move` lists
everything a step can do to the session and the filters of one descriptor.
Invariants of single sessions are proved by cases on it and do not look into
the steps.
-/
import UmaServe.Ipc.ReadFacts
import UmaServe.Sched.MemoryFacts
import UmaServe.Umad.Main

namespace UmaServe

/-- What the loop holds for one descriptor: its session and its filters. -/
structure View where
  session : Option ClientSession
  read : Bool
  write : Bool

def Daemon.view (d : Daemon) (fd : Int) : View := ⟨d.find fd, d.poller.read fd, d.poller.write fd⟩

/-! ## The operations of the steps -/

namespace Daemon

variable {d : Daemon} {fd k : Int} {s t : ClientSession}

theorem find_put_self (h : d.find fd = some t) : (d.put fd s).find fd = some s := AList.lookup_replace_self h

theorem find_put_ne (h : k ≠ fd) : (d.put fd s).find k = d.find k := AList.lookup_replace_ne h

theorem view_put_ne (h : k ≠ fd) : (d.put fd s).view k = d.view k := by
  simp only [view, find_put_ne h]
  rfl

theorem view_put_self (h : d.find fd = some t) :
    (d.put fd s).view fd = ⟨some s, d.poller.read fd, d.poller.write fd⟩ := by
  simp only [view, find_put_self h]
  rfl

/-- `poller.add` and `poller.remove` on the daemon. -/
def watchRead (d : Daemon) (fd : Int) : Daemon := { d with poller := d.poller.addRead fd }
def watchWrite (d : Daemon) (fd : Int) : Daemon := { d with poller := d.poller.addWrite fd }
def unwatchWrite (d : Daemon) (fd : Int) : Daemon := { d with poller := d.poller.removeWrite fd }

@[simp] theorem watchRead_view : (d.watchRead fd).view k = { d.view k with read := k = fd || (d.view k).read } := by
  by_cases h : k = fd <;> simp [view, watchRead, find, h]
@[simp] theorem watchWrite_view : (d.watchWrite fd).view k = { d.view k with write := k = fd || (d.view k).write } := by
  by_cases h : k = fd <;> simp [view, watchWrite, find, h]
@[simp] theorem unwatchWrite_view :
    (d.unwatchWrite fd).view k = { d.view k with write := !decide (k = fd) && (d.view k).write } := by
  by_cases h : k = fd <;> simp [view, unwatchWrite, find, h]

theorem close_eq_none (h : d.find fd = none) :
    d.close fd = { d with poller := (d.poller.removeRead fd).removeWrite fd } := by
  have h' : ({ d with poller := (d.poller.removeRead fd).removeWrite fd } : Daemon).find fd = none := h
  simp only [close, h']

theorem close_eq_some (h : d.find fd = some s) :
    d.close fd = { d with
      poller := (d.poller.removeRead fd).removeWrite fd
      mgr := { d.mgr with sessions := d.mgr.sessions.erase fd }
      memory := if 0 ≤ s.seq then d.memory.seqRm s.seq else d.memory
      closedSeqs := if 0 ≤ s.seq then s.seq :: d.closedSeqs else d.closedSeqs } := by
  have h' : ({ d with poller := (d.poller.removeRead fd).removeWrite fd } : Daemon).find fd = some s := h
  simp only [close, h']

theorem view_close_self : (d.close fd).view fd = ⟨none, false, false⟩ := by
  cases h : d.find fd with
  | none => rw [close_eq_none h, view]; simp [find] at h ⊢; exact h
  | some s => rw [close_eq_some h, view]; simp [find]

theorem view_close_ne (h : k ≠ fd) : (d.close fd).view k = d.view k := by
  cases hs : d.find fd with
  | none => rw [close_eq_none hs, view, view]; simp [h, find]
  | some s => rw [close_eq_some hs, view, view]; simp [h, find, AList.lookup_erase_ne h]

theorem find_close_self : (d.close fd).find fd = none := congrArg View.session view_close_self

theorem find_close_ne (h : k ≠ fd) : (d.close fd).find k = d.find k := congrArg View.session (view_close_ne h)

@[simp] theorem close_nextSeqId : (d.close fd).mgr.nextSeqId = d.mgr.nextSeqId := by
  cases hs : d.find fd with
  | none => rw [close_eq_none hs]
  | some s => rw [close_eq_some hs]

@[simp] theorem close_sched : (d.close fd).sched = d.sched := by
  cases hs : d.find fd with
  | none => rw [close_eq_none hs]
  | some s => rw [close_eq_some hs]

/-- What arming may do to the poller: set write filters of sessions. -/
structure Armed (d : Daemon) (p : Poller) : Prop where
  read : p.read = d.poller.read
  mono : ∀ k, d.poller.write k = true → p.write k = true
  closed : ∀ k, d.find k = none → p.write k = d.poller.write k

theorem arm_eq (d : Daemon) (fd : Int) :
    ∃ p : Poller, d.arm fd = { d with poller := p } ∧ d.Armed p ∧
      ∀ s, d.find fd = some s → s.tx ≠ [] → p.write fd = true := by
  unfold arm
  split
  next hs => exact ⟨d.poller, rfl, ⟨rfl, fun _ h => h, fun _ _ => rfl⟩, fun s h => by rw [hs] at h; cases h⟩
  next t ht =>
    split
    next htx =>
      refine ⟨d.poller, rfl, ⟨rfl, fun _ h => h, fun _ _ => rfl⟩, fun s h hne => ?_⟩
      rw [ht] at h
      cases h
      exact absurd (List.isEmpty_iff.mp htx) hne
    next =>
      refine ⟨d.poller.addWrite fd, rfl, ⟨rfl, fun k h => by simp [h], fun k hk => ?_⟩, fun _ _ _ => by simp⟩
      have hne : k ≠ fd := by
        rintro rfl
        rw [ht] at hk
        cases hk
      simp [hne]

theorem foldl_arm (l : List Int) (d : Daemon) :
    ∃ p : Poller, l.foldl arm d = { d with poller := p } ∧ d.Armed p ∧
      ∀ fd ∈ l, ∀ s, d.find fd = some s → s.tx ≠ [] → p.write fd = true := by
  induction l generalizing d with
  | nil => exact ⟨d.poller, rfl, ⟨rfl, fun _ h => h, fun _ _ => rfl⟩, by simp⟩
  | cons fd l ih =>
    obtain ⟨p₁, h₁, ha₁, hs₁⟩ := d.arm_eq fd
    obtain ⟨p₂, h₂, ha₂, hs₂⟩ := ih { d with poller := p₁ }
    refine ⟨p₂, by rw [List.foldl_cons, h₁, h₂], ⟨ha₂.read.trans ha₁.read, fun k h => ha₂.mono k (ha₁.mono k h),
      fun k hk => (ha₂.closed k hk).trans (ha₁.closed k hk)⟩, ?_⟩
    intro fd' hfd' s hs hne
    rcases List.mem_cons.mp hfd' with rfl | hfd'
    · exact ha₂.mono _ (hs₁ s hs hne)
    · exact hs₂ fd' hfd' s hs hne

end Daemon

theorem writeNow_eq (s : ClientSession) (now : WriteRes) :
    ∃ tx, tx <:+ s.tx ∧ (if s.tx.isEmpty then s else s.writeNow now) = { s with tx := tx } := by
  split
  · exact ⟨s.tx, List.suffix_rfl, rfl⟩
  · cases now with
    | wrote n => exact ⟨s.tx.drop n, List.drop_suffix n s.tx, rfl⟩
    | wouldBlock | error => exact ⟨s.tx, List.suffix_rfl, rfl⟩

theorem flush_eq (s : ClientSession) (nowNs : Nat) (writes : List WriteRes) :
    ∃ tx act, tx <:+ s.tx ∧ (s.flush nowNs writes).1 = { s with tx := tx, lastActivityNs := act } := by
  induction writes generalizing s with
  | nil => exact ⟨s.tx, s.lastActivityNs, List.suffix_rfl, rfl⟩
  | cons r writes ih =>
    unfold ClientSession.flush
    split
    · exact ⟨s.tx, s.lastActivityNs, List.suffix_rfl, rfl⟩
    · cases r with
      | wrote n =>
        obtain ⟨tx, act, hsuf, h⟩ := ih { s with tx := s.tx.drop n, lastActivityNs := nowNs }
        exact ⟨tx, act, hsuf.trans (List.drop_suffix n s.tx), h⟩
      | wouldBlock | error => exact ⟨s.tx, s.lastActivityNs, List.suffix_rfl, rfl⟩

/-! ## One descriptor -/

/-- The session of a request without tokens, with its answer. -/
def ClientSession.answerEmpty (t : ClientSession) : ClientSession :=
  { t.openWindow.acceptWindow with promptTokens := [], state := .stream }.emit (.eos t.requestId (bytes "stop"))

/-- What one step can do to one descriptor; `next` is the sequence counter
after the step. -/
inductive Move (pf : Platform) (cfg : RuntimeConfig) (d : Daemon) (next fd : Int) : Action → View → View → Prop
  | same {a : Action} {v : View} : Move pf cfg d next fd a v v
  | accepted {order : List Int} {nowNs : Nat} {r w : Bool} :
      Move pf cfg d next fd (.accept fd order nowNs) ⟨none, r, w⟩ ⟨some { fd, lastActivityNs := nowNs }, true, w⟩
  /-- Bytes came in, and no frame was parsed. -/
  | quiet {reads : List ReadRes} {now : WriteRes} {nowNs : Nat} {s : ClientSession} {r w r' : Bool} :
      s.parses nowNs reads = false → (r' = true → r = true) →
      Move pf cfg d next fd (.readable fd reads now nowNs) ⟨some s, r, w⟩ ⟨some (s.received nowNs reads), r', w⟩
  /-- An error reply, not all of it written. -/
  | rejected {reads : List ReadRes} {now : WriteRes} {nowNs : Nat} {s t : ClientSession} {r w : Bool}
      {id code message tx : Bytes} :
      s.parses nowNs reads = true → s.Taken t →
      (∀ js, s.frame? nowNs reads = some js → isAdminRequest js = false ∧ acceptsRequest cfg js = false) →
      tx ≠ [] → tx <:+ (t.openWindow.fail id code message).tx →
      Move pf cfg d next fd (.readable fd reads now nowNs) ⟨some s, r, w⟩
        ⟨some { t.openWindow.fail id code message with tx := tx }, false, true⟩
  /-- A metrics reply, not all of it written. -/
  | metrics {reads : List ReadRes} {now : WriteRes} {nowNs : Nat} {s t : ClientSession} {r w : Bool}
      {js json tx : Bytes} :
      s.parses nowNs reads = true → s.Taken t → s.frame? nowNs reads = some js → isAdminRequest js = true →
      tx ≠ [] → tx <:+ (t.openWindow.replyMetrics json).tx →
      Move pf cfg d next fd (.readable fd reads now nowNs) ⟨some s, r, w⟩
        ⟨some { t.openWindow.replyMetrics json with tx := tx }, false, true⟩
  /-- The answer to a request without tokens, not all of it written. -/
  | empty {reads : List ReadRes} {now : WriteRes} {nowNs : Nat} {s t : ClientSession} {r w r' : Bool} {js tx : Bytes} :
      s.parses nowNs reads = true → s.Taken t → s.frame? nowNs reads = some js → acceptsRequest cfg js = true →
      (r' = true → r = true) →
      tx ≠ [] → tx <:+ t.answerEmpty.tx →
      Move pf cfg d next fd (.readable fd reads now nowNs) ⟨some s, r, w⟩
        ⟨some { t.answerEmpty with tx := tx }, r', true⟩
  /-- The same, written at once on a connection that stays open. -/
  | emptied {reads : List ReadRes} {now : WriteRes} {nowNs : Nat} {s t : ClientSession} {r w : Bool} {js : Bytes} :
      s.parses nowNs reads = true → s.Taken t → s.frame? nowNs reads = some js → acceptsRequest cfg js = true →
      t.readClosed = false →
      Move pf cfg d next fd (.readable fd reads now nowNs) ⟨some s, r, w⟩
        ⟨some { t.answerEmpty with tx := [] }.reset, true, w⟩
  /-- A request starts. -/
  | started {reads : List ReadRes} {now : WriteRes} {nowNs : Nat} {s t : ClientSession} {r w r' : Bool}
      {js : Bytes} {seq : Int} :
      s.parses nowNs reads = true → s.Taken t → s.frame? nowNs reads = some js → acceptsRequest cfg js = true →
      promptOf pf.vocab js ≠ [] → (r' = true → r = true) →
      (s.seq < 0 ∧ seq = d.mgr.nextSeqId ∧ next = d.mgr.nextSeqId + 1 ∨
        0 ≤ s.seq ∧ seq = s.seq ∧ next = d.mgr.nextSeqId) →
      Move pf cfg d next fd (.readable fd reads now nowNs) ⟨some s, r, w⟩
        ⟨some (t.openWindow.acceptWindow.start cfg nowNs (promptOf pf.vocab js) seq), r', w⟩
  /-- Some of `tx` was written. -/
  | sent {writes : List WriteRes} {nowNs act : Nat} {s : ClientSession} {r w : Bool} {tx : Bytes} :
      tx ≠ [] → tx <:+ s.tx →
      Move pf cfg d next fd (.writable fd writes nowNs) ⟨some s, r, w⟩
        ⟨some { s with tx := tx, lastActivityNs := act }, r, w⟩
  /-- All of it was, in the middle of a response. -/
  | drained {writes : List WriteRes} {nowNs act : Nat} {s : ClientSession} {r w : Bool} :
      s.state ≠ .errored → s.state ≠ .stream →
      Move pf cfg d next fd (.writable fd writes nowNs) ⟨some s, r, w⟩
        ⟨some { s with tx := [], lastActivityNs := act }, r, false⟩
  /-- All of it was, at the end of a response. -/
  | finished {writes : List WriteRes} {nowNs act : Nat} {s : ClientSession} {r w : Bool} :
      s.state = .stream → s.readClosed = false →
      Move pf cfg d next fd (.writable fd writes nowNs) ⟨some s, r, w⟩
        ⟨some { s with tx := [], lastActivityNs := act }.reset, r, false⟩
  /-- A tick with no row for the session. -/
  | idled {nowNs : Nat} {out : Decoded} {s : ClientSession} {r w w' : Bool} :
      (∀ it ∈ d.sched.items cfg d.mgr.sessions, it.fd = fd → itemRows s it = []) → (w = true → w' = true) →
      Move pf cfg d next fd (.tick nowNs out) ⟨some s, r, w⟩ ⟨some s, r, w'⟩
  /-- A tick that serves the session. -/
  | served {nowNs : Nat} {out : Decoded} {s s' : ClientSession} {r w w' : Bool} {before : List BatchItem}
      {it : BatchItem} :
      Serves d.mgr.sessions (d.sched.items cfg d.mgr.sessions) fd s before it →
      Served pf cfg nowNs out s it (sampleIndex d.mgr.sessions before s it) s' → (w = true → w' = true) →
      (out.rc = 0 → s.tx = [] → s'.tx ≠ [] → w' = true) →
      Move pf cfg d next fd (.tick nowNs out) ⟨some s, r, w⟩ ⟨some s', r, w'⟩
  | closed {a : Action} {v : View} : Move pf cfg d next fd a v ⟨none, false, false⟩

/-! ## The branches of the dispatch loop -/

section Branches

variable {pf : Platform} {cfg : RuntimeConfig} {d : Daemon} {fd next : Int} {s : ClientSession} {reads : List ReadRes}
  {now : WriteRes} {writes : List WriteRes} {nowNs : Nat}

theorem readable_none (h : d.find fd = none) : d.readable pf cfg fd reads now nowNs = d := by
  have hl : d.mgr.sessions.lookup fd = none := h
  have hf : ({ d with mgr := d.mgr } : Daemon).find fd = none := h
  simp only [Daemon.readable, SessionManager.onReadable, hl, hf]

/-- The daemon once `on_readable` and the admin branch are done: the session
is `t`, and the read filter may be gone. -/
def Daemon.heard (d : Daemon) (fd : Int) (o : ReadOutcome) (t : ClientSession) : Daemon :=
  { d with
    mgr := { sessions := (d.mgr.sessions.replace fd o.session).replace fd t, nextSeqId := o.nextSeqId }
    poller := if o.rr.adminRequest || o.rr.removedRead then d.poller.removeRead fd else d.poller }

theorem heard_find_self {o : ReadOutcome} {t : ClientSession} (hs : d.find fd = some s) :
    (d.heard fd o t).find fd = some t :=
  AList.lookup_replace_self (AList.lookup_replace_self hs)

theorem heard_view_ne {o : ReadOutcome} {t : ClientSession} {k : Int} (hk : k ≠ fd) :
    (d.heard fd o t).view k = d.view k := by
  have hf : (d.heard fd o t).find k = d.find k := (AList.lookup_replace_ne hk).trans (AList.lookup_replace_ne hk)
  simp only [Daemon.view, hf]
  unfold Daemon.heard
  split <;> simp [hk]

theorem heard_view_self {o : ReadOutcome} {t : ClientSession} (hs : d.find fd = some s) :
    (d.heard fd o t).view fd =
      ⟨some t, !(o.rr.adminRequest || o.rr.removedRead) && d.poller.read fd, d.poller.write fd⟩ := by
  simp only [Daemon.view, heard_find_self hs]
  unfold Daemon.heard
  cases h : o.rr.adminRequest || o.rr.removedRead <;> simp

/-- The session after `on_readable` answered `o` and, for a metrics request,
the reply was appended. -/
def ReadOutcome.replied (o : ReadOutcome) (json : Bytes) : ClientSession :=
  if o.rr.adminRequest then o.session.replyMetrics json else o.session

/-- The readable branch: nothing to write, something left to write, or
everything written. -/
theorem readable_some (pf : Platform) (cfg : RuntimeConfig) (reads : List ReadRes) (now : WriteRes) (nowNs : Nat)
    (hs : d.find fd = some s) :
    ∃ json, let o := s.read cfg pf.vocab nowNs d.mgr.nextSeqId reads
      let t := o.replied json
      let d₁ := d.heard fd o t
      o.rr.wantsWrite = false ∧ d.readable pf cfg fd reads now nowNs = d₁ ∨
      o.rr.wantsWrite = true ∧ ∃ tx, tx <:+ t.tx ∧
        (tx ≠ [] ∧ d.readable pf cfg fd reads now nowNs =
            (d₁.put fd { t with tx := tx }).watchWrite fd ∨
          tx = [] ∧ d.readable pf cfg fd reads now nowNs =
            (d₁.put fd { t with tx := tx }).finishRead fd { t with tx := tx }) := by
  have hl : d.mgr.sessions.lookup fd = some s := hs
  have hl' : (d.mgr.sessions.replace fd (s.read cfg pf.vocab nowNs d.mgr.nextSeqId reads).session).lookup fd =
      some (s.read cfg pf.vocab nowNs d.mgr.nextSeqId reads).session := AList.lookup_replace_self hl
  refine ⟨pf.metricsJson d.sched.metrics
    (d.mgr.sessions.replace fd (s.read cfg pf.vocab nowNs d.mgr.nextSeqId reads).session).entries.length, ?_⟩
  generalize hjson : pf.metricsJson d.sched.metrics _ = json
  have heq : d.readable pf cfg fd reads now nowNs =
      (let o := s.read cfg pf.vocab nowNs d.mgr.nextSeqId reads
       let t := o.replied json
       let d₁ := d.heard fd o t
       if o.rr.wantsWrite then
         let t' := if t.tx.isEmpty then t else t.writeNow now
         if t'.tx.isEmpty then (d₁.put fd t').finishRead fd t'
         else { d₁.put fd t' with poller := d₁.poller.addWrite fd }
       else d₁) := by
    simp only [Daemon.readable, SessionManager.onReadable, hl, Daemon.find, hl']
    rw [← hjson]
    rfl
  rw [heq]
  obtain ⟨tx, hsuf, hw⟩ := writeNow_eq ((s.read cfg pf.vocab nowNs d.mgr.nextSeqId reads).replied json) now
  dsimp only
  rw [hw]
  cases hww : (s.read cfg pf.vocab nowNs d.mgr.nextSeqId reads).rr.wantsWrite with
  | false => exact .inl ⟨rfl, by simp⟩
  | true =>
    refine .inr ⟨rfl, tx, hsuf, ?_⟩
    cases tx with
    | nil => exact .inr ⟨rfl, rfl⟩
    | cons b bs => exact .inl ⟨by simp, rfl⟩

theorem finishRead_stream (h : s.state = .stream) :
    d.finishRead fd s =
      if s.readClosed then d.close fd else (d.put fd s.reset).watchRead fd := by
  simp [Daemon.finishRead, h, Daemon.watchRead]

theorem finishRead_eq (d : Daemon) (fd : Int) (s : ClientSession) :
    d.finishRead fd s = d.finishWrite fd s ∨ d.finishRead fd s = (d.finishWrite fd s).watchRead fd := by
  unfold Daemon.finishRead Daemon.finishWrite
  split
  · exact .inl rfl
  · split
    · split
      · exact .inl rfl
      · exact .inr rfl
    · exact .inl rfl

@[simp] theorem finishRead_find {k : Int} : (d.finishRead fd s).find k = (d.finishWrite fd s).find k := by
  rcases finishRead_eq d fd s with h | h <;> rw [h]
  rfl

theorem finishWrite_view_ne {k : Int} (hk : k ≠ fd) : (d.finishWrite fd s).view k = d.view k := by
  unfold Daemon.finishWrite
  split
  · exact Daemon.view_close_ne hk
  · split
    · split
      · exact Daemon.view_close_ne hk
      · exact Daemon.view_put_ne hk
    · rfl

theorem finishRead_view_ne {k : Int} (hk : k ≠ fd) : (d.finishRead fd s).view k = d.view k := by
  rcases finishRead_eq d fd s with h | h
  · rw [h, finishWrite_view_ne hk]
  · rw [h, Daemon.watchRead_view, finishWrite_view_ne hk]
    simp [hk]

theorem readable_view_ne {k : Int} (hk : k ≠ fd) : (d.readable pf cfg fd reads now nowNs).view k = d.view k := by
  cases hs : d.find fd with
  | none => rw [readable_none hs]
  | some s =>
    obtain ⟨json, ⟨-, h⟩ | ⟨-, tx, -, ⟨-, h⟩ | ⟨-, h⟩⟩⟩ := readable_some pf cfg reads now nowNs hs
    · rw [h, heard_view_ne hk]
    · rw [h, Daemon.watchWrite_view, Daemon.view_put_ne hk, heard_view_ne hk]
      simp [hk]
    · rw [h, finishRead_view_ne hk, Daemon.view_put_ne hk, heard_view_ne hk]

@[simp] theorem finishWrite_nextSeqId : (d.finishWrite fd s).mgr.nextSeqId = d.mgr.nextSeqId := by
  unfold Daemon.finishWrite
  split
  · simp
  · split
    · split
      · simp
      · rfl
    · rfl

@[simp] theorem finishRead_nextSeqId : (d.finishRead fd s).mgr.nextSeqId = d.mgr.nextSeqId := by
  rcases finishRead_eq d fd s with h | h
  · rw [h, finishWrite_nextSeqId]
  · rw [h]
    exact finishWrite_nextSeqId

theorem readable_nextSeqId (pf : Platform) (cfg : RuntimeConfig) (reads : List ReadRes) (now : WriteRes) (nowNs : Nat)
    (hs : d.find fd = some s) :
    (d.readable pf cfg fd reads now nowNs).mgr.nextSeqId =
      (s.read cfg pf.vocab nowNs d.mgr.nextSeqId reads).nextSeqId := by
  obtain ⟨json, ⟨-, h⟩ | ⟨-, tx, -, ⟨-, h⟩ | ⟨-, h⟩⟩⟩ := readable_some pf cfg reads now nowNs hs
  · rw [h]; rfl
  · rw [h]; rfl
  · rw [h, finishRead_nextSeqId]; rfl

/-- What `on_readable` leaves true of the session, and no reply, write or
reset makes false, is true after the event. -/
theorem readable_holds {P : ClientSession → Prop} {s' : ClientSession}
    (hreply : ∀ t json, P t → P (t.replyMetrics json)) (hwrite : ∀ t tx, P t → P { t with tx := tx })
    (hreset : ∀ t, P t → P t.reset) (hs : d.find fd = some s)
    (hP : P (s.read cfg pf.vocab nowNs d.mgr.nextSeqId reads).session)
    (hs' : (d.readable pf cfg fd reads now nowNs).find fd = some s') : P s' := by
  obtain ⟨json, h⟩ := readable_some pf cfg reads now nowNs hs
  dsimp only at h
  generalize s.read cfg pf.vocab nowNs d.mgr.nextSeqId reads = o at hP h
  have hf : (d.heard fd o (o.replied json)).find fd = some (o.replied json) := heard_find_self hs
  have hPr : P (o.replied json) := by
    unfold ReadOutcome.replied
    split
    · exact hreply _ _ hP
    · exact hP
  obtain ⟨-, h⟩ | ⟨-, tx, -, ⟨-, h⟩ | ⟨-, h⟩⟩ := h
  · rw [h, hf] at hs'
    cases hs'
    exact hPr
  · rw [h] at hs'
    cases (Daemon.find_put_self hf).symm.trans hs'
    exact hwrite _ _ hPr
  · have hput := Daemon.find_put_self (s := { o.replied json with tx := tx }) hf
    rw [h] at hs'
    unfold Daemon.finishRead at hs'
    split at hs'
    · rw [Daemon.find_close_self] at hs'; cases hs'
    · split at hs'
      · split at hs'
        · rw [Daemon.find_close_self] at hs'; cases hs'
        · cases (Daemon.find_put_self hput).symm.trans hs'
          exact hreset _ (hwrite _ _ hPr)
      · cases hput.symm.trans hs'
        exact hwrite _ _ hPr

theorem readable_view_answered {o : ReadOutcome} {t : ClientSession} {d' : Daemon} {tx : Bytes}
    (hs : d.find fd = some s) (hst : t.state = .stream)
    (h : tx ≠ [] ∧ d' = ((d.heard fd o t).put fd { t with tx := tx }).watchWrite fd ∨
      tx = [] ∧ d' = ((d.heard fd o t).put fd { t with tx := tx }).finishRead fd { t with tx := tx }) :
    tx ≠ [] ∧ d'.view fd =
        ⟨some { t with tx := tx }, !(o.rr.adminRequest || o.rr.removedRead) && d.poller.read fd, true⟩ ∨
      t.readClosed = true ∧ d'.view fd = ⟨none, false, false⟩ ∨
      t.readClosed = false ∧ d'.view fd = ⟨some { t with tx := [] }.reset, true, d.poller.write fd⟩ := by
  have hf : (d.heard fd o t).find fd = some t := heard_find_self hs
  have hself := heard_view_self (o := o) (t := t) hs
  have hr : (d.heard fd o t).poller.read fd = (!(o.rr.adminRequest || o.rr.removedRead) && d.poller.read fd) :=
    congrArg View.read hself
  have hw : (d.heard fd o t).poller.write fd = d.poller.write fd := congrArg View.write hself
  rcases h with ⟨hne, rfl⟩ | ⟨rfl, rfl⟩
  · refine .inl ⟨hne, ?_⟩
    rw [Daemon.watchWrite_view, Daemon.view_put_self hf, hr]
    simp
  · rw [finishRead_stream (s := { t with tx := [] }) hst]
    by_cases hc : t.readClosed = true
    · exact .inr (.inl ⟨hc, by rw [if_pos hc, Daemon.view_close_self]⟩)
    · have hf' := Daemon.find_put_self (s := { t with tx := [] }) hf
      refine .inr (.inr ⟨by simpa using hc, ?_⟩)
      rw [if_neg hc, Daemon.watchRead_view, Daemon.view_put_self hf', View.mk.injEq]
      exact ⟨rfl, by simp, hw⟩

/-- **A readable event**, on its own descriptor. -/
theorem readable_move :
    Move pf cfg d (d.readable pf cfg fd reads now nowNs).mgr.nextSeqId fd (.readable fd reads now nowNs) (d.view fd)
      ((d.readable pf cfg fd reads now nowNs).view fd) := by
  cases hs : d.find fd with
  | none => rw [readable_none hs]; exact .same
  | some s =>
    have hview : d.view fd = ⟨some s, d.poller.read fd, d.poller.write fd⟩ := by rw [Daemon.view, hs]
    obtain ⟨json, h⟩ := readable_some pf cfg reads now nowNs hs
    have hr : Reading cfg pf.vocab nowNs d.mgr.nextSeqId reads s _ := read_reading
    rw [hview, readable_nextSeqId pf cfg reads now nowNs hs]
    dsimp only at h
    generalize s.read cfg pf.vocab nowNs d.mgr.nextSeqId reads = o at hr h
    cases hr with
    | quiet hp hw ha =>
      obtain ⟨-, h⟩ | ⟨hww, -⟩ := h
      · rw [h, heard_view_self hs]
        simp only [ReadOutcome.replied, ha]
        exact .quiet hp (by simp)
      · rw [hw] at hww; cases hww
    | started hp ht hf hacc hne hw ha hseq =>
      obtain ⟨-, h⟩ | ⟨hww, -⟩ := h
      · rw [h, heard_view_self hs]
        simp only [ReadOutcome.replied, ha]
        exact .started hp ht hf hacc hne (by simp) hseq
      · rw [hw] at hww; cases hww
    | rejected hp ht hadm =>
      obtain ⟨hww, -⟩ | ⟨-, tx, hsuf, h⟩ := h
      · cases hww
      · rcases readable_view_answered hs rfl h with ⟨hne, h⟩ | ⟨-, h⟩ | ⟨hc, -⟩
        · rw [h]; exact .rejected hp ht hadm hne hsuf
        · rw [h]; exact .closed
        · cases hc
    | @admin t js hp ht hf hadm =>
      obtain ⟨hww, -⟩ | ⟨-, tx, hsuf, h⟩ := h
      · cases hww
      · rcases readable_view_answered hs rfl h with ⟨hne, h⟩ | ⟨-, h⟩ | ⟨hc, -⟩
        · rw [h]
          have hmove : Move pf cfg d d.mgr.nextSeqId fd (.readable fd reads now nowNs)
              ⟨some s, d.poller.read fd, d.poller.write fd⟩
              ⟨some { t.openWindow.replyMetrics json with tx := tx }, false, true⟩ := .metrics hp ht hf hadm hne hsuf
          exact hmove
        · rw [h]; exact .closed
        · cases hc
    | empty hp ht hf hacc _ hw ha =>
      obtain ⟨hww, -⟩ | ⟨-, tx, hsuf, h⟩ := h
      · rw [hw] at hww; cases hww
      · simp only [ReadOutcome.replied, ha, Bool.false_eq_true, if_false] at h hsuf
        rcases readable_view_answered hs rfl h with ⟨hne, h⟩ | ⟨-, h⟩ | ⟨hc, h⟩
        · rw [h]; exact .empty hp ht hf hacc (by simp) hne hsuf
        · rw [h]; exact .closed
        · rw [h]; exact .emptied hp ht hf hacc hc

theorem writable_none (h : d.find fd = none) : d.writable fd writes nowNs = d := by
  simp [Daemon.writable, h]

/-- The writable branch: a failed write, something left, or everything
written. -/
theorem writable_some (writes : List WriteRes) (nowNs : Nat) (hs : d.find fd = some s) :
    ∃ tx act, tx <:+ s.tx ∧
      let t := { s with tx := tx, lastActivityNs := act }
      (d.writable fd writes nowNs = (d.put fd t).close fd ∨
        tx ≠ [] ∧ d.writable fd writes nowNs = d.put fd t ∨
        tx = [] ∧ d.writable fd writes nowNs = ((d.put fd t).unwatchWrite fd).finishWrite fd t) := by
  obtain ⟨tx, act, hsuf, hfl⟩ := flush_eq s nowNs writes
  refine ⟨tx, act, hsuf, ?_⟩
  simp only [Daemon.writable, hs, hfl]
  cases (s.flush nowNs writes).2 with
  | true => exact .inl rfl
  | false =>
    cases tx with
    | nil => exact .inr (.inr ⟨rfl, rfl⟩)
    | cons b bs => exact .inr (.inl ⟨by simp, rfl⟩)

theorem writable_view_ne {k : Int} (hk : k ≠ fd) : (d.writable fd writes nowNs).view k = d.view k := by
  cases hs : d.find fd with
  | none => rw [writable_none hs]
  | some s =>
    obtain ⟨tx, act, -, h | ⟨-, h⟩ | ⟨-, h⟩⟩ := writable_some writes nowNs hs
    · rw [h, Daemon.view_close_ne hk, Daemon.view_put_ne hk]
    · rw [h, Daemon.view_put_ne hk]
    · rw [h, finishWrite_view_ne hk, Daemon.unwatchWrite_view, Daemon.view_put_ne hk]
      simp [hk]

/-- **A writable event**, on its own descriptor. -/
theorem writable_move :
    Move pf cfg d next fd (.writable fd writes nowNs) (d.view fd) ((d.writable fd writes nowNs).view fd) := by
  cases hs : d.find fd with
  | none => rw [writable_none hs]; exact .same
  | some s =>
    have hview : d.view fd = ⟨some s, d.poller.read fd, d.poller.write fd⟩ := by rw [Daemon.view, hs]
    obtain ⟨tx, act, hsuf, h | ⟨hne, h⟩ | ⟨rfl, h⟩⟩ := writable_some writes nowNs hs
    · rw [h, Daemon.view_close_self]; exact .closed
    · rw [h, hview, Daemon.view_put_self hs]; exact .sent hne hsuf
    · have hf : ((d.put fd { s with tx := [], lastActivityNs := act }).unwatchWrite fd).find fd =
          some { s with tx := [], lastActivityNs := act } := Daemon.find_put_self hs
      have hw : ((d.put fd { s with tx := [], lastActivityNs := act }).unwatchWrite fd).view fd =
          ⟨some { s with tx := [], lastActivityNs := act }, d.poller.read fd, false⟩ := by
        rw [Daemon.unwatchWrite_view, Daemon.view_put_self hs]
        simp
      rw [h, hview]
      unfold Daemon.finishWrite
      split
      · rw [Daemon.view_close_self]; exact .closed
      next herr =>
        split
        next hst =>
          split
          · rw [Daemon.view_close_self]; exact .closed
          next hc =>
            rw [Daemon.view_put_self hf]
            have hr := congrArg View.read hw
            have hw' := congrArg View.write hw
            simp only [Daemon.view] at hr hw'
            rw [hr, hw']
            exact .finished hst (by simpa using hc)
        next hst => rw [hw]; exact .drained herr hst

theorem accept_view_ne {cfd k : Int} {order : List Int} (hk : k ≠ cfd) :
    (d.accept cfg cfd order nowNs).view k = d.view k := by
  unfold Daemon.accept
  split
  · rfl
  · simp [Daemon.view, Daemon.find, SessionManager.addClient, AList.lookup_arrange, AList.lookup_insert_ne hk, hk]

theorem accept_move {cfd k : Int} {order : List Int} (hfree : d.find cfd = none) :
    Move pf cfg d next k (.accept cfd order nowNs) (d.view k) ((d.accept cfg cfd order nowNs).view k) := by
  by_cases hk : k = cfd
  · subst hk
    unfold Daemon.accept
    split
    · exact .same
    · have hview : d.view k = ⟨none, d.poller.read k, d.poller.write k⟩ := by rw [Daemon.view, hfree]
      rw [hview]
      simp only [Daemon.view, Daemon.find, SessionManager.addClient, AList.lookup_arrange, AList.lookup_insert,
        Poller.addRead_read, Poller.addRead_write, if_true]
      exact .accepted
  · rw [accept_view_ne hk]
    exact .same

theorem foldl_close_view (l : List Int) (d : Daemon) (k : Int) :
    (l.foldl Daemon.close d).view k = d.view k ∨ (l.foldl Daemon.close d).view k = ⟨none, false, false⟩ := by
  induction l generalizing d with
  | nil => exact .inl rfl
  | cons fd l ih =>
    rw [List.foldl_cons]
    by_cases hk : k = fd
    · subst hk
      rcases ih (d.close k) with h | h
      · exact .inr (h.trans Daemon.view_close_self)
      · exact .inr h
    · rcases ih (d.close fd) with h | h
      · exact .inl (h.trans (Daemon.view_close_ne hk))
      · exact .inr h

theorem idle_move {k : Int} : Move pf cfg d next k (.idle nowNs) (d.view k) ((d.idle cfg nowNs).view k) := by
  rcases foldl_close_view (readyFds (Daemon.idleFor cfg nowNs) d.mgr.sessions) d k with h | h
  · rw [Daemon.idle, h]; exact .same
  · rw [Daemon.idle, h]; exact .closed

/-- The tick of the scheduler, on the state of the loop. -/
abbrev Daemon.ticked (d : Daemon) (pf : Platform) (cfg : RuntimeConfig) (nowNs : Nat) (out : Decoded) : Ticked :=
  d.sched.tick pf cfg d.mgr.sessions d.memory nowNs out

theorem tick_lookup_none (hk : Keyed d.mgr.sessions) {k : Int} {out : Decoded} (h : d.find k = none) :
    (d.ticked pf cfg nowNs out).sessions.lookup k = none := by
  cases hl : (d.ticked pf cfg nowNs out).sessions.lookup k with
  | none => rfl
  | some s' =>
    obtain ⟨s, hs, -⟩ := tick_cases hk hl
    rw [show d.mgr.sessions.lookup k = none from h] at hs
    cases hs

/-- The arming changes the write filters only. -/
theorem Daemon.tick_eq (pf : Platform) (cfg : RuntimeConfig) (d : Daemon) (nowNs : Nat) (out : Decoded) :
    ∃ p : Poller, d.tick pf cfg nowNs out =
      { d with
        mgr := { d.mgr with sessions := (d.ticked pf cfg nowNs out).sessions }
        sched := (d.ticked pf cfg nowNs out).sched
        memory := (d.ticked pf cfg nowNs out).memory
        poller := p } := by
  obtain ⟨p, heq, -, -⟩ := Daemon.foldl_arm (d.ticked pf cfg nowNs out).resultFds
    { d with
      mgr := { d.mgr with sessions := (d.ticked pf cfg nowNs out).sessions }
      sched := (d.ticked pf cfg nowNs out).sched
      memory := (d.ticked pf cfg nowNs out).memory }
  exact ⟨p, heq⟩

section Ticked

variable {out : Decoded}

@[simp] theorem Daemon.tick_sessions :
    (d.tick pf cfg nowNs out).mgr.sessions = (d.ticked pf cfg nowNs out).sessions := by
  obtain ⟨p, h⟩ := Daemon.tick_eq pf cfg d nowNs out
  rw [h]

@[simp] theorem Daemon.tick_find {k : Int} :
    (d.tick pf cfg nowNs out).find k = (d.ticked pf cfg nowNs out).sessions.lookup k := by
  rw [Daemon.find, Daemon.tick_sessions]

@[simp] theorem Daemon.tick_sched : (d.tick pf cfg nowNs out).sched = (d.ticked pf cfg nowNs out).sched := by
  obtain ⟨p, h⟩ := Daemon.tick_eq pf cfg d nowNs out
  rw [h]

@[simp] theorem Daemon.tick_memory : (d.tick pf cfg nowNs out).memory = (d.ticked pf cfg nowNs out).memory := by
  obtain ⟨p, h⟩ := Daemon.tick_eq pf cfg d nowNs out
  rw [h]

@[simp] theorem Daemon.tick_nextSeqId : (d.tick pf cfg nowNs out).mgr.nextSeqId = d.mgr.nextSeqId := by
  obtain ⟨p, h⟩ := Daemon.tick_eq pf cfg d nowNs out
  rw [h]

@[simp] theorem Daemon.tick_closedSeqs : (d.tick pf cfg nowNs out).closedSeqs = d.closedSeqs := by
  obtain ⟨p, h⟩ := Daemon.tick_eq pf cfg d nowNs out
  rw [h]

end Ticked

/-- What the arming leaves of a tick. -/
theorem tick_arm (pf : Platform) (cfg : RuntimeConfig) (d : Daemon) (nowNs : Nat) (out : Decoded)
    (hk : Keyed d.mgr.sessions) :
    ∃ p : Poller, d.Armed p ∧
      (∀ fd ∈ (d.ticked pf cfg nowNs out).resultFds, ∀ s, (d.ticked pf cfg nowNs out).sessions.lookup fd = some s →
        s.tx ≠ [] → p.write fd = true) ∧
      d.tick pf cfg nowNs out =
        { d with
          mgr := { d.mgr with sessions := (d.ticked pf cfg nowNs out).sessions }
          sched := (d.ticked pf cfg nowNs out).sched
          memory := (d.ticked pf cfg nowNs out).memory
          poller := p } := by
  obtain ⟨p, heq, ha, hs⟩ := Daemon.foldl_arm (d.ticked pf cfg nowNs out).resultFds
    { d with
      mgr := { d.mgr with sessions := (d.ticked pf cfg nowNs out).sessions }
      sched := (d.ticked pf cfg nowNs out).sched
      memory := (d.ticked pf cfg nowNs out).memory }
  exact ⟨p, ⟨ha.read, ha.mono, fun k h => ha.closed k (tick_lookup_none hk h)⟩, hs, heq⟩

/-- A served session that had nothing to write and has something now was
sampled. -/
theorem served_row {out : Decoded} {it : BatchItem} {i : Nat} {s' : ClientSession} (hrc : out.rc = 0)
    (h : Served pf cfg nowNs out s it i s') (h₀ : s.tx = []) (h₁ : s'.tx ≠ []) : ∃ row, out.rows i = some row := by
  cases h with
  | failed hne => exact absurd hrc hne
  | noRow => rw [enacted_tx, h₀] at h₁; exact absurd rfl h₁
  | first _ hr | ended _ hr | more _ hr => exact ⟨_, hr⟩

/-- **A tick**, on every descriptor. -/
theorem tick_move (hk : Keyed d.mgr.sessions) {out : Decoded} (k : Int) :
    Move pf cfg d next k (.tick nowNs out) (d.view k) ((d.tick pf cfg nowNs out).view k) := by
  obtain ⟨p, ha, harm, heq⟩ := tick_arm pf cfg d nowNs out hk
  have hview : (d.tick pf cfg nowNs out).view k =
      ⟨(d.ticked pf cfg nowNs out).sessions.lookup k, d.poller.read k, p.write k⟩ := by
    rw [heq, ← ha.read]; rfl
  rw [hview]
  cases hs : d.find k with
  | none =>
    rw [tick_lookup_none hk hs, ha.closed k hs, Daemon.view, hs]
    exact .same
  | some s =>
    rw [Daemon.view, hs]
    obtain ⟨s', hs'⟩ := tick_lookup_isSome pf cfg d.memory nowNs out hk hs
    rw [hs']
    obtain ⟨s₀, hs₀, h⟩ := tick_cases hk hs'
    obtain rfl : s = s₀ := Option.some.inj (hs.symm.trans hs₀)
    rcases h with ⟨rfl, hno⟩ | ⟨before, it, hserves, hserved⟩
    · exact .idled hno (ha.mono k)
    · refine .served hserves hserved (ha.mono k) fun hrc h₀ h₁ => ?_
      obtain ⟨row, hrow⟩ := served_row hrc hserved h₀ h₁
      exact harm k (tick_resultFds hk hserves hrc hrow h₀) s' hs' h₁

end Branches

/-- **One step, on every descriptor.** -/
theorem step_move {pf : Platform} {cfg : RuntimeConfig} {d : Daemon} {a : Action} (hk : Keyed d.mgr.sessions)
    (he : d.Enabled pf cfg a) (k : Int) :
    Move pf cfg d (d.step pf cfg a).mgr.nextSeqId k a (d.view k) ((d.step pf cfg a).view k) := by
  cases a with
  | accept cfd order nowNs => exact accept_move he.2
  | readable fd reads now nowNs =>
    by_cases hne : k = fd
    · subst hne; exact readable_move
    · simp only [Daemon.step, readable_view_ne hne]; exact .same
  | writable fd writes nowNs =>
    by_cases hne : k = fd
    · subst hne; exact writable_move
    · simp only [Daemon.step, writable_view_ne hne]; exact .same
  | idle nowNs => exact idle_move
  | tick nowNs out => exact tick_move hk k

end UmaServe

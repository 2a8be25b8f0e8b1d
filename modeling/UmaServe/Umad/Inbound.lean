/-
The receive side. `on_readable` drains the socket, looks for one frame, and
returns early when a read fails; its callers do not look at a failed read. So
a client that is gone may keep its slot (`idle_released`).
-/
import UmaServe.Umad.History

namespace UmaServe

/-! ## What arrives -/

/-- The bytes the drain loop appends to `rx`. -/
def arrived : List ReadRes → Bytes
  | .data b bs :: rest => b :: bs ++ arrived rest
  | _ => []

/-- How the drain loop ends. -/
def readEnd : List ReadRes → ReadEnd
  | .data _ _ :: rest => readEnd rest
  | .eof :: _ => .eof
  | .error :: _ => .error
  | .wouldBlock :: _ | [] => .wouldBlock

/-- The bytes begin with a complete valid frame. -/
def holdsFrame (rx : Bytes) : Bool := (tryReadFrame rx [] defaultMaxFrameBytes).ok

/-- What one look for a frame leaves of the bytes. -/
def afterFrame (rx : Bytes) : Bytes := (tryReadFrame rx [] defaultMaxFrameBytes).rx

section Transport

variable {pf : Platform} {cfg : RuntimeConfig} {d : Daemon} {fd next : Int} {vocab : Vocab} {nowNs : Nat}
  {reads : List ReadRes} {s s' : ClientSession}

theorem drain_rx : (s.drain nowNs reads).1.rx = s.rx ++ arrived reads := by
  induction reads generalizing s with
  | nil => simp [ClientSession.drain, arrived]
  | cons r reads ih =>
    cases r with
    | data b bs => simp [ClientSession.drain, arrived, ih]
    | eof | wouldBlock | error => simp [ClientSession.drain, arrived]

theorem drain_end : (s.drain nowNs reads).2 = readEnd reads := by
  induction reads generalizing s with
  | nil => rfl
  | cons r reads ih =>
    cases r with
    | data b bs => exact ih
    | eof | wouldBlock | error => rfl

theorem drain_readClosed : (s.drain nowNs reads).1.readClosed = s.readClosed := by
  obtain ⟨rx, act, h⟩ := s.drain_eq nowNs reads
  rw [h]

theorem received_rx : (s.received nowNs reads).rx = s.rx ++ arrived reads := by
  unfold ClientSession.received
  dsimp only
  split
  · exact drain_rx
  · exact drain_rx

theorem received_readClosed :
    (s.received nowNs reads).readClosed = (decide (readEnd reads = .eof) || s.readClosed) := by
  unfold ClientSession.received
  dsimp only
  rw [drain_end]
  split
  next h => simp [h]
  next h => simp [h, drain_readClosed]

theorem parses_eq : s.parses nowNs reads = (decide (readEnd reads ≠ .error) &&
    ((tryReadFrame (s.rx ++ arrived reads) [] defaultMaxFrameBytes).ok ||
      (tryReadFrame (s.rx ++ arrived reads) [] defaultMaxFrameBytes).errMsg.isSome)) := by
  unfold ClientSession.parses ClientSession.attempt
  rw [drain_end, received_rx]
  split
  next h => simp [h]
  next h => simp [h]

theorem tryReadFrame_rx {rx : Bytes} (h : (tryReadFrame rx [] defaultMaxFrameBytes).ok = false) :
    (tryReadFrame rx [] defaultMaxFrameBytes).rx = rx := by
  unfold tryReadFrame at h ⊢
  split
  next =>
    dsimp only at h ⊢
    split
    · rfl
    next h0 =>
      rw [if_neg h0] at h
      split
      · rfl
      next h1 =>
        rw [if_neg h1] at h
        split
        · rfl
        next h2 => rw [if_neg h2] at h; cases h
  next => rfl

theorem Served.transport {out : Decoded} {it : BatchItem} {i : Nat} (h : Served pf cfg nowNs out s it i s') :
    s'.rx = s.rx ∧ (s.readClosed = true → s'.readClosed = true) ∧ (s'.state = .recvReq → s.state = .recvReq) := by
  cases h with
  | failed => exact ⟨enacted_rx, fun _ => rfl, fun hst => (by cases hst)⟩
  | noRow => exact ⟨enacted_rx, fun hrc => by rw [enacted_readClosed, hrc], fun hst => by rwa [enacted_state] at hst⟩
  | first =>
    rw [prefillSampled_eq]
    exact ⟨enacted_rx, fun hrc => enacted_readClosed.trans hrc, fun hst => (by cases hst)⟩
  | ended => exact ⟨enacted_rx, fun hrc => enacted_readClosed.trans hrc, fun hst => (by cases hst)⟩
  | more =>
    rw [decodeSampled_eq]
    exact ⟨enacted_rx, fun hrc => enacted_readClosed.trans hrc, fun hst => (by cases hst)⟩

/-- A frame moves no bytes and reopens nothing. -/
theorem onFrame_transport (cfg : RuntimeConfig) (vocab : Vocab) (nowNs : Nat) (next : Int) (t : ClientSession)
    (rr : ReadResult) (js : Bytes) :
    (t.onFrame cfg vocab nowNs next rr js).session.rx = t.rx ∧
      (t.readClosed = true → (t.onFrame cfg vocab nowNs next rr js).session.readClosed = true) := by
  have hframed := onFrame_framed cfg vocab nowNs next rr js t
  generalize t.onFrame cfg vocab nowNs next rr js = o at hframed ⊢
  cases hframed with
  | admin | unnamed | tooLarge => exact ⟨rfl, fun _ => rfl⟩
  | empty | started => exact ⟨rfl, id⟩

theorem frame?_some {js : Bytes} (h : s.frame? nowNs reads = some js) :
    readEnd reads ≠ .error ∧ holdsFrame (s.rx ++ arrived reads) = true ∧
      (tryReadFrame (s.rx ++ arrived reads) [] defaultMaxFrameBytes).outJson = js := by
  unfold ClientSession.frame? ClientSession.attempt at h
  rw [drain_end, received_rx] at h
  split at h
  · cases h
  next hne =>
    rw [Option.bind_some] at h
    split at h
    next hok => exact ⟨hne, hok, Option.some.inj h⟩
    next => cases h

theorem afterFrame_none (h : s.frame? nowNs reads = none) (hne : readEnd reads ≠ .error) :
    afterFrame (s.rx ++ arrived reads) = s.rx ++ arrived reads := by
  unfold ClientSession.frame? ClientSession.attempt at h
  rw [drain_end, received_rx, if_neg hne, Option.bind_some] at h
  refine tryReadFrame_rx ?_
  by_contra hok
  rw [if_pos (by simpa using hok)] at h
  cases h

/-- `on_readable` looks for one frame, unless a read failed. -/
theorem read_transport (cfg : RuntimeConfig) (vocab : Vocab) (nowNs : Nat) (next : Int) (reads : List ReadRes)
    (s : ClientSession) :
    (s.read cfg vocab nowNs next reads).session.rx =
        (if readEnd reads = .error then s.rx ++ arrived reads else afterFrame (s.rx ++ arrived reads)) ∧
      ((s.received nowNs reads).readClosed = true →
        (s.read cfg vocab nowNs next reads).session.readClosed = true) := by
  have hsame : s.frame? nowNs reads = none → s.rx ++ arrived reads =
      if readEnd reads = .error then s.rx ++ arrived reads else afterFrame (s.rx ++ arrived reads) := by
    intro hnone
    split
    next => rfl
    next hne => exact (afterFrame_none hnone hne).symm
  have hheard : Heard cfg vocab nowNs next reads s (s.read cfg vocab nowNs next reads) := read_heard
  generalize s.read cfg vocab nowNs next reads = o at hheard ⊢
  cases hheard with
  | quiet hnone => exact ⟨received_rx.trans (hsame hnone), id⟩
  | invalid hnone => exact ⟨received_rx.trans (hsame hnone), fun _ => rfl⟩
  | frame hf =>
    rw [if_neg (frame?_some hf).1, afterFrame, ← received_rx]
    exact onFrame_transport cfg vocab nowNs next
      { s.received nowNs reads with rx := (tryReadFrame (s.received nowNs reads).rx [] defaultMaxFrameBytes).rx } _ _

/-- What a readable event leaves in `rx`, and that a read side once closed
stays closed. -/
theorem readable_transport {now : WriteRes} (hs : d.find fd = some s)
    (hs' : (d.readable pf cfg fd reads now nowNs).find fd = some s') :
    s'.rx = (if readEnd reads = .error then s.rx ++ arrived reads else afterFrame (s.rx ++ arrived reads)) ∧
      ((s.received nowNs reads).readClosed = true → s'.readClosed = true) := by
  obtain ⟨hrx, hrc⟩ := read_transport cfg pf.vocab nowNs d.mgr.nextSeqId reads s
  constructor
  · exact readable_holds (P := fun t => t.rx = _) (fun _ _ h => h) (fun _ _ h => h) (fun _ h => h) hs hrx hs'
  · intro hclosed
    exact readable_holds (P := fun t => t.readClosed = true) (fun _ _ _ => rfl) (fun _ _ h => h) (fun _ h => h) hs
      (hrc hclosed) hs'

end Transport

/-- A client sends one request, gets its whole response, and is back to wait
for the next. -/
def answered (reads : List ReadRes) : List Action :=
  [.accept 7 [7] 1, .idle 1, .tick 1 (choosing 1),
    .readable 7 reads .wouldBlock 2, .idle 2, .tick 2 (choosing 1),
    .writable 7 [.wrote 1000] 3, .idle 3, .tick 3 (choosing 2),
    .writable 7 [.wrote 1000] 4, .idle 4, .tick 4 (choosing 1)]

/-! ## Clients that are gone -/

/-- The read side of a descriptor has reported end of file or an error since
it was accepted. -/
def gone : Ledger Bool where
  fresh := false
  read := fun _ _ reads g => g || decide (readEnd reads ≠ .wouldBlock)

/-- No end of file without a frame on a session that waits for one, and no
failed read on a session whose read side is not closed. -/
def Farewell (d : Daemon) : Action → Prop
  | .readable fd reads _ nowNs => ∀ s ∈ d.find fd,
      (readEnd reads = .eof → s.state = .recvReq → s.parses nowNs reads = true) ∧
      (readEnd reads = .error → s.readClosed = true)
  | _ => True

/-- What a session whose client is gone will not do again: wait for bytes. -/
structure Leaving (gone : Bool) (s : ClientSession) : Prop where
  closed : gone = true → s.readClosed = true
  waits : s.readClosed = true → s.state ≠ .recvReq

section Gone

variable {pf : Platform} {cfg : RuntimeConfig} {d : Daemon} {fd next : Int} {s s' : ClientSession} {a : Action}
  {g : Int → Bool} {p : Daemon × (Int → Bool)}

instance : ∀ a, Decidable (Farewell d a)
  | .readable _ _ _ _ => inferInstanceAs (Decidable (∀ s ∈ _, (_ → _ → _) ∧ (_ → _)))
  | .accept _ _ _ | .writable _ _ _ | .idle _ | .tick _ _ => inferInstanceAs (Decidable True)

theorem Move.readClosed {r w r' w' : Bool} (h : Move pf cfg d next fd a ⟨some s, r, w⟩ ⟨some s', r', w'⟩)
    (hrc : s.readClosed = true) : s'.readClosed = true := by
  cases h with
  | same | idled | sent | drained | finished => exact hrc
  | @quiet reads _ nowNs =>
    obtain ⟨rx, act, rc, hmono, heq⟩ := s.received_eq nowNs reads
    rw [heq]
    exact hmono hrc
  | rejected | metrics => rfl
  | empty _ ht | emptied _ ht | started _ ht =>
    obtain ⟨rx, act, rc, id, temp, p, k, hmono, rfl⟩ := ht
    exact hmono hrc
  | served _ hserved => exact hserved.transport.2.1 hrc

/-- A client that is gone has its read side closed. -/
theorem Leaving.departed {r w r' w' : Bool} (h : Leaving (g fd) s) (he : d.Enabled pf cfg a) (hc : Farewell d a)
    (hs : d.find fd = some s)
    (hs' : (d.step pf cfg a).find fd = some s') (hmove : Move pf cfg d next fd a ⟨some s, r, w⟩ ⟨some s', r', w'⟩)
    (hg : gone.note g d a fd = true) : s'.readClosed = true := by
  by_cases hread : ∃ reads now nowNs, a = .readable fd reads now nowNs
  · obtain ⟨reads, now, nowNs, rfl⟩ := hread
    rw [Ledger.note_readable hs, gone, Bool.or_eq_true, decide_eq_true_eq] at hg
    refine (readable_transport hs hs').2 ?_
    rw [received_readClosed, Bool.or_eq_true, decide_eq_true_eq]
    cases hend : readEnd reads with
    | eof => exact .inl rfl
    | error => exact .inr ((hc s hs).2 hend)
    | wouldBlock => exact .inr (h.closed (hg.resolve_right fun hne => hne hend))
  · push Not at hread
    refine hmove.readClosed (h.closed ?_)
    by_cases htick : ∃ nowNs out, a = .tick nowNs out
    · obtain ⟨nowNs, out, rfl⟩ := htick
      exact hg
    · push Not at htick
      rwa [Ledger.note_other hs he hread htick] at hg

theorem Leaving.move {r w r' w' : Bool} (h : Leaving (g fd) s) (hk : Keyed d.mgr.sessions) (he : d.Enabled pf cfg a)
    (hc : Farewell d a) (hs : d.find fd = some s)
    (hs' : (d.step pf cfg a).find fd = some s') (hmove : Move pf cfg d next fd a ⟨some s, r, w⟩ ⟨some s', r', w'⟩) :
    Leaving (gone.note g d a fd) s' := by
  refine ⟨h.departed he hc hs hs' hmove, fun hrc hst => ?_⟩
  cases hmove with
  | same | sent | drained | idled => exact h.waits hrc hst
  | @quiet reads now nowNs _ _ _ _ hp =>
    rw [(received_ids nowNs reads).2.2] at hst
    rw [received_readClosed, Bool.or_eq_true, decide_eq_true_eq] at hrc
    rcases hrc with hend | hrc
    · rw [(hc s hs).1 hend hst] at hp
      cases hp
    · exact h.waits hrc hst
  | rejected | metrics | empty | started => cases hst
  | emptied _ _ _ _ hopen => cases hopen.symm.trans hrc
  | finished _ hopen => cases hopen.symm.trans hrc
  | served hserves hserved =>
    have hbusy := hserves.busy hk
    rw [hserved.transport.2.2 hst] at hbusy
    cases hbusy

/-- **A client that is gone releases its slot**, in every run that meets
`Farewell`: its session does not wait for bytes that cannot come. -/
theorem idle_released (h : (gone.daemon pf cfg).Reach (fun p => Farewell p.1) p) (hs : p.1.find fd = some s)
    (hg : p.2 fd = true) : ¬ (s.state = .recvReq ∧ s.tx = []) := by
  have hl : Leaving (p.2 fd) s := by
    refine Ledger.invariant (I := Leaving) (fun fd nowNs => ?_) ?_ h hs
    · exact ⟨fun hg => (by cases hg), fun hrc => (by cases hrc)⟩
    · intro d g a fd next s s' r w r' w' hr he hc hs hs' hmove hi
      exact hi.move (Ledger.owned hr).keyed he hc hs hs' hmove
  intro hidle
  exact hl.waits (hl.closed hg) hidle.1

/-- The run of one response, and then an end of file together with a bad
header: the session has an error reply to write, and goes with it. -/
theorem idle_released_bad :
    ∃ p, (gone.daemon small {}).Reach (fun p => Farewell p.1) p ∧ ∃ s, p.1.find 7 = some s ∧ p.2 7 = true ∧
      s.state = .stream ∧ ¬ (s.state = .recvReq ∧ s.tx = []) := by
  have hr : (gone.daemon small {}).Reach (fun p => Farewell p.1)
      ((gone.daemon small {}).after (gone.daemon small {}).init
      (answered (request "a") ++ [.readable 7 [.data 0 [0, 0, 0], .eof] .wouldBlock 5])) :=
    Lib.System.Reach.init.run (by decide +kernel)
  have hst : (((gone.daemon small {}).after (gone.daemon small {}).init
      (answered (request "a") ++ [.readable 7 [.data 0 [0, 0, 0], .eof] .wouldBlock 5])).1.find 7).map
      (fun s => s.state) = some .stream := by decide +kernel
  obtain ⟨s, hs, hst⟩ := Option.map_eq_some_iff.mp hst
  have hg : ((gone.daemon small {}).after (gone.daemon small {}).init
      (answered (request "a") ++ [.readable 7 [.data 0 [0, 0, 0], .eof] .wouldBlock 5])).2 7 = true := by decide +kernel
  exact ⟨_, hr, s, hs, hg, hst, idle_released hr hs hg⟩

/-- A client connects and hangs up: its session stays, and waits. -/
theorem idle_released_hangup :
    ∃ p, (gone.daemon small {}).Reach Lib.Always p ∧ ∃ s, p.1.find 7 = some s ∧ p.2 7 = true ∧ s.state = .recvReq ∧
      s.tx = [] ∧ p.1.poller.read 7 = false ∧ p.1.poller.write 7 = false := by
  refine ⟨(gone.daemon small {}).after (gone.daemon small {}).init
    [.accept 7 [7] 1, .idle 1, .tick 1 (choosing 1), .readable 7 [.eof] .wouldBlock 2],
    Lib.System.Reach.init.run (by decide +kernel), ?_⟩
  have hst : (((gone.daemon small {}).after (gone.daemon small {}).init
      [.accept 7 [7] 1, .idle 1, .tick 1 (choosing 1), .readable 7 [.eof] .wouldBlock 2]).1.find 7).map
      (fun s => (s.state, s.tx)) = some (.recvReq, []) := by decide +kernel
  obtain ⟨s, hs, hst⟩ := Option.map_eq_some_iff.mp hst
  rw [Prod.mk.injEq] at hst
  exact ⟨s, hs, by decide +kernel, hst.1, hst.2, by decide +kernel, by decide +kernel⟩

end Gone
end UmaServe

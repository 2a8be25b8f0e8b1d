/-
What the daemon puts on the wire. A step appends events to the `tx` of a
session and hands bytes from its front to the socket (`Daemon.writes`).
Nothing is lost or repeated on the way: what was written and what is left are
the frames of the events, also when the step closes the session; and then
something is left only when it was idle or a write failed (`step_wire`).
-/
import UmaServe.Umad.Responses

namespace UmaServe

/-- The bytes the immediate write sends of `tx`. -/
def writtenNow (tx : Bytes) : WriteRes → Bytes
  | .wrote n => tx.take n
  | .wouldBlock | .error => []

/-- The bytes the write loop sends of `tx`. -/
def flushed (tx : Bytes) : List WriteRes → Bytes
  | [] => []
  | r :: rest =>
    if tx.isEmpty then []
    else
      match r with
      | .wrote n => tx.take n ++ flushed (tx.drop n) rest
      | .wouldBlock | .error => []

namespace Daemon

/-- The session in the readable branch before anything is written: after
`on_readable`, with the reply to a metrics request. -/
def answering (d : Daemon) (pf : Platform) (cfg : RuntimeConfig) (fd : Int) (s : ClientSession) (nowNs : Nat)
    (reads : List ReadRes) : ClientSession :=
  let o := s.read cfg pf.vocab nowNs d.mgr.nextSeqId reads
  o.replied (pf.metricsJson d.sched.metrics (d.mgr.sessions.replace fd o.session).entries.length)

/-- The bytes a step hands to the socket of `fd`. -/
def writes (d : Daemon) (pf : Platform) (cfg : RuntimeConfig) (fd : Int) (a : Action) : Bytes :=
  match d.find fd, a with
  | some s, .readable k reads now nowNs =>
    if k = fd && (s.read cfg pf.vocab nowNs d.mgr.nextSeqId reads).rr.wantsWrite then
      writtenNow (d.answering pf cfg fd s nowNs reads).tx now
    else []
  | some s, .writable k ws _ => if k = fd then flushed s.tx ws else []
  | _, _ => []

/-- The history of the session on `fd` when a step is done with it, whether
or not the session is still there. -/
def history (d : Daemon) (pf : Platform) (cfg : RuntimeConfig) (fd : Int) (a : Action) : History :=
  match d.find fd, a with
  | none, _ => {}
  | some s, .readable k reads _ nowNs => if k = fd then (d.answering pf cfg fd s nowNs reads).hist else s.hist
  | some s, .tick nowNs out => (((d.tick pf cfg nowNs out).find fd).getD s).hist
  | some s, .accept _ _ _ | some s, .writable _ _ _ | some s, .idle _ => s.hist

end Daemon

/-! ## One write -/

section Writes

variable {pf : Platform} {cfg : RuntimeConfig} {d : Daemon} {fd : Int} {s t : ClientSession} {a : Action}
  {reads : List ReadRes} {now : WriteRes} {nowNs : Nat} {ws : List WriteRes}

theorem writeNow_written (s : ClientSession) (now : WriteRes) :
    ∃ tx, writtenNow s.tx now ++ tx = s.tx ∧ (if s.tx.isEmpty then s else s.writeNow now) = { s with tx := tx } := by
  cases now with
  | wrote n =>
    refine ⟨s.tx.drop n, List.take_append_drop n s.tx, ?_⟩
    split
    next h => rw [List.isEmpty_iff.mp h, List.drop_nil, ← List.isEmpty_iff.mp h]
    next => rfl
  | wouldBlock | error => exact ⟨s.tx, rfl, ite_self s⟩

theorem flush_flushed (s : ClientSession) (nowNs : Nat) (ws : List WriteRes) :
    ∃ tx act, flushed s.tx ws ++ tx = s.tx ∧ (s.flush nowNs ws).1 = { s with tx := tx, lastActivityNs := act } ∧
      ((s.flush nowNs ws).2 = true → WriteRes.error ∈ ws) := by
  induction ws generalizing s with
  | nil => exact ⟨s.tx, s.lastActivityNs, rfl, rfl, fun h => (by cases h)⟩
  | cons r ws ih =>
    unfold flushed ClientSession.flush
    split
    · exact ⟨s.tx, s.lastActivityNs, rfl, rfl, fun h => (by cases h)⟩
    · cases r with
      | wrote n =>
        obtain ⟨tx, act, htx, hs, herr⟩ := ih { s with tx := s.tx.drop n, lastActivityNs := nowNs }
        refine ⟨tx, act, ?_, hs, fun h => List.mem_cons_of_mem _ (herr h)⟩
        have htx' : flushed (s.tx.drop n) ws ++ tx = s.tx.drop n := htx
        rw [List.append_assoc, htx', List.take_append_drop]
      | wouldBlock => exact ⟨s.tx, s.lastActivityNs, rfl, rfl, fun h => (by cases h)⟩
      | error => exact ⟨s.tx, s.lastActivityNs, rfl, rfl, fun _ => List.mem_cons_self⟩

theorem readable_eq (pf : Platform) (cfg : RuntimeConfig) (reads : List ReadRes) (now : WriteRes) (nowNs : Nat)
    (hs : d.find fd = some s) :
    let o := s.read cfg pf.vocab nowNs d.mgr.nextSeqId reads
    let t := d.answering pf cfg fd s nowNs reads
    let t' := if t.tx.isEmpty then t else t.writeNow now
    d.readable pf cfg fd reads now nowNs =
      if o.rr.wantsWrite then
        if t'.tx.isEmpty then ((d.heard fd o t).put fd t').finishRead fd t'
        else ((d.heard fd o t).put fd t').watchWrite fd
      else d.heard fd o t := by
  have hl : d.mgr.sessions.lookup fd = some s := hs
  have hl' : (d.mgr.sessions.replace fd (s.read cfg pf.vocab nowNs d.mgr.nextSeqId reads).session).lookup fd =
      some (s.read cfg pf.vocab nowNs d.mgr.nextSeqId reads).session := AList.lookup_replace_self hl
  simp only [Daemon.readable, SessionManager.onReadable, hl, Daemon.find, hl']
  rfl

/-- What `on_readable` and the metrics reply append. -/
theorem answering_appended (pf : Platform) (cfg : RuntimeConfig) (d : Daemon) (fd : Int) (s : ClientSession)
    (nowNs : Nat) (reads : List ReadRes) :
    ∃ es, (d.answering pf cfg fd s nowNs reads).hist.events = s.hist.events ++ es ∧
      (d.answering pf cfg fd s nowNs reads).tx = s.tx ++ es.flatMap Event.frame := by
  have hr : Reading cfg pf.vocab nowNs d.mgr.nextSeqId reads s _ := read_reading
  unfold Daemon.answering
  dsimp only
  generalize pf.metricsJson d.sched.metrics _ = json
  generalize s.read cfg pf.vocab nowNs d.mgr.nextSeqId reads = o at hr ⊢
  unfold ReadOutcome.replied
  have htaken : ∀ t, s.Taken t → t.tx = s.tx ∧ t.hist.events = s.hist.events := by
    rintro t ⟨rx, act, rc, id, temp, p, k, -, rfl⟩
    exact ⟨rfl, rfl⟩
  cases hr with
  | quiet _ _ hadm =>
    obtain ⟨rx, act, rc, -, heq⟩ := s.received_eq nowNs reads
    rw [hadm, if_neg (by simp), heq]
    exact ⟨[], by simp, by simp⟩
  | started _ ht _ _ _ _ hadm =>
    obtain ⟨htx, hev⟩ := htaken _ ht
    rw [hadm, if_neg (by simp)]
    exact ⟨[], hev.trans (List.append_nil _).symm, htx.trans (List.append_nil _).symm⟩
  | @rejected t id code message _ ht =>
    obtain ⟨htx, hev⟩ := htaken _ ht
    refine ⟨[.error id code message], congrArg (· ++ _) hev, ?_⟩
    rw [List.flatMap_singleton, ← append_eq, ← htx]
    rfl
  | @admin t js _ ht =>
    obtain ⟨htx, hev⟩ := htaken _ ht
    refine ⟨[.metrics json], congrArg (· ++ _) hev, ?_⟩
    rw [List.flatMap_singleton, ← append_eq, ← htx]
    rfl
  | @empty t rr js _ ht _ _ _ _ hadm =>
    obtain ⟨htx, hev⟩ := htaken _ ht
    rw [hadm, if_neg (by simp)]
    refine ⟨[.eos t.requestId (bytes "stop")], congrArg (· ++ _) hev, ?_⟩
    rw [List.flatMap_singleton, ← append_eq, ← htx]
    rfl

end Writes

/-! ## One step -/

/-- A step has written, and left in `tx` or dropped with the session, the
frames of what it appended to the history. -/
structure Wired (d d' : Daemon) (fd : Int) (s : ClientSession) (written : Bytes) (hist : History) (left : Bytes) :
    Prop where
  wrote : ∃ es, hist.events = s.hist.events ++ es ∧ written ++ left = s.tx ++ es.flatMap Event.frame
  stays : ∀ s', d'.find fd = some s' → s'.hist = hist ∧ s'.tx = left

/-- A close that may leave something unwritten: an idle session, or a failed
write. -/
def Action.cuts : Action → Prop
  | .idle _ => True
  | .writable _ ws _ => WriteRes.error ∈ ws
  | .accept _ _ _ | .readable _ _ _ _ | .tick _ _ => False

section Steps

variable {pf : Platform} {cfg : RuntimeConfig} {d : Daemon} {fd : Int} {s : ClientSession} {a : Action}

theorem Wired.same {d' : Daemon} (hstays : ∀ s', d'.find fd = some s' → s'.hist = s.hist ∧ s'.tx = s.tx) :
    Wired d d' fd s [] s.hist s.tx :=
  ⟨⟨[], by simp, by simp⟩, hstays⟩

variable {reads : List ReadRes} {now : WriteRes} {ws : List WriteRes} {nowNs : Nat} {out : Decoded}

theorem finishWrite_sent {t s' : ClientSession} (ht : d.find fd = some t)
    (hs' : (d.finishWrite fd t).find fd = some s') : s' = t ∨ t.state = .stream ∧ s' = t.reset := by
  unfold Daemon.finishWrite at hs'
  split at hs'
  · rw [Daemon.find_close_self] at hs'; cases hs'
  · split at hs'
    next hst =>
      split at hs'
      · rw [Daemon.find_close_self] at hs'; cases hs'
      · exact .inr ⟨hst, Option.some.inj (hs'.symm.trans (Daemon.find_put_self ht))⟩
    next => exact .inl (Option.some.inj (hs'.symm.trans ht))

theorem finishWrite_closed {t : ClientSession} (ht : d.find fd = some t) (h : (d.finishWrite fd t).find fd = none) :
    t.state = .errored ∨ t.state = .stream := by
  unfold Daemon.finishWrite at h
  split at h
  next herr => exact .inl herr
  next =>
    split at h
    next hst => exact .inr hst
    next => rw [ht] at h; cases h

/-- `t`, once some of its `tx` is written, and perhaps its response over. -/
inductive Sent (t : ClientSession) : ClientSession → Prop
  | on {tx : Bytes} {act : Nat} : Sent t { t with tx := tx, lastActivityNs := act }
  | answered {tx : Bytes} {act : Nat} : t.state = .stream → Sent t { t with tx := tx, lastActivityNs := act }.reset

theorem sent_hist {t s' : ClientSession} (h : s' = t ∨ t.state = .stream ∧ s' = t.reset) :
    s'.hist = t.hist ∧ s'.tx = t.tx := by
  rcases h with rfl | ⟨-, rfl⟩ <;> exact ⟨rfl, rfl⟩

theorem readable_sent (pf : Platform) (cfg : RuntimeConfig) (reads : List ReadRes) (now : WriteRes) (nowNs : Nat)
    (hs : d.find fd = some s) {s' : ClientSession} (hs' : (d.readable pf cfg fd reads now nowNs).find fd = some s') :
    Sent (d.answering pf cfg fd s nowNs reads) s' := by
  have heq := readable_eq pf cfg reads now nowNs hs
  generalize d.answering pf cfg fd s nowNs reads = t at heq ⊢
  generalize s.read cfg pf.vocab nowNs d.mgr.nextSeqId reads = o at heq
  have hf : (d.heard fd o t).find fd = some t := heard_find_self hs
  obtain ⟨tx, -, hnow⟩ := writeNow_written t now
  have hput := Daemon.find_put_self (s := { t with tx := tx }) hf
  simp only [hnow] at heq
  rw [heq] at hs'
  split at hs'
  · split at hs'
    · rcases finishWrite_sent hput (finishRead_find.symm.trans hs') with rfl | ⟨hst, rfl⟩
      · exact .on
      · exact .answered hst
    · cases hput.symm.trans hs'
      exact .on
  · cases hf.symm.trans hs'
    exact .on

theorem readable_closed (pf : Platform) (cfg : RuntimeConfig) (reads : List ReadRes) (now : WriteRes) (nowNs : Nat)
    (hs : d.find fd = some s) (hnone : (d.readable pf cfg fd reads now nowNs).find fd = none) :
    (d.answering pf cfg fd s nowNs reads).state = .errored ∨ (d.answering pf cfg fd s nowNs reads).state = .stream := by
  have heq := readable_eq pf cfg reads now nowNs hs
  generalize d.answering pf cfg fd s nowNs reads = t at heq ⊢
  generalize s.read cfg pf.vocab nowNs d.mgr.nextSeqId reads = o at heq
  have hf : (d.heard fd o t).find fd = some t := heard_find_self hs
  obtain ⟨tx, -, hnow⟩ := writeNow_written t now
  have hput := Daemon.find_put_self (s := { t with tx := tx }) hf
  simp only [hnow] at heq
  rw [heq] at hnone
  split at hnone
  · split at hnone
    · have hst := finishWrite_closed hput (finishRead_find.symm.trans hnone)
      exact hst
    · cases hput.symm.trans hnone
  · cases hf.symm.trans hnone

theorem writable_closed (ws : List WriteRes) (nowNs : Nat) (hs : d.find fd = some s)
    (hnone : (d.writable fd ws nowNs).find fd = none) (hno : WriteRes.error ∉ ws) :
    s.state = .errored ∨ s.state = .stream := by
  obtain ⟨tx, act, -, hfl, herr⟩ := flush_flushed s nowNs ws
  have hfail : (s.flush nowNs ws).2 = false := by
    by_contra hf
    exact hno (herr (by simpa using hf))
  have hput := Daemon.find_put_self (s := { s with tx := tx, lastActivityNs := act }) hs
  simp only [Daemon.writable, hs, hfl, hfail, Bool.false_eq_true, if_false] at hnone
  split at hnone
  · have hst :=
      finishWrite_closed (d := (d.put fd { s with tx := tx, lastActivityNs := act }).unwatchWrite fd) hput hnone
    exact hst
  · cases hput.symm.trans hnone

theorem writable_sent (ws : List WriteRes) (nowNs : Nat) (hs : d.find fd = some s) {s' : ClientSession}
    (hs' : (d.writable fd ws nowNs).find fd = some s') : Sent s s' := by
  obtain ⟨tx, act, -, h | ⟨-, h⟩ | ⟨-, h⟩⟩ := writable_some ws nowNs hs
  all_goals rw [h] at hs'
  · rw [Daemon.find_close_self] at hs'; cases hs'
  · cases (Daemon.find_put_self hs).symm.trans hs'
    exact .on
  · rcases finishWrite_sent (d := (d.put fd { s with tx := tx, lastActivityNs := act }).unwatchWrite fd)
      (Daemon.find_put_self hs) hs' with rfl | ⟨hst, rfl⟩
    · exact .on
    · exact .answered hst

theorem readable_wire (pf : Platform) (cfg : RuntimeConfig) (reads : List ReadRes) (now : WriteRes) (nowNs : Nat)
    (hs : d.find fd = some s) :
    ∃ left, Wired d (d.readable pf cfg fd reads now nowNs) fd s (d.writes pf cfg fd (.readable fd reads now nowNs))
        (d.answering pf cfg fd s nowNs reads).hist left ∧
      ((d.readable pf cfg fd reads now nowNs).find fd = none → left = []) := by
  obtain ⟨es, hev, htx⟩ := answering_appended pf cfg d fd s nowNs reads
  have heq := readable_eq pf cfg reads now nowNs hs
  simp only [Daemon.writes, hs, decide_true, Bool.true_and]
  generalize d.answering pf cfg fd s nowNs reads = t at hev htx heq ⊢
  generalize s.read cfg pf.vocab nowNs d.mgr.nextSeqId reads = o at heq ⊢
  have hf : (d.heard fd o t).find fd = some t := heard_find_self hs
  cases hw : o.rr.wantsWrite with
  | false =>
    simp only [hw, Bool.false_eq_true, if_false] at heq ⊢
    rw [heq]
    refine ⟨t.tx, ⟨⟨es, hev, by simpa using htx⟩, fun s' hs' => ?_⟩, fun hnone => ?_⟩
    · cases hf.symm.trans hs'
      exact ⟨rfl, rfl⟩
    · rw [hf] at hnone
      cases hnone
  | true =>
    obtain ⟨tx, hwrote, hnow⟩ := writeNow_written t now
    simp only [hw, if_true, hnow] at heq ⊢
    have hput := Daemon.find_put_self (s := { t with tx := tx }) hf
    have hwire : ∃ es, t.hist.events = s.hist.events ++ es ∧
        writtenNow t.tx now ++ tx = s.tx ++ es.flatMap Event.frame := ⟨es, hev, hwrote.trans htx⟩
    cases tx with
    | nil =>
      rw [if_pos (by simp)] at heq
      rw [heq]
      exact ⟨[], ⟨hwire, fun s' hs' => sent_hist (finishWrite_sent hput (finishRead_find.symm.trans hs'))⟩, fun _ => rfl⟩
    | cons b bs =>
      rw [if_neg (by simp)] at heq
      rw [heq]
      refine ⟨b :: bs, ⟨hwire, fun s' hs' => ?_⟩, fun hnone => ?_⟩
      · cases hput.symm.trans hs'
        exact ⟨rfl, rfl⟩
      · cases hput.symm.trans hnone

theorem writable_wire (pf : Platform) (cfg : RuntimeConfig) (ws : List WriteRes) (nowNs : Nat)
    (hs : d.find fd = some s) :
    ∃ left, Wired d (d.writable fd ws nowNs) fd s (d.writes pf cfg fd (.writable fd ws nowNs)) s.hist left ∧
      ((d.writable fd ws nowNs).find fd = none → left ≠ [] → WriteRes.error ∈ ws) := by
  obtain ⟨tx, act, hwrote, hfl, herr⟩ := flush_flushed s nowNs ws
  have hput := Daemon.find_put_self (s := { s with tx := tx, lastActivityNs := act }) hs
  simp only [Daemon.writes, hs, if_true]
  have hwire : ∃ es, s.hist.events = s.hist.events ++ es ∧ flushed s.tx ws ++ tx = s.tx ++ es.flatMap Event.frame :=
    ⟨[], by simp, by simpa using hwrote⟩
  refine ⟨tx, ⟨hwire, fun s' hs' => ?_⟩, fun hnone hne => ?_⟩
  · simp only [Daemon.writable, hs, hfl] at hs'
    split at hs'
    · rw [Daemon.find_close_self] at hs'; cases hs'
    · split at hs'
      · exact sent_hist
          (finishWrite_sent (d := (d.put fd { s with tx := tx, lastActivityNs := act }).unwatchWrite fd) hput hs')
      · cases hput.symm.trans hs'
        exact ⟨rfl, rfl⟩
  · by_contra hno
    have hfail : (s.flush nowNs ws).2 = false := by
      by_contra hf
      exact hno (herr (by simpa using hf))
    simp only [Daemon.writable, hs, hfl, hfail, Bool.false_eq_true, if_false, List.isEmpty_iff, hne] at hnone
    cases hput.symm.trans hnone

theorem tick_wire (pf : Platform) (cfg : RuntimeConfig) (nowNs : Nat) (out : Decoded) (hk : Keyed d.mgr.sessions)
    (hs : d.find fd = some s) :
    ∃ s', (d.tick pf cfg nowNs out).find fd = some s' ∧ Wired d (d.tick pf cfg nowNs out) fd s [] s'.hist s'.tx := by
  obtain ⟨s', hl⟩ : ∃ s', (d.ticked pf cfg nowNs out).sessions.lookup fd = some s' :=
    tick_lookup_isSome pf cfg d.memory nowNs out hk hs
  have hs' : (d.tick pf cfg nowNs out).find fd = some s' := Daemon.tick_find.trans hl
  have hstays : ∀ t, (d.tick pf cfg nowNs out).find fd = some t → t.hist = s'.hist ∧ t.tx = s'.tx := by
    intro t ht
    cases hs'.symm.trans ht
    exact ⟨rfl, rfl⟩
  refine ⟨s', hs', ?_, hstays⟩
  rcases tick_session hk hs hl with ⟨rfl, -⟩ | ⟨before, it, -, hserved⟩
  · exact ⟨[], by simp, by simp⟩
  · obtain ⟨new, -, htx, hev, -⟩ := hserved.emission
    exact ⟨new, hev, by rw [List.nil_append, htx, foldl_append_eq]⟩

/-- **The wire.** What a step writes for a session, and what it leaves in
`tx` or drops with the session, are what was in `tx` and the frames of the
events it appends. Only an idle session or one with a failed write is closed
with something left. -/
theorem step_wire (pf : Platform) (cfg : RuntimeConfig) (hk : Keyed d.mgr.sessions) (he : d.Enabled pf cfg a)
    (hs : d.find fd = some s) :
    ∃ left, Wired d (d.step pf cfg a) fd s (d.writes pf cfg fd a) (d.history pf cfg fd a) left ∧
      ((d.step pf cfg a).find fd = none → left ≠ [] → a.cuts) := by
  have hother : ∀ {d' : Daemon}, d'.find fd = some s → ∃ left, Wired d d' fd s [] s.hist left ∧
      (d'.find fd = none → left ≠ [] → a.cuts) := by
    intro d' hf
    refine ⟨s.tx, .same fun s' hs' => ?_, fun hnone => ?_⟩
    · cases hf.symm.trans hs'
      exact ⟨rfl, rfl⟩
    · cases hf.symm.trans hnone
  cases a with
  | accept cfd order nowNs =>
    have hv : (d.accept cfg cfd order nowNs).view fd = d.view fd := by
      refine accept_view_ne ?_
      rintro rfl
      rw [he.2] at hs
      cases hs
    simp only [Daemon.writes, Daemon.history, hs]
    exact hother ((congrArg View.session hv).trans hs)
  | readable k reads now nowNs =>
    by_cases hkfd : k = fd
    · subst hkfd
      obtain ⟨left, hw, hclosed⟩ := readable_wire pf cfg reads now nowNs hs
      simp only [Daemon.history, hs, if_true]
      exact ⟨left, hw, fun hnone hne => absurd (hclosed hnone) hne⟩
    · have hv : (d.readable pf cfg k reads now nowNs).view fd = d.view fd := readable_view_ne (Ne.symm hkfd)
      simp only [Daemon.writes, Daemon.history, hs, hkfd, decide_false, Bool.false_and, Bool.false_eq_true, if_false]
      exact hother ((congrArg View.session hv).trans hs)
  | writable k ws nowNs =>
    by_cases hkfd : k = fd
    · subst hkfd
      simp only [Daemon.history, hs]
      exact writable_wire pf cfg ws nowNs hs
    · have hv : (d.writable k ws nowNs).view fd = d.view fd := writable_view_ne (Ne.symm hkfd)
      simp only [Daemon.writes, Daemon.history, hs, hkfd, if_false]
      exact hother ((congrArg View.session hv).trans hs)
  | idle nowNs =>
    simp only [Daemon.writes, Daemon.history, hs]
    refine ⟨s.tx, .same fun s' hs' => ?_, fun _ _ => trivial⟩
    rcases foldl_close_view (readyFds (Daemon.idleFor cfg nowNs) d.mgr.sessions) d fd with h | h
    · cases ((congrArg View.session h).trans hs).symm.trans hs'
      exact ⟨rfl, rfl⟩
    · cases (congrArg View.session h).symm.trans hs'
  | tick nowNs out =>
    obtain ⟨s', hs', hw⟩ := tick_wire pf cfg nowNs out hk hs
    simp only [Daemon.writes, Daemon.history, hs, hs', Option.getD_some]
    exact ⟨s'.tx, hw, fun hnone => by cases hs'.symm.trans hnone⟩

end Steps
end UmaServe

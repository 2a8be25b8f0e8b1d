/-
Histories of the descriptors. A `Ledger` says what is noted for a descriptor
when a client is accepted on it, when a session on it hears from its client,
and when the scheduler ticks; `Ledger.daemon` is the daemon that keeps it.
`Ledger.invariant` and `Ledger.request_invariant` are the rules for what a
session and the entry of its descriptor satisfy together.
-/
import UmaServe.Umad.Ownership

namespace UmaServe

structure Ledger (β : Type) where
  /-- The entry of a new connection. -/
  fresh : β
  /-- The entry after a readable event on the session. -/
  read : ClientSession → Nat → List ReadRes → β → β
  /-- The entry of a descriptor after a tick. -/
  tick : Daemon → Nat → Decoded → Int → β → β := fun _ _ _ _ b => b

namespace Ledger

variable {β : Type} {l : Ledger β} {pf : Platform} {cfg : RuntimeConfig} {D : Daemon × (Int → β) → Action → Prop}
  {I : β → ClientSession → Prop} {p : Daemon × (Int → β)} {d : Daemon} {g : Int → β} {a : Action} {fd : Int}
  {s : ClientSession}

def note (l : Ledger β) (g : Int → β) (d : Daemon) : Action → Int → β
  | .accept cfd _ _ => Function.update g cfd l.fresh
  | .readable fd reads _ nowNs =>
    match d.find fd with
    | none => g
    | some s => Function.update g fd (l.read s nowNs reads (g fd))
  | .tick nowNs out => fun fd => l.tick d nowNs out fd (g fd)
  | .writable _ _ _ | .idle _ => g

/-- The daemon, keeping the ledger. -/
abbrev daemon (l : Ledger β) (pf : Platform) (cfg : RuntimeConfig) : Lib.System (Daemon × (Int → β)) Action :=
  (umad pf cfg).record (fun _ => l.fresh) l.note

theorem note_readable {reads : List ReadRes} {now : WriteRes} {nowNs : Nat} (hs : d.find fd = some s) :
    l.note g d (.readable fd reads now nowNs) fd = l.read s nowNs reads (g fd) := by
  simp only [note, hs, Function.update_self]

theorem note_other (hs : d.find fd = some s) (he : d.Enabled pf cfg a)
    (hread : ∀ reads now nowNs, a ≠ .readable fd reads now nowNs) (htick : ∀ nowNs out, a ≠ .tick nowNs out) :
    l.note g d a fd = g fd := by
  cases a with
  | accept cfd =>
    refine Function.update_of_ne ?_ _ _
    rintro rfl
    rw [he.2] at hs
    cases hs
  | readable k reads now nowNs =>
    cases ht : d.find k with
    | none => simp only [note, ht]
    | some t =>
      simp only [note, ht]
      refine Function.update_of_ne ?_ _ _
      rintro rfl
      exact hread _ _ _ rfl
  | writable | idle => rfl
  | tick => exact absurd rfl (htick _ _)

theorem owned (h : (l.daemon pf cfg).Reach D p) : Owned p.1 :=
  owned_of_reach (C := Lib.Always) (h.forget fun _ _ _ => trivial)

theorem invariant (hnew : ∀ fd nowNs, I l.fresh { fd, lastActivityNs := nowNs })
    (hm : ∀ d g a fd next s s' r w r' w', (l.daemon pf cfg).Reach D (d, g) → d.Enabled pf cfg a → D (d, g) a →
      d.find fd = some s → (d.step pf cfg a).find fd = some s' →
      Move pf cfg d next fd a ⟨some s, r, w⟩ ⟨some s', r', w'⟩ → I (g fd) s → I (l.note g d a fd) s')
    (h : (l.daemon pf cfg).Reach D p) (hs : p.1.find fd = some s) : I (p.2 fd) s := by
  refine h.invariant (I := fun p => ∀ fd s, p.1.find fd = some s → I (p.2 fd) s) (fun _ _ hs => by cases hs) ?_ fd s hs
  intro p a hr hi he hc fd s' hs'
  obtain ⟨d, g⟩ := p
  rcases step_session (owned hr).keyed he hs' with ⟨order, nowNs, rfl, rfl⟩ | ⟨s, next, r, w, r', w', hs, hmove⟩
  · show I (Function.update g fd l.fresh fd) _
    rw [Function.update_self]
    exact hnew fd nowNs
  · exact hm d g a fd next s s' r w r' w' hr he hc hs hs' hmove (hi fd s hs)

/-- The rule for what holds whatever is written to the client and whenever a
response ends: it is left to show for what `on_readable` makes of the
session, and for a tick without and with a row for it. -/
theorem request_invariant (hnew : ∀ fd nowNs, I l.fresh { fd, lastActivityNs := nowNs })
    (hreply : ∀ b t json, I b t → I b (t.replyMetrics json))
    (hwrite : ∀ b t tx act, I b t → I b { t with tx := tx, lastActivityNs := act })
    (hreset : ∀ b t, I b t → I b t.reset)
    (hread : ∀ d g fd reads now nowNs s, (l.daemon pf cfg).Reach D (d, g) → D (d, g) (.readable fd reads now nowNs) →
      d.find fd = some s → I (g fd) s →
      I (l.read s nowNs reads (g fd)) (s.read cfg pf.vocab nowNs d.mgr.nextSeqId reads).session)
    (hidle : ∀ d g nowNs out fd s, (l.daemon pf cfg).Reach D (d, g) → d.find fd = some s →
      (d.tick pf cfg nowNs out).find fd = some s →
      (∀ it ∈ d.sched.items cfg d.mgr.sessions, it.fd = fd → itemRows s it = []) → I (g fd) s →
      I (l.tick d nowNs out fd (g fd)) s)
    (hserve : ∀ d g nowNs out fd s s' before it, (l.daemon pf cfg).Reach D (d, g) → D (d, g) (.tick nowNs out) →
      (d.tick pf cfg nowNs out).find fd = some s' →
      Serves d.mgr.sessions (d.sched.items cfg d.mgr.sessions) fd s before it →
      Served pf cfg nowNs out s it (sampleIndex d.mgr.sessions before s it) s' → I (g fd) s →
      I (l.tick d nowNs out fd (g fd)) s')
    (h : (l.daemon pf cfg).Reach D p) (hs : p.1.find fd = some s) : I (p.2 fd) s := by
  refine invariant hnew ?_ h hs
  intro d g a fd next s s' r w r' w' hr he hc hs hs' hmove hi
  by_cases hread' : ∃ reads now nowNs, a = .readable fd reads now nowNs
  · obtain ⟨reads, now, nowNs, rfl⟩ := hread'
    rw [note_readable hs]
    exact readable_holds (fun t json => hreply _ t json) (fun t tx => hwrite _ t tx t.lastActivityNs)
      (fun t => hreset _ t) hs (hread d g fd reads now nowNs s hr hc hs hi) hs'
  by_cases htick : ∃ nowNs out, a = .tick nowNs out
  · obtain ⟨nowNs, out, rfl⟩ := htick
    have hk := (owned hr).keyed
    have htick : (d.tick pf cfg nowNs out).find fd = some s' := hs'
    rcases tick_session hk hs (Daemon.tick_find.symm.trans htick) with ⟨rfl, hno⟩ | ⟨before, it, hserves, hserved⟩
    · exact hidle d g nowNs out fd s' hr hs htick hno hi
    · exact hserve d g nowNs out fd s s' before it hr hc htick hserves hserved hi
  · push Not at hread' htick
    rw [note_other hs he hread' htick]
    cases hmove with
    | same => exact hi
    | quiet | rejected | metrics | empty | emptied | started => exact absurd rfl (hread' _ _ _)
    | sent | drained => exact hwrite _ _ _ _ hi
    | finished => exact hreset _ _ (hwrite _ _ _ _ hi)
    | idled | served => exact absurd rfl (htick _ _)

/-- The rule for every entry, also of descriptors without a session. -/
theorem entries_invariant {P : β → Prop} (hfresh : P l.fresh)
    (hread : ∀ d g fd reads now nowNs s, (l.daemon pf cfg).Reach D (d, g) → D (d, g) (.readable fd reads now nowNs) →
      d.find fd = some s → P (g fd) → P (l.read s nowNs reads (g fd)))
    (htick : ∀ d g nowNs out fd, (l.daemon pf cfg).Reach D (d, g) → D (d, g) (.tick nowNs out) → P (g fd) →
      P (l.tick d nowNs out fd (g fd)))
    (h : (l.daemon pf cfg).Reach D p) (fd : Int) : P (p.2 fd) := by
  refine h.invariant (I := fun p => ∀ fd, P (p.2 fd)) (fun _ => hfresh) ?_ fd
  intro p a hr hi he hc fd
  obtain ⟨d, g⟩ := p
  show P (l.note g d a fd)
  cases a with
  | accept cfd =>
    rw [note, Function.update_apply]
    split
    · exact hfresh
    · exact hi fd
  | readable k reads now nowNs =>
    cases hs : d.find k with
    | none => simp only [note, hs]; exact hi fd
    | some s =>
      simp only [note, hs, Function.update_apply]
      split
      · exact hread d g k reads now nowNs s hr hc hs (hi k)
      · exact hi fd
  | writable | idle => exact hi fd
  | tick nowNs out => exact htick d g nowNs out fd hr hc (hi fd)

/-- From the sessions to every entry: what holds of the entry of a session,
and is not lost when its descriptor has none, holds of all. -/
theorem entries {P : β → Prop} (hfresh : P l.fresh) (hread : ∀ s nowNs reads b, P b → P (l.read s nowNs reads b))
    (hgone : ∀ d nowNs out fd b, (d.tick pf cfg nowNs out).find fd = none → P b → P (l.tick d nowNs out fd b))
    (hlive : ∀ p fd s, (l.daemon pf cfg).Reach D p → p.1.find fd = some s → P (p.2 fd))
    (h : (l.daemon pf cfg).Reach D p) (fd : Int) : P (p.2 fd) := by
  refine entries_invariant hfresh (fun _ _ _ _ _ _ _ _ _ _ => hread _ _ _ _) ?_ h fd
  intro d g nowNs out fd hr hc hb
  cases hs' : (d.tick pf cfg nowNs out).find fd with
  | some s' =>
    have he : (l.daemon pf cfg).enabled (d, g) (.tick nowNs out) := trivial
    exact hlive _ fd s' (hr.step he hc) hs'
  | none => exact hgone d nowNs out fd _ hs' hb

end Ledger
end UmaServe

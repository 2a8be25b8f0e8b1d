/-
The main loop, event by event. In `UmaServe.Umad.Main` an event happens when
its filter is registered. Here the events are those one call of `wait`
returned, dispatched one after another in whatever order the map has, while
sessions close and their descriptors are reused: no event reaches a session
younger than the call that reported it (`events_own_session`). When the
kernel reports registered filters only, the loop makes the steps of `umad`
and no others (`loop_refines`).
-/
import UmaServe.Umad.Ownership

namespace UmaServe

/-- The descriptors of the process that are no client's: the listening socket,
and whatever else it holds open. -/
structure Process where
  server : Int
  others : Int → Bool
  server_open : others server = true

/-- What the system calls return while one event is dispatched. -/
structure Calls where
  /-- The result of `::accept`. -/
  cfd : Int := -1
  order : List Int := []
  reads : List ReadRes := []
  now : WriteRes := .wouldBlock
  writes : List WriteRes := []
  nowNs : Nat := 0

namespace Daemon

/-- The body of the loop over `ready_events`. -/
def dispatch (d : Daemon) (pf : Platform) (cfg : RuntimeConfig) (server : Int) (ev : PollEvent) (c : Calls) : Daemon :=
  if ev.fd = server && ev.readable then
    if 0 ≤ c.cfd then d.accept cfg c.cfd c.order c.nowNs else d
  else if ev.readable then d.readable pf cfg ev.fd c.reads c.now c.nowNs
  else if ev.writable then d.writable ev.fd c.writes c.nowNs
  else d

/-- A descriptor is open: a session's from `add_client` to `close`, and the
others always. -/
def isOpen (d : Daemon) (P : Process) (fd : Int) : Bool := (d.find fd).isSome || P.others fd

end Daemon

/-- The loop, with what is left of `ready_events`. -/
structure Loop where
  daemon : Daemon
  ready : List PollEvent := []

/-- A step of the loop. -/
inductive Turn
  | wait (kev : List Kevent) (order : List Int)
  | dispatch (c : Calls)
  | idle (nowNs : Nat)
  | tick (nowNs : Nat) (out : Decoded)

namespace Loop

variable {pf : Platform} {cfg : RuntimeConfig} {P : Process} {l : Loop}

def next (pf : Platform) (cfg : RuntimeConfig) (P : Process) (l : Loop) : Turn → Loop
  | .wait kev order => { l with ready := Poller.wait kev order }
  | .dispatch c =>
    match l.ready with
    | [] => l
    | ev :: rest => ⟨l.daemon.dispatch pf cfg P.server ev c, rest⟩
  | .idle nowNs => { l with daemon := l.daemon.idle cfg nowNs }
  | .tick nowNs out => { l with daemon := l.daemon.tick pf cfg nowNs out }

/-- The kernel reports open descriptors; `accept` returns one that is not open,
or fails; and all else waits until the events are dispatched. -/
def Enabled (P : Process) (l : Loop) : Turn → Prop
  | .wait kev _ => l.ready = [] ∧ ∀ k ∈ kev, l.daemon.isOpen P k.fd = true
  | .dispatch c => l.ready ≠ [] ∧ (0 ≤ c.cfd → l.daemon.isOpen P c.cfd = false)
  | .idle _ | .tick _ _ => l.ready = []

instance : ∀ t, Decidable (l.Enabled P t)
  | .wait _ _ | .dispatch _ => inferInstanceAs (Decidable (_ ∧ _))
  | .idle _ | .tick _ _ => inferInstanceAs (Decidable (_ = _))

end Loop

/-- The loop, from start-up. -/
def umadLoop (pf : Platform) (cfg : RuntimeConfig) (P : Process) : Lib.System Loop Turn where
  init := { daemon := (umad pf cfg).init }
  enabled := Loop.Enabled P
  next := Loop.next pf cfg P

instance (pf : Platform) (cfg : RuntimeConfig) (P : Process) (l : Loop) (t : Turn) :
    Decidable ((umadLoop pf cfg P).enabled l t) :=
  inferInstanceAs (Decidable (l.Enabled P t))

/-! ## When sessions and events came to be -/

/-- History: the steps so far, the step of the last `wait`, and for each
descriptor the step that created the last session on it. -/
structure Stamps where
  clock : Nat := 0
  waited : Nat := 0
  born : Int → Nat := fun _ => 0

/-- A session was created when it is there after a step and was not before. -/
def Stamps.note (pf : Platform) (cfg : RuntimeConfig) (P : Process) (h : Stamps) (l : Loop) (t : Turn) : Stamps where
  clock := h.clock + 1
  waited :=
    match t with
    | .wait _ _ => h.clock
    | .dispatch _ | .idle _ | .tick _ _ => h.waited
  born := fun fd =>
    if (l.daemon.find fd).isNone && ((l.next pf cfg P t).daemon.find fd).isSome then h.clock else h.born fd

abbrev stamped (pf : Platform) (cfg : RuntimeConfig) (P : Process) : Lib.System (Loop × Stamps) Turn :=
  (umadLoop pf cfg P).record {} (Stamps.note pf cfg P)

section Dispatch

variable {pf : Platform} {cfg : RuntimeConfig} {P : Process} {d : Daemon} {ev : PollEvent} {c : Calls} {k : Int}
  {l : Loop} {st : Stamps} {t : Turn}

theorem dispatch_view_ne (hev : k ≠ ev.fd) (hcfd : 0 ≤ c.cfd → k ≠ c.cfd) :
    (d.dispatch pf cfg P.server ev c).view k = d.view k := by
  unfold Daemon.dispatch
  split
  · split
    next h0 => exact accept_view_ne (hcfd h0)
    next => rfl
  · split
    · exact readable_view_ne hev
    · split
      · exact writable_view_ne hev
      · rfl

/-- What holds of the events that are left. -/
structure Pending (P : Process) (l : Loop) : Prop where
  nodup : (l.ready.map PollEvent.fd).Nodup
  isOpen : ∀ ev ∈ l.ready, l.daemon.isOpen P ev.fd = true

/-- While an event waits its turn its descriptor stays open, so `accept` does
not return it. -/
theorem Pending.dispatch_view (h : Pending P l) {rest : List PollEvent} (hready : l.ready = ev :: rest)
    (he : l.Enabled P (.dispatch c)) {ev' : PollEvent} (hev' : ev' ∈ rest) :
    (l.daemon.dispatch pf cfg P.server ev c).view ev'.fd = l.daemon.view ev'.fd := by
  have hn := h.nodup
  rw [hready, List.map_cons, List.nodup_cons] at hn
  refine dispatch_view_ne (fun heq => hn.1 (heq ▸ List.mem_map_of_mem hev')) fun h0 heq => ?_
  have hopen := h.isOpen ev' (by rw [hready]; exact List.mem_cons_of_mem _ hev')
  rw [heq, he.2 h0] at hopen
  cases hopen

/-- The events that are left after a step: those a `wait` returned, or the rest
of those that were, on descriptors the step did not touch. -/
theorem Pending.left (h : Pending P l) (he : l.Enabled P t) (hev : ev ∈ (l.next pf cfg P t).ready) :
    (∃ kev order, t = .wait kev order ∧ ev ∈ Poller.wait kev order) ∨
      (ev ∈ l.ready ∧ (l.next pf cfg P t).daemon.view ev.fd = l.daemon.view ev.fd ∧
        ∀ kev order, t ≠ .wait kev order) := by
  cases t with
  | wait kev order => exact .inl ⟨kev, order, rfl, hev⟩
  | dispatch c =>
    cases hready : l.ready with
    | nil => exact absurd hready he.1
    | cons ev₀ rest =>
      simp only [Loop.next, hready] at hev ⊢
      exact .inr ⟨List.mem_cons_of_mem _ hev, h.dispatch_view hready he hev, by simp⟩
  | idle | tick =>
    have hnil : l.ready = [] := he
    simp only [Loop.next, hnil] at hev
    cases hev

theorem Pending.step (h : Pending P l) (he : l.Enabled P t) : Pending P (l.next pf cfg P t) := by
  refine ⟨?_, fun ev hev => ?_⟩
  · cases t with
    | wait kev order => exact Poller.wait_nodup kev order
    | dispatch c =>
      have hn := h.nodup
      cases hready : l.ready with
      | nil => exact absurd hready he.1
      | cons ev rest =>
        rw [hready, List.map_cons, List.nodup_cons] at hn
        simp only [Loop.next, hready]
        exact hn.2
    | idle | tick => exact h.nodup
  · rcases h.left he hev with ⟨kev, order, rfl, hmem⟩ | ⟨hmem, hview, -⟩
    · obtain ⟨k, hk, hfd⟩ := (Poller.mem_wait_fds ev.fd).mp (List.mem_map_of_mem hmem)
      rw [← hfd]
      exact he.2 k hk
    · have hfind : (l.next pf cfg P t).daemon.find ev.fd = l.daemon.find ev.fd := congrArg View.session hview
      rw [Daemon.isOpen, hfind]
      exact h.isOpen ev hmem

/-- The sessions, and the events that are left, against the stamps. -/
structure Current (P : Process) (l : Loop) (st : Stamps) : Prop extends Pending P l where
  past : ∀ fd s, l.daemon.find fd = some s → st.born fd < st.clock
  before : ∀ ev ∈ l.ready, ∀ s, l.daemon.find ev.fd = some s → st.born ev.fd < st.waited

theorem note_born_old {fd : Int} {s : ClientSession} (hs : l.daemon.find fd = some s) :
    (Stamps.note pf cfg P st l t).born fd = st.born fd := by
  simp [Stamps.note, hs]

theorem Current.step_past (h : Current P l st) {fd : Int} {s : ClientSession}
    (hs : (l.next pf cfg P t).daemon.find fd = some s) :
    (Stamps.note pf cfg P st l t).born fd < (Stamps.note pf cfg P st l t).clock := by
  show _ < st.clock + 1
  cases hold : l.daemon.find fd with
  | some s₀ =>
    rw [note_born_old hold]
    have := h.past fd s₀ hold
    omega
  | none =>
    simp only [Stamps.note, hold, hs, Option.isNone_none, Option.isSome_some, Bool.and_self, if_true]
    omega

/-- **A step of the loop** keeps the events ahead of the sessions. -/
theorem Current.step (h : Current P l st) (he : l.Enabled P t) :
    Current P (l.next pf cfg P t) (Stamps.note pf cfg P st l t) := by
  refine ⟨h.toPending.step he, fun fd s hs => h.step_past hs, fun ev hev s hs => ?_⟩
  rcases h.toPending.left he hev with ⟨kev, order, rfl, hmem⟩ | ⟨hmem, hview, hne⟩
  · -- Every session is older than this call.
    rw [note_born_old (show l.daemon.find ev.fd = some s from hs)]
    exact h.past ev.fd s hs
  · have hfind : (l.next pf cfg P t).daemon.find ev.fd = l.daemon.find ev.fd := congrArg View.session hview
    rw [hfind] at hs
    rw [note_born_old hs]
    have hwaited : (Stamps.note pf cfg P st l t).waited = st.waited := by
      cases t with
      | wait kev order => exact absurd rfl (hne kev order)
      | dispatch | idle | tick => rfl
    rw [hwaited]
    exact h.before ev hmem s hs

theorem current_of_reach {p : Loop × Stamps} (h : (stamped pf cfg P).Reach Lib.Always p) : Current P p.1 p.2 := by
  refine h.invariant (I := fun p => Current P p.1 p.2) ?_ fun p t _ hi he _ => hi.step he
  exact ⟨⟨List.nodup_nil, fun ev hev => (by cases hev)⟩, fun fd s hs => (by cases hs), fun ev hev => (by cases hev)⟩

/-- **Events reach their own session.** Whatever the kernel returns to `wait`,
each descriptor is in the list once, with all the flags it was returned with
and no others, and the list may be in any order. And in every reachable
state of the loop, whatever was closed and accepted since the last `wait`:
if the next event finds a session, that session was created before the call
that reported the event; and dispatching the event leaves every other
session alone. -/
theorem events_own_session {p : Loop × Stamps} (h : (stamped pf cfg P).Reach Lib.Always p) :
    (∀ kev order,
      ((Poller.wait kev order).map PollEvent.fd).Nodup ∧
      (∀ fd, fd ∈ (Poller.wait kev order).map PollEvent.fd ↔ ∃ k ∈ kev, k.fd = fd) ∧
      (∀ ev ∈ Poller.wait kev order, ∀ x, x ∈ ev.f ↔ ∃ k ∈ kev, k.fd = ev.fd ∧ x ∈ k.pollFlags) ∧
      ∀ order', order'.Perm ((Poller.wait kev order).map PollEvent.fd) →
        (Poller.wait kev order').map PollEvent.fd = order') ∧
    ∀ ev rest, p.1.ready = ev :: rest →
      (∀ s, p.1.daemon.find ev.fd = some s → p.2.born ev.fd < p.2.waited) ∧
      ∀ c, p.1.Enabled P (.dispatch c) → ∀ k s, k ≠ ev.fd → p.1.daemon.find k = some s →
        (p.1.daemon.dispatch pf cfg P.server ev c).find k = some s := by
  have hc := current_of_reach h
  refine ⟨fun kev order => ⟨Poller.wait_nodup kev order, Poller.mem_wait_fds, fun ev hev => Poller.wait_flags hev,
    fun order' hp => Poller.wait_order hp⟩, ?_⟩
  intro ev rest hready
  refine ⟨hc.before ev (by rw [hready]; exact List.mem_cons_self), fun c he k s hk hs => ?_⟩
  have hne : 0 ≤ c.cfd → k ≠ c.cfd := by
    rintro h0 rfl
    have hclosed := he.2 h0
    rw [Daemon.isOpen, hs] at hclosed
    cases hclosed
  rw [← hs]
  exact congrArg View.session (dispatch_view_ne hk hne)

/-- The listening socket is 3. -/
def listening : Process := ⟨3, fun fd => fd = 3, rfl⟩

/-- Two clients connect, one after the other. Then the kernel reports the
first, the listening socket and, in two entries, the second: the first asks
for the metrics and is closed, and a third client gets its descriptor. -/
def reused : List Turn :=
  [.wait [⟨3, .read, false, false⟩] [3], .dispatch { cfd := 7, order := [7] },
    .wait [⟨3, .read, false, false⟩] [3], .dispatch { cfd := 8, order := [8, 7] },
    .wait [⟨8, .read, false, false⟩, ⟨7, .read, false, false⟩, ⟨3, .read, false, false⟩, ⟨8, .write, false, true⟩]
      [7, 3, 8],
    .dispatch { reads := framed (bytes "\x7b\"type\":\"metrics\"\x7d"), now := .wrote 1000 },
    .dispatch { cfd := 7, order := [7, 8] }]

/-- The third client is younger than the event that is left, which is the
second client's. -/
theorem events_own_session_reused :
    ((stamped small {} listening).after (stamped small {} listening).init reused).1.ready =
        [⟨8, {.read, .write, .hup}⟩] ∧
      ((stamped small {} listening).after (stamped small {} listening).init reused).2.waited = 4 ∧
      ((stamped small {} listening).after (stamped small {} listening).init reused).2.born 7 = 6 ∧
      ((stamped small {} listening).after (stamped small {} listening).init reused).2.born 8 < 4 := by
  have hr : (stamped small {} listening).Reach Lib.Always
      ((stamped small {} listening).after (stamped small {} listening).init reused) :=
    Lib.System.Reach.init.run (by decide +kernel)
  have hready : ((stamped small {} listening).after (stamped small {} listening).init reused).1.ready =
      [⟨8, {.read, .write, .hup}⟩] := by decide +kernel
  have hwaited : ((stamped small {} listening).after (stamped small {} listening).init reused).2.waited = 4 := by
    decide +kernel
  have hst : (((stamped small {} listening).after (stamped small {} listening).init reused).1.daemon.find 8).isSome =
      true := by decide +kernel
  obtain ⟨s, hs⟩ := Option.isSome_iff_exists.mp hst
  have hborn := ((events_own_session hr).2 _ _ hready).1 s hs
  rw [hwaited] at hborn
  exact ⟨hready, hwaited, by decide +kernel, hborn⟩

end Dispatch

/-! ## The loop and the transition system -/

section Refine

variable {pf : Platform} {cfg : RuntimeConfig} {P : Process} {l : Loop} {ev : PollEvent} {t : Turn}

/-- The kernel reports registered filters only, and `next_seq_id_` does not
overflow. The listening socket is registered for reading. -/
def Registered (pf : Platform) (cfg : RuntimeConfig) (P : Process) (l : Loop) : Turn → Prop
  | .wait kev _ => ∀ k ∈ kev, (k.filter = .read ∧ (k.fd = P.server ∨ l.daemon.poller.read k.fd = true)) ∨
      (k.filter = .write ∧ l.daemon.poller.write k.fd = true)
  | .dispatch c => (l.next pf cfg P (.dispatch c)).daemon.mgr.nextSeqId < 2 ^ 31
  | .idle _ | .tick _ _ => True

/-- An event that waits its turn is of a filter that is still registered. -/
def Loop.Armed (P : Process) (l : Loop) : Prop :=
  ∀ ev ∈ l.ready, (ev.readable = true → ev.fd = P.server ∨ l.daemon.poller.read ev.fd = true) ∧
    (ev.writable = true → l.daemon.poller.write ev.fd = true)

theorem read_mem_pollFlags {k : Kevent} : .read ∈ k.pollFlags ↔ k.filter = .read := by
  unfold Kevent.pollFlags
  cases k.filter <;> cases k.evError <;> cases k.evEof <;> decide

theorem write_mem_pollFlags {k : Kevent} : .write ∈ k.pollFlags ↔ k.filter = .write := by
  unfold Kevent.pollFlags
  cases k.filter <;> cases k.evError <;> cases k.evEof <;> decide

theorem armed_wait {kev : List Kevent} {order : List Int} (hc : Registered pf cfg P l (.wait kev order)) :
    (l.next pf cfg P (.wait kev order)).Armed P := by
  intro ev hev
  refine ⟨fun hread => ?_, fun hwrite => ?_⟩
  · obtain ⟨k, hk, hfd, hx⟩ := (Poller.wait_flags hev .read).mp (of_decide_eq_true hread)
    rw [← hfd]
    rcases hc k hk with ⟨-, h⟩ | ⟨hf, -⟩
    · exact h
    · rw [read_mem_pollFlags, hf] at hx
      cases hx
  · obtain ⟨k, hk, hfd, hx⟩ := (Poller.wait_flags hev .write).mp (of_decide_eq_true hwrite)
    rw [← hfd]
    rcases hc k hk with ⟨hf, -⟩ | ⟨-, h⟩
    · rw [write_mem_pollFlags, hf] at hx
      cases hx
    · exact h

/-- Dispatching an event is a step of the daemon, or nothing. -/
theorem dispatch_step {d : Daemon} {c : Calls}
    (hread : ev.readable = true → ev.fd = P.server ∨ d.poller.read ev.fd = true)
    (hwrite : ev.writable = true → d.poller.write ev.fd = true) (hcfd : 0 ≤ c.cfd → d.isOpen P c.cfd = false)
    (hseq : (d.dispatch pf cfg P.server ev c).mgr.nextSeqId < 2 ^ 31) :
    d.dispatch pf cfg P.server ev c = d ∨
      ∃ a, d.Enabled pf cfg a ∧ d.dispatch pf cfg P.server ev c = d.step pf cfg a := by
  unfold Daemon.dispatch at hseq ⊢
  split
  next =>
    split
    next h0 =>
      have hclosed := hcfd h0
      rw [Daemon.isOpen, Bool.or_eq_false_iff, Option.isSome_eq_false_iff, Option.isNone_iff_eq_none] at hclosed
      exact .inr ⟨.accept c.cfd c.order c.nowNs, ⟨h0, hclosed.1⟩, rfl⟩
    next => exact .inl rfl
  next hserver =>
    rw [if_neg hserver] at hseq
    split
    next hr =>
      rw [if_pos hr] at hseq
      have hne : ev.fd ≠ P.server := fun he => hserver (by simp [he, hr])
      exact .inr ⟨.readable ev.fd c.reads c.now c.nowNs, ⟨(hread hr).resolve_left hne, hseq⟩, rfl⟩
    next =>
      split
      next hw => exact .inr ⟨.writable ev.fd c.writes c.nowNs, hwrite hw, rfl⟩
      next => exact .inl rfl

theorem Loop.Armed.step (h : l.Armed P) (hp : Pending P l) (he : l.Enabled P t) (hc : Registered pf cfg P l t) :
    (l.next pf cfg P t).Armed P := by
  intro ev hev
  rcases hp.left he hev with ⟨kev, order, rfl, -⟩ | ⟨hmem, hview, -⟩
  · exact armed_wait hc ev hev
  · have hread : (l.next pf cfg P t).daemon.poller.read ev.fd = l.daemon.poller.read ev.fd := congrArg View.read hview
    have hwrite : (l.next pf cfg P t).daemon.poller.write ev.fd = l.daemon.poller.write ev.fd :=
      congrArg View.write hview
    rw [hread, hwrite]
    exact h ev hmem

theorem armed_of_reach (h : (umadLoop pf cfg P).Reach (Registered pf cfg P) l) : Pending P l ∧ l.Armed P := by
  refine h.invariant (I := fun l => Pending P l ∧ l.Armed P) ?_ fun l t _ hi he hc =>
    ⟨hi.1.step he, hi.2.step hi.1 he hc⟩
  exact ⟨⟨List.nodup_nil, fun ev hev => (by cases hev)⟩, fun ev hev => (by cases hev)⟩

/-- **The loop refines the transition system**: a filter that is registered
when the kernel is asked is registered when its event is dispatched, so every
state of the daemon in the loop is one `umad` reaches. -/
theorem loop_refines (h : (umadLoop pf cfg P).Reach (Registered pf cfg P) l) :
    (umad pf cfg).Reach Lib.Always l.daemon := by
  refine h.refine Loop.daemon rfl ?_
  intro l t hr he hc
  obtain ⟨-, harmed⟩ := armed_of_reach hr
  cases t with
  | wait => exact .inl rfl
  | dispatch c =>
    cases hready : l.ready with
    | nil => exact absurd hready he.1
    | cons ev rest =>
      have hev := harmed ev (by rw [hready]; exact List.mem_cons_self)
      have hseq : (l.next pf cfg P (.dispatch c)).daemon.mgr.nextSeqId < 2 ^ 31 := hc
      show (l.next pf cfg P (.dispatch c)).daemon = _ ∨ ∃ a, _ ∧ _ ∧ (l.next pf cfg P (.dispatch c)).daemon = _
      simp only [Loop.next, hready] at hseq ⊢
      exact (dispatch_step hev.1 hev.2 he.2 hseq).imp_right fun ⟨a, ha, hnext⟩ => ⟨a, ha, trivial, hnext⟩
  | idle nowNs => exact .inr ⟨.idle nowNs, trivial, trivial, rfl⟩
  | tick nowNs out => exact .inr ⟨.tick nowNs out, trivial, trivial, rfl⟩

end Refine
end UmaServe

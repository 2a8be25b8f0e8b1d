/-
`umad/main.cpp`: the event loop, as a transition system.

A step is one turn of the dispatch loop (an accept, a readable or a writable
event), the idle cleanup, or the scheduler tick with the arming that follows
it. An iteration of the main loop is a run of such steps: the poller reports
at most one event for a descriptor, so a filter that was registered when it
was asked is still registered when the event is dispatched, and an event is
enabled when its filter is (`loop_refines` in `UmaServe.Umad.Dispatch`). What
the system calls return is in the label.
-/
import UmaServe.Ipc.Poller
import UmaServe.Lib.System
import UmaServe.Sched.Scheduler

namespace UmaServe

/-- One result of `::write`. -/
inductive WriteRes
  | wrote (n : Nat)
  | wouldBlock
  | error

structure Daemon where
  mgr : SessionManager := {}
  poller : Poller := {}
  sched : Scheduler
  memory : Memory := fun _ => []
  /-- History: the sequence ids of the sessions closed so far. -/
  closedSeqs : List Int := []

/-- A step of the loop, with what the environment returns in it. -/
inductive Action
  /-- `accept` returned `cfd`; `order` is the map's iteration order after it. -/
  | accept (cfd : Int) (order : List Int) (nowNs : Nat)
  /-- A readable event: the reads, and the result of the immediate write. -/
  | readable (fd : Int) (reads : List ReadRes) (now : WriteRes) (nowNs : Nat)
  | writable (fd : Int) (writes : List WriteRes) (nowNs : Nat)
  | idle (nowNs : Nat)
  | tick (nowNs : Nat) (out : Decoded)

namespace ClientSession

/-- The reset after a response, for the next request. -/
def reset (s : ClientSession) : ClientSession :=
  { s with
    state := .recvReq
    promptTokens := []
    prefillIdx := 0
    generatedCount := 0
    hasPendingTok := false
    nPast := 0
    reqStartNs := 0
    firstEmitNs := 0
    lastEmitNs := 0 }

/-- The immediate write after a readable event, whose failure is ignored. -/
def writeNow (s : ClientSession) : WriteRes → ClientSession
  | .wrote n => { s with tx := s.tx.drop n }
  | .wouldBlock | .error => s

/-- The write loop of a writable event: the session, and whether a write
failed. -/
def flush (nowNs : Nat) (s : ClientSession) : List WriteRes → ClientSession × Bool
  | [] => (s, false)
  | r :: rest =>
    if s.tx.isEmpty then (s, false)
    else
      match r with
      | .wrote n => flush nowNs { s with tx := s.tx.drop n, lastActivityNs := nowNs } rest
      | .wouldBlock => (s, false)
      | .error => (s, true)

/-- The metrics reply to an admin request. -/
def replyMetrics (s : ClientSession) (json : Bytes) : ClientSession :=
  { s.emit (.metrics json) with state := .stream, readClosed := true }

end ClientSession

namespace Daemon

/-- `sessions.find`. -/
def find (d : Daemon) (fd : Int) : Option ClientSession := d.mgr.sessions.lookup fd

/-- Write a session back through the reference `find` gave. -/
def put (d : Daemon) (fd : Int) (s : ClientSession) : Daemon :=
  { d with mgr := { d.mgr with sessions := d.mgr.sessions.replace fd s } }

/-- `SessionManager::close`. -/
def close (d : Daemon) (fd : Int) : Daemon :=
  let d := { d with poller := (d.poller.removeRead fd).removeWrite fd }
  match d.find fd with
  | none => d
  | some s =>
    { d with
      mgr := { d.mgr with sessions := d.mgr.sessions.erase fd }
      memory := if 0 ≤ s.seq then d.memory.seqRm s.seq else d.memory
      closedSeqs := if 0 ≤ s.seq then s.seq :: d.closedSeqs else d.closedSeqs }

/-- Accepting a client. -/
def accept (d : Daemon) (cfg : RuntimeConfig) (cfd : Int) (order : List Int) (nowNs : Nat) : Daemon :=
  if cfg.maxSessions ≤ d.mgr.sessions.entries.length then d
  else { d with mgr := d.mgr.addClient cfd order nowNs, poller := d.poller.addRead cfd }

/-- The end of a response in the readable branch, once `tx` is empty. -/
def finishRead (d : Daemon) (fd : Int) (s : ClientSession) : Daemon :=
  if s.state = .errored then d.close fd
  else if s.state = .stream then
    if s.readClosed then d.close fd
    else
      let d := d.put fd s.reset
      { d with poller := d.poller.addRead fd }
  else d

/-- The same in the writable branch, which leaves the read filter alone. -/
def finishWrite (d : Daemon) (fd : Int) (s : ClientSession) : Daemon :=
  if s.state = .errored then d.close fd
  else if s.state = .stream then if s.readClosed then d.close fd else d.put fd s.reset
  else d

/-- A readable event on a client. -/
def readable (d : Daemon) (pf : Platform) (cfg : RuntimeConfig) (fd : Int) (reads : List ReadRes) (now : WriteRes)
    (nowNs : Nat) : Daemon :=
  let (mgr, rr) := d.mgr.onReadable fd cfg pf.vocab nowNs reads
  let d := { d with mgr }
  match d.find fd with
  | none => d
  | some s =>
    let s := if rr.adminRequest then s.replyMetrics (pf.metricsJson d.sched.metrics d.mgr.sessions.entries.length)
      else s
    let poller := if rr.adminRequest || rr.removedRead then d.poller.removeRead fd else d.poller
    let d := { d.put fd s with poller }
    if rr.wantsWrite then
      let s := if s.tx.isEmpty then s else s.writeNow now
      let d := d.put fd s
      if s.tx.isEmpty then d.finishRead fd s else { d with poller := d.poller.addWrite fd }
    else d

/-- A writable event on a client. -/
def writable (d : Daemon) (fd : Int) (writes : List WriteRes) (nowNs : Nat) : Daemon :=
  match d.find fd with
  | none => d
  | some s =>
    let (s, failed) := s.flush nowNs writes
    if failed then (d.put fd s).close fd
    else
      let d := d.put fd s
      if s.tx.isEmpty then { d with poller := d.poller.removeWrite fd }.finishWrite fd s else d

/-- `has_ready_work`: the loop does not sleep. -/
def hasReadyWork (d : Daemon) : Bool := d.mgr.sessions.entries.any fun e => e.2.prefillReady || e.2.decodeReady

/-- The idle test, in `uint64_t`. -/
def idleFor (cfg : RuntimeConfig) (nowNs : Nat) (s : ClientSession) : Bool :=
  let idleNs := cfg.idleTimeoutSec * 1000 * 1000 * 1000
  0 < idleNs && idleNs < subU64 nowNs s.lastActivityNs

/-- The idle cleanup. -/
def idle (d : Daemon) (cfg : RuntimeConfig) (nowNs : Nat) : Daemon :=
  (readyFds (idleFor cfg nowNs) d.mgr.sessions).foldl close d

/-- Arm the write filter of one of the fds a tick returned. -/
def arm (d : Daemon) (fd : Int) : Daemon :=
  match d.find fd with
  | none => d
  | some s => if s.tx.isEmpty then d else { d with poller := d.poller.addWrite fd }

/-- The scheduler tick and the arming that follows it. -/
def tick (d : Daemon) (pf : Platform) (cfg : RuntimeConfig) (nowNs : Nat) (out : Decoded) : Daemon :=
  let t := d.sched.tick pf cfg d.mgr.sessions d.memory nowNs out
  t.resultFds.foldl arm
    { d with mgr := { d.mgr with sessions := t.sessions }, sched := t.sched, memory := t.memory }

/-- One step of the loop. -/
def step (pf : Platform) (cfg : RuntimeConfig) (d : Daemon) : Action → Daemon
  | .accept cfd order nowNs => d.accept cfg cfd order nowNs
  | .readable fd reads now nowNs => d.readable pf cfg fd reads now nowNs
  | .writable fd writes nowNs => d.writable fd writes nowNs
  | .idle nowNs => d.idle cfg nowNs
  | .tick nowNs out => d.tick pf cfg nowNs out

/-- When a step can happen. `accept` returns a descriptor that is not open;
an event is reported for a registered filter; and the increment of
`next_seq_id_` does not overflow, which is undefined behaviour and has no
step here. -/
def Enabled (pf : Platform) (cfg : RuntimeConfig) (d : Daemon) : Action → Prop
  | .accept cfd _ _ => 0 ≤ cfd ∧ d.find cfd = none
  | .readable fd reads now nowNs =>
    d.poller.read fd = true ∧ (d.readable pf cfg fd reads now nowNs).mgr.nextSeqId < 2 ^ 31
  | .writable fd _ _ => d.poller.write fd = true
  | .idle _ | .tick _ _ => True

instance (pf : Platform) (cfg : RuntimeConfig) (d : Daemon) : ∀ a, Decidable (d.Enabled pf cfg a)
  | .accept _ _ _ => inferInstanceAs (Decidable (_ ∧ _))
  | .readable _ _ _ _ => inferInstanceAs (Decidable (_ ∧ _))
  | .writable _ _ _ => inferInstanceAs (Decidable (_ = _))
  | .idle _ | .tick _ _ => inferInstanceAs (Decidable True)

end Daemon

/-- The daemon, from start-up. -/
def umad (pf : Platform) (cfg : RuntimeConfig) : Lib.System Daemon Action where
  init := { sched := Scheduler.new pf }
  enabled := Daemon.Enabled pf cfg
  next := Daemon.step pf cfg

instance (pf : Platform) (cfg : RuntimeConfig) (d : Daemon) (a : Action) : Decidable ((umad pf cfg).enabled d a) :=
  inferInstanceAs (Decidable (d.Enabled pf cfg a))

/-! ## A small platform

For concrete runs: one token for each byte of a text, and a vocabulary of
three tokens of which the last ends a generation. -/

def small : Platform where
  vocab :=
    { tokens := fun text _ _ => text.map fun c => (c.toNat : Int)
      piece := fun t _ => [t.toNat.toUInt8]
      isEog := fun t => t = 2
      nTokens := 3 }
  nBatch := 64
  exp := id
  shrink := fun t => t * 7 / 10

/-- The reads that bring one frame. -/
def framed (js : Bytes) : List ReadRes :=
  match writeFrame [] js with
  | [] => []
  | b :: bs => [.data b bs]

/-- A greedy request. -/
def request (prompt : String) : List ReadRes :=
  framed (bytes "\x7b\"id\":\"r\",\"prompt\":\"" ++ bytes prompt ++ bytes "\",\"temperature\":0\x7d")

/-- A manager with one new session. -/
def oneSession : SessionManager := { sessions := AList.singleton 7 { fd := 7 } }

/-- Logits rows that all choose `t`. -/
def choosing (t : Nat) : Decoded := { rows := fun _ => some fun u => if u = t then 1 else 0 }

end UmaServe

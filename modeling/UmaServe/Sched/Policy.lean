/-
`sched/policy.cpp`: the baseline policy. The running budget and the plan are
the state of its loops; each loop is a fold whose step does nothing once the
budget is spent, which is where the source's loop stops.
-/
import UmaServe.Ipc.Session

namespace UmaServe

inductive Phase
  | prefill | decode
  deriving DecidableEq, Repr

structure BatchItem where
  fd : Int := -1
  phase : Phase := .decode
  nTokens : Int := 1
  deriving DecidableEq, Repr

structure Plan where
  items : List BatchItem := []
  nextRrDecodeIdx : Nat := 0
  nextRrPrefillIdx : Nat := 0
  decodeTokCount : Int := 0
  prefillTokCount : Int := 0
  deriving DecidableEq, Repr

/-- `INT_MAX`. -/
def intMax : Int := 2 ^ 31 - 1

/-- `kBurst`. -/
def burst : Int := 16

/-- The plan so far and the budget left. -/
structure Planning where
  plan : Plan := {}
  budget : Int

/-- The fds of the sessions that pass a readiness test, in iteration order. -/
def readyFds (ready : ClientSession → Bool) (sessions : SessionPool) : List Int :=
  sessions.entries.filterMap fun e => if ready e.2 then some e.2.fd else none

/-- `pool[(rr + i) % N]` for `i < N`. -/
def rotated (pool : List Int) (rr : Nat) : List Int :=
  (List.range pool.length).map fun i => pool.getD ((rr + i) % pool.length) (-1)

/-- One turn of the loop of phase A. -/
def planDecode (a : Planning) (fd : Int) : Planning :=
  if 0 < a.budget then
    { plan := { a.plan with items := a.plan.items ++ [⟨fd, .decode, 1⟩], decodeTokCount := a.plan.decodeTokCount + 1 }
      budget := a.budget - 1 }
  else a

/-- The chunk `schedule_pool` gives a session under the budget left. -/
def chunkFor (s : ClientSession) (budget : Int) : Int :=
  let remain := min (((s.promptTokens.length - s.prefillIdx : Nat)) : Int) intMax
  let chunk := min remain budget
  if s.firstEmitNs = 0 then min chunk burst else chunk

/-- One turn of the loop of `schedule_pool`. -/
def planPrefill (sessions : SessionPool) (a : Planning) (fd : Int) : Planning :=
  if a.budget ≤ 0 then a
  else
    match sessions.lookup fd with
    | none => a
    | some s =>
      let chunk := chunkFor s a.budget
      if chunk ≤ 0 then a
      else
        { plan := { a.plan with
            items := a.plan.items ++ [⟨fd, .prefill, chunk⟩]
            prefillTokCount := a.plan.prefillTokCount + chunk }
          budget := a.budget - chunk }

/-- The fds of a rotated prefill pool whose session has emitted nothing yet
(`first = true`), or has. -/
def emitPool (sessions : SessionPool) (first : Bool) (pool : List Int) : List Int :=
  pool.filter fun fd =>
    match sessions.lookup fd with
    | none => false
    | some s => (s.firstEmitNs = 0) == first

/-- Phase A: one token for each decode-ready session. -/
def phaseA (decodePool : List Int) (rrDecodeIdx : Nat) (a : Planning) : Planning :=
  if !decodePool.isEmpty && 0 < a.budget then
    let b := (rotated decodePool rrDecodeIdx).foldl planDecode a
    { b with plan := { b.plan with nextRrDecodeIdx := (rrDecodeIdx + 1) % decodePool.length } }
  else { a with plan := { a.plan with nextRrDecodeIdx := 0 } }

/-- Phase B: the rest of the budget, first-token sessions first. -/
def phaseB (sessions : SessionPool) (prefillPool : List Int) (rrPrefillIdx : Nat) (a : Planning) : Planning :=
  if !prefillPool.isEmpty && 0 < a.budget then
    let pool := rotated prefillPool rrPrefillIdx
    let b := (emitPool sessions true pool).foldl (planPrefill sessions) a
    let c := if 0 < b.budget then (emitPool sessions false pool).foldl (planPrefill sessions) b else b
    { c with plan := { c.plan with nextRrPrefillIdx := (rrPrefillIdx + 1) % prefillPool.length } }
  else { a with plan := { a.plan with nextRrPrefillIdx := 0 } }

/-- `BaselinePolicy::schedule_tick`. -/
def scheduleTick (sessions : SessionPool) (batchCap targetBatch : Int) (rrDecodeIdx rrPrefillIdx : Nat) : Plan :=
  let a : Planning := { budget := min targetBatch batchCap }
  let decodePool := readyFds ClientSession.decodeReady sessions
  let prefillPool := readyFds ClientSession.prefillReady sessions
  (phaseB sessions prefillPool rrPrefillIdx (phaseA decodePool rrDecodeIdx a)).plan

end UmaServe

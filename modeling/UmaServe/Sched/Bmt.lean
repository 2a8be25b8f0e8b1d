/-
`sched/bmt.cpp` and the guard of `Scheduler::tick` that uses it, in 64-bit
unsigned arithmetic as the source has it.
-/
import UmaServe.Sched.Policy

namespace UmaServe

/-- `(uint64_t)` of a signed integer. -/
def toU64 (z : Int) : UInt64 := UInt64.ofInt z

def sumArith (a₀ d n : UInt64) : UInt64 := (n * (2 * a₀ + (n - 1) * d)) / 2

/-- The cost of one item at its session's `n_past`. -/
def itemUnits (it : BatchItem) (nPast : Int) : UInt64 :=
  match it.phase with
  | .decode => toU64 (nPast + 1)
  | .prefill => sumArith (toU64 nPast + 1) 1 (toU64 (if 0 < it.nTokens then it.nTokens else 0))

/-- `estimate_units`. -/
def estimateUnits (sessions : SessionPool) (items : List BatchItem) : UInt64 :=
  items.foldl (fun total it =>
    match sessions.lookup it.fd with
    | none => total
    | some s => total + itemUnits it s.nPast) 0

/-- What the trimming loop keeps between its turns. -/
structure Trim where
  est : UInt64
  prefillTokCount : Int
  trimmed : Bool := false

/-- The inner loop: drop tokens from the end of a chunk of `n` while the
estimate is over budget. -/
def trimChunk (base budget : UInt64) : Nat → Trim → Nat × Trim
  | 0, t => (0, t)
  | n + 1, t =>
    if budget < t.est then
      trimChunk base budget n
        { est := t.est - (base + toU64 (n + 1 : Nat)), prefillTokCount := t.prefillTokCount - 1, trimmed := true }
    else (n + 1, t)

/-- One turn of the outer loop. -/
def trimItem (sessions : SessionPool) (budget : UInt64) (it : BatchItem) (t : Trim) : BatchItem × Trim :=
  if budget < t.est then
    if it.phase ≠ .prefill ∨ it.nTokens ≤ 0 then (it, t)
    else
      let base := toU64 (((sessions.lookup it.fd).map (·.nPast)).getD 0)
      let (n, t) := trimChunk base budget it.nTokens.toNat t
      ({ it with nTokens := n }, t)
  else (it, t)

/-- The outer loop, from the last item to the first. -/
def trimItems (sessions : SessionPool) (budget : UInt64) : List BatchItem → Trim → List BatchItem × Trim
  | [], t => ([], t)
  | it :: rest, t =>
    let (rest, t) := trimItems sessions budget rest t
    let (it, t) := trimItem sessions budget it t
    (it :: rest, t)

/-- The guard: the plan after trimming, the estimate, and whether anything
was trimmed. -/
def bmtGuard (budget : UInt64) (sessions : SessionPool) (plan : Plan) : Plan × UInt64 × Bool :=
  let est := estimateUnits sessions plan.items
  let (items, t) := trimItems sessions budget plan.items { est, prefillTokCount := plan.prefillTokCount }
  ({ plan with items, prefillTokCount := t.prefillTokCount }, t.est, t.trimmed)

end UmaServe

/-
`metrics/metrics.h` and `metrics/metrics.cpp`: the counters `Scheduler::tick`
updates, and their snapshot. The counters that only the debug snapshot shows
stand apart; they are llama's, or nothing writes them.
-/
import Mathlib.Data.NNRat.Defs
import Mathlib.Data.Rat.Floor
import UmaServe.Bytes

namespace UmaServe

structure Metrics where
  tokensGeneratedTotal : Nat := 0
  batchCallsTotal : Nat := 0
  lastBatchSize : Nat := 0
  decodeMsLast : Nat := 0
  decodeMsEwmaX1000 : Nat := 0
  decodeNsTotal : Nat := 0
  decodeCalls : Nat := 0
  decodeTokensTotal : Nat := 0
  decodeMsMin : Nat := 0xFFFFFFFF
  decodeMsMax : Nat := 0
  decodePhaseTokensTotal : Nat := 0
  prefillTokensTotal : Nat := 0
  decodeNsTotalGen : Nat := 0
  prefillNsTotal : Nat := 0
  bmtUnitsLast : UInt64 := 0
  bmtBudgetUnits : UInt64 := 0
  bmtGuardActivations : Nat := 0
  bmtGuardActive : Nat := 0

/-- The counters of `Metrics` that only the debug snapshot shows. -/
structure DebugMetrics where
  evalMsLast : Nat := 0
  pEvalMsLast : Nat := 0
  evalNsTotal : Nat := 0
  pEvalNsTotal : Nat := 0
  evalCalls : Nat := 0
  pEvalCalls : Nat := 0
  lastDecodeTokens : Nat := 0
  lastPrefillTokens : Nat := 0
  maxBatchSizeSeen : Nat := 0
  prefillCalls : Nat := 0

/-- Thousandths, rounded to nearest, ties to even. -/
def thousandths (q : ℚ≥0) : Nat :=
  let n := q.num * 1000 / q.den
  let r := q.num * 1000 % q.den
  if 2 * r < q.den ∨ 2 * r = q.den ∧ n % 2 = 0 then n else n + 1

/-- What is put into the stream: a counter, or a `double` behind `std::fixed`
and `std::setprecision(3)`. -/
inductive Printed
  | count (n : Nat)
  | fixed (q : ℚ≥0)

namespace Printed

def text : Printed → Bytes
  | count n => stdToString n
  | fixed q =>
    let digits := stdToString (thousandths q % 1000 : Nat)
    stdToString (thousandths q / 1000 : Nat) ++ chr '.' :: (List.replicate (3 - digits.length) (chr '0') ++ digits)

/-- What the text says. -/
def value : Printed → ℚ
  | count n => n
  | fixed q => (thousandths q : ℚ) / 1000

/-- What it is printed for. -/
def exact : Printed → ℚ
  | count n => n
  | fixed q => q

end Printed

namespace Metrics

/-- `set_decode_ms_ewma`. -/
def setDecodeMsEwma (m : Metrics) (ms : ℚ) : Metrics :=
  { m with decodeMsEwmaX1000 := ⌊(max ms 0) * 1000⌋.toNat }

/-- `get_decode_ms_ewma`. -/
def getDecodeMsEwma (m : Metrics) : ℚ≥0 := m.decodeMsEwmaX1000 / 1000

/-- `total` nanoseconds over `count`, in milliseconds. -/
def meanMs (total count : Nat) : ℚ≥0 := if count = 0 then 0 else total / count / 1000000

/-- The members of the snapshot, in order. -/
def members (m : Metrics) (p : DebugMetrics) (activeSessions : Nat) (debug : Bool) : List (String × Printed) :=
  [("tokens_generated_total", .count m.tokensGeneratedTotal),
    ("batch_calls_total", .count m.batchCallsTotal),
    ("last_batch_size", .count m.lastBatchSize),
    ("decode_ms_last", .count m.decodeMsLast),
    ("decode_ms_ewma", .fixed m.getDecodeMsEwma),
    ("decode_calls", .count m.decodeCalls),
    ("decode_ns_total", .count m.decodeNsTotal),
    ("decode_tokens_total", .count m.decodeTokensTotal),
    ("decode_ms_min", .count m.decodeMsMin),
    ("decode_ms_max", .count m.decodeMsMax),
    ("decode_ms_mean", .fixed (meanMs m.decodeNsTotal m.decodeCalls)),
    ("decode_tokens_per_call_mean", .fixed (if m.decodeCalls = 0 then 0 else m.decodeTokensTotal / m.decodeCalls)),
    ("decode_phase_tokens_total", .count m.decodePhaseTokensTotal),
    ("prefill_tokens_total", .count m.prefillTokensTotal),
    ("decode_ns_total_gen", .count m.decodeNsTotalGen),
    ("prefill_ns_total", .count m.prefillNsTotal),
    ("gen_ms_per_token_mean", .fixed (meanMs m.decodeNsTotalGen m.decodePhaseTokensTotal)),
    ("prefill_ms_per_token_mean", .fixed (meanMs m.prefillNsTotal m.prefillTokensTotal))] ++
  (if debug then
    [("eval_ms_last", .count p.evalMsLast),
      ("p_eval_ms_last", .count p.pEvalMsLast),
      ("eval_calls", .count p.evalCalls),
      ("p_eval_calls", .count p.pEvalCalls),
      ("eval_ns_total", .count p.evalNsTotal),
      ("p_eval_ns_total", .count p.pEvalNsTotal),
      ("eval_ms_mean", .fixed (meanMs p.evalNsTotal p.evalCalls)),
      ("p_eval_ms_mean", .fixed (meanMs p.pEvalNsTotal p.pEvalCalls))]
  else []) ++
  ("active_sessions", .count activeSessions) ::
  if debug then
    [("last_decode_tokens", .count p.lastDecodeTokens),
      ("last_prefill_tokens", .count p.lastPrefillTokens),
      ("max_batch_size_seen", .count p.maxBatchSizeSeen),
      ("prefill_calls", .count p.prefillCalls),
      ("bmt_units_last", .count m.bmtUnitsLast.toNat),
      ("bmt_budget_units", .count m.bmtBudgetUnits.toNat),
      ("bmt_guard_active", .count m.bmtGuardActive),
      ("bmt_guard_activations", .count m.bmtGuardActivations)]
  else []

/-- `to_json`. -/
def toJson (m : Metrics) (p : DebugMetrics) (activeSessions : Nat) (debug : Bool) : Bytes :=
  let texts := (m.members p activeSessions debug).map fun f => chr '"' :: bytes f.1 ++ bytes "\":" ++ f.2.text
  chr '\x7b' :: List.intercalate [chr ','] texts ++ [chr '\x7d']

end Metrics

end UmaServe

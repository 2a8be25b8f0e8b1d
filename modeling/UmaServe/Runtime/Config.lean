/-
`runtime/config.h`: the configuration fields the daemon reads after start-up,
with their defaults, and the one context parameter (`runtime/model.cpp`) a
result depends on.
-/
import Mathlib.Order.Basic

namespace UmaServe

structure RuntimeConfig where
  maxSessions : Nat := 16
  maxPromptBytes : Nat := 8192
  maxTokens : Nat := 64
  idleTimeoutSec : Nat := 300
  nSeqMax : Nat := 4
  sloTtftMs : Nat := 150
  sloTbtMs : Nat := 80
  /-- 0 disables the guard. -/
  bmtBudgetUnits : UInt64 := 0

/-- `make_context_params`: the number of sequences requested of the context. -/
def RuntimeConfig.contextSeqMax (cfg : RuntimeConfig) : Nat := max cfg.nSeqMax 1

end UmaServe

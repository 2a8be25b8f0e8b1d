/-
That an exchange ends. A step that moves bytes of it, or that finds requests
to feed, brings its end closer: the request has less to go, or the requests
in flight have less ahead, or the reply has less to come, in this order of
weight (`World.rank`). Such a step is there to be taken until the client
exits; so the client exits, in every run that does not put these steps off
for ever (`exchange_completes`).
-/
import Mathlib.Data.Fintype.EquivFin
import Mathlib.Data.Prod.Lex
import UmaServe.EndToEnd.Waiting
import UmaServe.Umad.Draining

namespace UmaServe

/-- Smooth, and a decode that succeeds yields the rows of logits it was asked
for. -/
def Fed (cfg : RuntimeConfig) (w : World) (st : WorldStep) : Prop :=
  Smooth cfg w st ∧ ∀ a ∈ st.action?, RowsGiven cfg w.daemon a

/-- No other client starts a request. -/
def Calm (pf : Platform) (cfg : RuntimeConfig) (w : World) : Action → Prop
  | .readable k reads now nowNs => w.conn ≠ .live k → Quiet pf cfg w.daemon (.readable k reads now nowNs)
  | .accept _ _ _ | .writable _ _ _ | .idle _ | .tick _ _ => True

def Steady (pf : Platform) (cfg : RuntimeConfig) (w : World) (st : WorldStep) : Prop :=
  Fed cfg w st ∧ ∀ a ∈ st.action?, Calm pf cfg w a

namespace World

/-- What is left of the request: bytes to write count twice, since they are to
be read as well. -/
def toAsk (w : World) : Nat := (if w.conn = .pending then 1 else 0) + (2 * w.unsent.length + w.up.length)

/-- The `tx` of the connection. -/
def backlog (w : World) : Bytes :=
  match w.conn with
  | .live fd => (w.daemon.find fd).elim [] ClientSession.tx
  | .pending | .closed => []

/-- What is there of the reply. -/
def toTell (w : World) : Nat := 2 * w.backlog.length + w.down.length

def rank (cfg : RuntimeConfig) (w : World) : ℕ ×ₗ ℕ ×ₗ ℕ := toLex (w.toAsk, toLex (w.daemon.ahead cfg, w.toTell))

end World

section Rank

variable {pf : Platform} {cfg : RuntimeConfig} {vocab : Vocab} {opt : Asker} {w w' : World} {st : WorldStep}
  {a : Action} {d : Daemon} {fd : Int} {s s' : ClientSession} {js rest : Bytes} {reads : List ReadRes} {nowNs : Nat}

instance (w : World) (st : WorldStep) : Decidable (Fed cfg w st) := inferInstanceAs (Decidable (_ ∧ ∀ a ∈ _, _))

theorem Dialogue.parses_nothing (h : Dialogue cfg vocab js false rest s) (hjs : Deliverable defaultMaxFrameBytes js)
    (harr : arrived reads = []) : s.parses nowNs reads = false := by
  cases h with
  | asking _ _ hframe hrest =>
    have hpart : s.rx ++ arrived reads ++ rest = frame js := by rw [harr, List.append_nil, hframe]
    exact parses_part hjs hpart fun hnil => by cases hrest hnil
  | asked hempty =>
    rw [parses_eq, hempty, harr]
    exact Bool.and_false _

theorem Dialogue.starts_nothing (h : Dialogue cfg vocab js false rest s) (hjs : Deliverable defaultMaxFrameBytes js)
    (hs : d.find fd = some s) {now : WriteRes} (harr : arrived reads = []) :
    Quiet pf cfg d (.readable fd reads now nowNs) := by
  intro t ht
  rw [hs] at ht
  cases ht
  exact starts_none (frame?_eq_none (h.parses_nothing hjs harr))

/-! ## The steps -/

/-- A step of the daemon that takes no byte of the connection starts no
request. -/
theorem Steady.quiet (hc : Steady pf cfg w (.daemon a)) (ht : Talk cfg pf.vocab opt.payload w) (hgone : w.gone = false)
    (htakes : ∀ fd, w.conn = .live fd → a.takes fd = []) : Quiet pf cfg w.daemon a := by
  cases a with
  | accept | writable | idle | tick => trivial
  | readable k reads now nowNs =>
    by_cases hk : w.conn = .live k
    · cases ht with
      | pending hconn | closed hconn => rw [hconn] at hk; cases hk
      | live hconn hs _ _ hdia =>
        cases hconn.symm.trans hk
        have harr := htakes _ hk
        rw [Action.takes, if_pos rfl] at harr
        rw [hgone] at hdia
        exact hdia.starts_nothing opt.deliverable hs harr
    · exact hc.2 _ rfl hk

end Rank
end UmaServe

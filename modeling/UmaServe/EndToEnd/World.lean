/-
`uma-cli` and `umad`, with the socket between them. One run of the client is
watched; the other clients of the daemon are whatever they are. A step is a
step of the daemon, a `write` or a `read` of the client, or the `accept` of
its connection. The socket is two streams of bytes, and the kernel may hold
bytes back and cut them anywhere.
-/
import UmaServe.Cli.ExitStatus
import UmaServe.Cli.Request
import UmaServe.Umad.Wire

namespace UmaServe

deriving instance DecidableEq for WriteRes

/-- The options of a client that comes to send its request: `main` has set the
id and looked for the prompt, and a frame can carry the request. -/
structure Asker extends CliOptions where
  prompt_ne : metrics = false → prompt ≠ []
  fits : toCliOptions.payload.length ≤ defaultMaxFrameBytes

/-- What one `write` of `send_all` returns. -/
inductive SendReturn
  | wrote (n : Nat)
  /-- `errno` is `EINTR`, `EAGAIN` or `EWOULDBLOCK`. -/
  | again
  /-- Another error, and its text. -/
  | failed (strerror : Bytes)
  deriving DecidableEq

/-- The connection, as the daemon has it. -/
inductive Conn
  | pending
  | live (fd : Int)
  | closed
  deriving DecidableEq

structure World where
  daemon : Daemon
  conn : Conn := .pending
  /-- What `send_all` has still to write. -/
  unsent : Bytes
  /-- Written by the client, and not yet read by the daemon. -/
  up : Bytes := []
  /-- Written by the daemon, and not yet read by the client. -/
  down : Bytes := []
  cli : Cli
  /-- History: what the client has read. -/
  read : Bytes := []
  /-- History: that of the session, which outlives it. -/
  hist : History := {}

inductive WorldStep
  | daemon (a : Action)
  /-- The daemon accepts the client on `fd`. -/
  | connect (fd : Int) (order : List Int) (nowNs : Nat)
  | send (r : SendReturn)
  | recv (r : ReadReturn)

/-- The bytes a step of the daemon reads from `fd`. -/
def Action.takes (fd : Int) : Action → Bytes
  | .readable k reads _ _ => if k = fd then arrived reads else []
  | .accept _ _ _ | .writable _ _ _ | .idle _ | .tick _ _ => []

namespace World

/-- The client process is over, and its end of the socket closed. -/
def gone (w : World) : Bool := w.cli.exitCode.isSome

/-- The connection after a step that leaves the daemon as `d`. -/
def connIn (d : Daemon) (fd : Int) : Conn := if (d.find fd).isSome then .live fd else .closed

def next (pf : Platform) (cfg : RuntimeConfig) (w : World) : WorldStep → World
  | .daemon a =>
    let d := w.daemon.step pf cfg a
    match w.conn with
    | .live fd =>
      { w with
        daemon := d
        conn := connIn d fd
        up := w.up.drop (a.takes fd).length
        down := w.down ++ w.daemon.writes pf cfg fd a
        hist := w.daemon.history pf cfg fd a }
    | .pending | .closed => { w with daemon := d }
  | .connect fd order nowNs =>
    let d := w.daemon.step pf cfg (.accept fd order nowNs)
    { w with daemon := d, conn := connIn d fd }
  | .send r =>
    match r with
    | .wrote n => { w with unsent := w.unsent.drop n, up := w.up ++ w.unsent.take n }
    | .again => w
    | .failed strerror => { w with cli := (w.cli.printErr (bytes "send: " ++ strerror ++ [chr '\n'])).exit 3 }
  | .recv r =>
    { w with
      cli := w.cli.onRead r
      read := match r with | .data bs => w.read ++ bs | _ => w.read
      down := match r with | .data bs => w.down.drop bs.length | _ => w.down }

/-- What the socket allows a step of the daemon on `fd`: bytes come in the
order they were sent; the end of the stream, once the client is over; and
reads and writes fail only then. -/
def Carries (w : World) (fd : Int) : Action → Prop
  | .readable k reads _ _ => k = fd →
      arrived reads <+: w.up ∧ (readEnd reads = .eof → w.gone = true ∧ arrived reads = w.up) ∧
        (readEnd reads = .error → w.gone = true)
  | .writable k ws _ => k = fd → WriteRes.error ∈ ws → w.gone = true
  | .accept _ _ _ | .idle _ | .tick _ _ => True

/-- The same, for the connection there is. -/
def Allows (w : World) (a : Action) : Conn → Prop
  | .live fd => w.Carries fd a
  | .pending | .closed => True

/-- What it takes from a `write` of the client: nothing, once the daemon has
closed the connection. -/
def Accepts (w : World) : SendReturn → Prop
  | .wrote n => w.conn ≠ .closed ∧ n ≤ w.unsent.length
  | .again | .failed _ => True

/-- What it gives a `read` of the client: the end of the stream only once the
daemon has closed the connection. -/
def Offers (w : World) : ReadReturn → Prop
  | .data bs => bs ≠ [] ∧ bs.length ≤ w.cli.asks ∧ bs <+: w.down
  | .eof => 0 < w.cli.asks ∧ w.conn = .closed ∧ w.down = []
  | .interrupted | .failed _ => 0 < w.cli.asks

/-- `main` reads once `send_all` is done. -/
def Enabled (pf : Platform) (cfg : RuntimeConfig) (w : World) : WorldStep → Prop
  | .daemon a => w.daemon.Enabled pf cfg a ∧ w.Allows a w.conn
  | .connect fd order nowNs => w.conn = .pending ∧ w.daemon.Enabled pf cfg (.accept fd order nowNs)
  | .send r => w.unsent ≠ [] ∧ w.gone = false ∧ w.Accepts r
  | .recv r => w.unsent = [] ∧ w.Offers r

instance (w : World) (fd : Int) : ∀ a, Decidable (w.Carries fd a)
  | .readable _ _ _ _ => inferInstanceAs (Decidable (_ → _ ∧ (_ → _ ∧ _) ∧ (_ → _)))
  | .writable _ _ _ => inferInstanceAs (Decidable (_ → _ → _))
  | .accept _ _ _ | .idle _ | .tick _ _ => inferInstanceAs (Decidable True)

instance (w : World) (a : Action) : ∀ c, Decidable (w.Allows a c)
  | .live fd => inferInstanceAs (Decidable (w.Carries fd a))
  | .pending | .closed => inferInstanceAs (Decidable True)

instance (w : World) : ∀ r, Decidable (w.Accepts r)
  | .wrote _ => inferInstanceAs (Decidable (_ ∧ _))
  | .again | .failed _ => inferInstanceAs (Decidable True)

instance (w : World) : ∀ r, Decidable (w.Offers r)
  | .data _ => inferInstanceAs (Decidable (_ ∧ _ ∧ _))
  | .eof => inferInstanceAs (Decidable (_ ∧ _ ∧ _))
  | .interrupted | .failed _ => inferInstanceAs (Decidable (_ < _))

instance (pf : Platform) (cfg : RuntimeConfig) (w : World) : ∀ st, Decidable (w.Enabled pf cfg st)
  | .daemon _ | .connect _ _ _ | .recv _ => inferInstanceAs (Decidable (_ ∧ _))
  | .send _ => inferInstanceAs (Decidable (_ ∧ _ ∧ _))

end World

/-- One client and the daemon, from the start of both. -/
def world (pf : Platform) (cfg : RuntimeConfig) (opt : Asker) : Lib.System World WorldStep where
  init :=
    { daemon := (umad pf cfg).init
      unsent := writeFrame [] opt.payload
      cli := { metrics := opt.metrics } }
  enabled := World.Enabled pf cfg
  next := World.next pf cfg

instance (pf : Platform) (cfg : RuntimeConfig) (opt : Asker) (w : World) (st : WorldStep) :
    Decidable ((world pf cfg opt).enabled w st) := inferInstanceAs (Decidable (w.Enabled pf cfg st))

/-! ## The daemon in the world -/

/-- What the daemon does in a step of the world. -/
def WorldStep.action? : WorldStep → Option Action
  | .daemon a => some a
  | .connect fd order nowNs => some (.accept fd order nowNs)
  | .send _ | .recv _ => none

section Refines

variable {pf : Platform} {cfg : RuntimeConfig} {opt : Asker} {w : World} {st : WorldStep} {a : Action}
  {C : World → WorldStep → Prop} {D : Daemon → Action → Prop}

theorem next_daemon (w : World) (st : WorldStep) :
    (w.next pf cfg st).daemon = match st.action? with
      | some a => w.daemon.step pf cfg a
      | none => w.daemon := by
  cases st with
  | daemon a =>
    simp only [World.next, WorldStep.action?]
    cases w.conn <;> rfl
  | connect => rfl
  | send r => cases r <;> rfl
  | recv => rfl

theorem enabled_daemon (he : w.Enabled pf cfg st) (ha : st.action? = some a) : w.daemon.Enabled pf cfg a := by
  cases st with
  | daemon b =>
    cases ha
    exact he.1
  | connect fd order nowNs =>
    cases ha
    exact he.2
  | send | recv => cases ha

/-- **The daemon of the world is `umad`**: whatever the client and the socket
do, its steps are steps of `umad`. -/
theorem daemon_reach (hC : ∀ w st a, C w st → st.action? = some a → D w.daemon a)
    (h : (world pf cfg opt).Reach C w) : (umad pf cfg).Reach D w.daemon := by
  refine h.refine World.daemon rfl fun w st _ he hc => ?_
  rw [show ((world pf cfg opt).next w st).daemon = _ from next_daemon w st]
  cases ha : st.action? with
  | none => exact .inl rfl
  | some a => exact .inr ⟨a, enabled_daemon he ha, hC w st a hc ha, rfl⟩

end Refines
end UmaServe

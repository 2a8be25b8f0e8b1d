/-
The receive loop of `cli/main.cpp`. A step is one call of `read`; what the
call returns is the environment's choice, out of the stream the server sends
before it closes.

The header is read by one call and the payload in a loop. So a payload may
arrive in any number of parts, and a header that does not arrive as a whole
ends the loop (`receive_fragments`).
-/
import UmaServe.Lib.System
import UmaServe.Cli.Events
import UmaServe.Ipc.Delivery

namespace UmaServe

/-- What `read` returns: a positive count, 0, or -1. -/
inductive ReadReturn
  | data (bs : Bytes)
  | eof
  /-- `errno` is `EINTR`. -/
  | interrupted
  /-- Another error, and its text. -/
  | failed (strerror : Bytes)
  deriving DecidableEq

/-- The next call of `read`: for a header, for the rest of a payload of `len`
bytes behind `js`, or none. -/
inductive Awaiting
  | header
  | payload (len : Nat) (js : Bytes)
  | exited (code : Nat)
  deriving DecidableEq

structure Cli where
  /-- `opt.metrics`. -/
  metrics : Bool := false
  /-- `errno` is `EINTR`. -/
  eintr : Bool := false
  awaiting : Awaiting := .header
  out : Bytes := []
  err : Bytes := []
  deriving DecidableEq

namespace Cli

def exit (c : Cli) (code : Nat) : Cli := { c with awaiting := .exited code }

def print (c : Cli) (text : Bytes) : Cli := { c with out := c.out ++ text }

def printErr (c : Cli) (text : Bytes) : Cli := { c with err := c.err ++ text }

/-- The loop's body once a payload is there. -/
def onFrame (c : Cli) (js : Bytes) : Cli :=
  if c.metrics then (c.print (js ++ [chr '\n'])).exit 0
  else
    let event := jsonGetString js (bytes "event")
    if event = bytes "token" then
      let text := jsonGetString js (bytes "text")
      let c := if text.isEmpty then c else c.print text
      { c with awaiting := .header }
    else if event = bytes "eos" then (c.print [chr '\n']).exit 0
    else if event = bytes "error" then
      let msg := jsonGetString js (bytes "message")
      let msg := if msg.isEmpty then js else msg
      (c.printErr (msg ++ [chr '\n'])).exit 2
    else if event = bytes "metrics" then (c.print (js ++ [chr '\n'])).exit 0
    else { c.print (js ++ [chr '\n']) with awaiting := .header }

/-- `off != len`. -/
def shortPayload (c : Cli) : Cli := (c.printErr (bytes "short payload read\n")).exit 0

/-- `n != 4`. -/
def shortHeader (c : Cli) : Cli := (c.printErr (bytes "short header read\n")).exit 0

/-- The `n` bytes of a header. -/
def onHeader (c : Cli) : Bytes → Cli
  | [p₀, p₁, p₂, p₃] =>
    let len := (readU32Le p₀ p₁ p₂ p₃).toNat
    if 0 < len then { c with awaiting := .payload len [] } else c.onFrame []
  | _ => c.shortHeader

/-- The payload loop, `js` read so far. -/
def onPayload (c : Cli) (len : Nat) (js : Bytes) : Cli :=
  if js.length < len then { c with awaiting := .payload len js }
  else if js.length ≠ len then c.shortPayload
  else c.onFrame js

/-- What is done with what `read` returns. At the end of the stream the
payload loop looks at the `errno` of an earlier call. -/
def onRead (c : Cli) (r : ReadReturn) : Cli :=
  match c.awaiting, r with
  | .header, .data bs => c.onHeader bs
  | .header, .eof => c.exit 0
  | .header, .interrupted => { c with eintr := true }
  | .header, .failed strerror =>
    { c.printErr (bytes "read: " ++ strerror ++ [chr '\n']) with eintr := false }.exit 3
  | .payload len js, .data bs => c.onPayload len (js ++ bs)
  | .payload _ _, .eof => if c.eintr then c else c.shortPayload
  | .payload _ _, .interrupted => { c with eintr := true }
  | .payload _ _, .failed _ => { c with eintr := false }.shortPayload
  | .exited _, _ => c

/-- The size passed to `read`. -/
def asks (c : Cli) : Nat :=
  match c.awaiting with
  | .header => 4
  | .payload len js => len - js.length
  | .exited _ => 0

def exitCode (c : Cli) : Option Nat :=
  match c.awaiting with
  | .exited code => some code
  | .header | .payload _ _ => none

/-- What is seen of the process. -/
def output (c : Cli) : Bytes × Bytes × Option Nat := (c.out, c.err, c.exitCode)

end Cli

/-- The client, what it has read, and what is still to come. -/
structure Receiving where
  cli : Cli
  read : Bytes := []
  coming : Bytes
  deriving DecidableEq

namespace Receiving

/-- `read` returns at least one byte and at most what was asked for, and 0
when there is nothing left. -/
def Enabled (d : Receiving) : ReadReturn → Prop
  | .data bs => bs ≠ [] ∧ bs.length ≤ d.cli.asks ∧ bs <+: d.coming
  | .eof => 0 < d.cli.asks ∧ d.coming = []
  | .interrupted | .failed _ => 0 < d.cli.asks

instance (d : Receiving) : ∀ r, Decidable (d.Enabled r)
  | .data _ => inferInstanceAs (Decidable (_ ∧ _ ∧ _))
  | .eof => inferInstanceAs (Decidable (_ ∧ _))
  | .interrupted | .failed _ => inferInstanceAs (Decidable (_ < _))

def next (d : Receiving) (r : ReadReturn) : Receiving :=
  { cli := d.cli.onRead r
    read := match r with | .data bs => d.read ++ bs | _ => d.read
    coming := match r with | .data bs => d.coming.drop bs.length | _ => d.coming }

end Receiving

/-- The receive loop, on the stream of a server. `eintr` is the `errno` it
starts with. -/
def receiving (metrics eintr : Bool) (stream : Bytes) : Lib.System Receiving ReadReturn where
  init := { cli := { metrics, eintr }, coming := stream }
  enabled := Receiving.Enabled
  next := Receiving.next

instance (metrics eintr : Bool) (stream : Bytes) (d : Receiving) (r : ReadReturn) :
    Decidable ((receiving metrics eintr stream).enabled d r) := inferInstanceAs (Decidable (d.Enabled r))

/-- The event a payload carries, as the client reads it. -/
def eventOf (js : Bytes) : Bytes := jsonGetString js (bytes "event")

/-- What a payload makes of the client. -/
inductive Handled (c : Cli) (js : Bytes) : Cli → Prop
  | goesOn {out : Bytes} : c.metrics = false →
      (∀ w ∈ [bytes "eos", bytes "error", bytes "metrics"], eventOf js ≠ w) →
      Handled c js { c with out := out, awaiting := .header }
  | answered {out : Bytes} : (c.metrics = false → eventOf js = bytes "eos" ∨ eventOf js = bytes "metrics") →
      Handled c js { c with out := out, awaiting := .exited 0 }
  | refused {err : Bytes} : c.metrics = false → eventOf js = bytes "error" →
      Handled c js { c with err := err, awaiting := .exited 2 }

/-- The client when header and payload of every frame come whole: the
payloads one by one, until one ends it or the stream does. -/
def Cli.play (c : Cli) : List Bytes → Cli
  | [] => c.exit 0
  | js :: ps =>
    match (c.onFrame js).awaiting with
    | .exited _ => c.onFrame js
    | .header | .payload _ _ => (c.onFrame js).play ps

/-! ## Frames -/

section Frames

variable {c goal : Cli} {js : Bytes} {ps : List Bytes} {code : Nat}

theorem onFrame_handled (c : Cli) (js : Bytes) : Handled c js (c.onFrame js) := by
  unfold Cli.onFrame
  dsimp only
  split
  next hm => exact .answered fun h => by rw [hm] at h; cases h
  next hm =>
    rw [Bool.not_eq_true] at hm
    split
    next hk =>
      have hno : ∀ w ∈ [bytes "eos", bytes "error", bytes "metrics"], eventOf js ≠ w := by
        rw [eventOf, hk]
        with_unfolding_all decide
      split
      · exact .goesOn hm hno
      · exact .goesOn hm hno
    split
    next hk => exact .answered fun _ => .inl hk
    split
    next hk => exact .refused hm hk
    split
    next hk => exact .answered fun _ => .inr hk
    next heos herr hmet => exact .goesOn hm (by simp [eventOf, heos, herr, hmet])

theorem onFrame_awaiting (a : Awaiting) : ({ c with awaiting := a } : Cli).onFrame js = c.onFrame js := by
  unfold Cli.onFrame
  dsimp only
  split
  · rfl
  split
  · split <;> rfl
  · rfl

theorem play_awaiting (a : Awaiting) : ({ c with awaiting := a } : Cli).play ps = c.play ps := by
  cases ps with
  | nil => rfl
  | cons js ps => simp only [Cli.play, onFrame_awaiting]

theorem exitCode_eq_some : c.exitCode = some code ↔ c.awaiting = .exited code := by
  unfold Cli.exitCode
  cases c.awaiting with
  | exited => simp
  | header | payload => simp

theorem play_exited (h : (c.onFrame js).awaiting = .exited code) : c.play (js :: ps) = c.onFrame js := by
  simp only [Cli.play, h]

theorem play_header (h : (c.onFrame js).awaiting = .header) : c.play (js :: ps) = (c.onFrame js).play ps := by
  simp only [Cli.play, h]

theorem play_err (h : (c.play ps).awaiting = .exited 0) : (c.play ps).err = c.err := by
  induction ps generalizing c with
  | nil => rfl
  | cons js ps ih =>
    have hh := onFrame_handled c js
    generalize ht : c.onFrame js = t at hh
    cases hh with
    | goesOn =>
      rw [play_header (by rw [ht]), ht] at h ⊢
      exact ih h
    | answered => rw [play_exited (by rw [ht]), ht]
    | refused =>
      rw [play_exited (by rw [ht]), ht] at h
      cases h

end Frames

/-! ## Fragments -/

/-- Every read returns bytes, or the end of the stream. -/
def Uninterrupted : Receiving → ReadReturn → Prop
  | _, .data _ | _, .eof => True
  | _, .interrupted | _, .failed _ => False

/-- Every read returns all it is asked for, as long as there is so much. -/
def Whole (d : Receiving) : ReadReturn → Prop
  | .data bs => bs.length = min d.cli.asks d.coming.length
  | .eof => True
  | .interrupted | .failed _ => False

/-- A read of a header returns all four bytes. -/
def WholeHeader (d : Receiving) : ReadReturn → Prop
  | .data bs => d.cli.awaiting = .header → bs.length = 4
  | .eof | .interrupted | .failed _ => True

/-- The client will be `goal`, if every header comes whole. -/
inductive Ahead (goal : Cli) : Receiving → Prop
  | header {c : Cli} {read : Bytes} {ps : List Bytes} : c.awaiting = .header → (∀ p ∈ ps, p.length < 2 ^ 32) →
      c.play ps = goal → Ahead goal ⟨c, read, ps.flatMap frame⟩
  | payload {c : Cli} {read js rest : Bytes} {ps : List Bytes} : c.awaiting = .payload (js ++ rest).length js →
      rest ≠ [] → (∀ p ∈ ps, p.length < 2 ^ 32) → c.play ((js ++ rest) :: ps) = goal →
      Ahead goal ⟨c, read, rest ++ ps.flatMap frame⟩
  | exited {read coming : Bytes} {code : Nat} : goal.awaiting = .exited code → Ahead goal ⟨goal, read, coming⟩

section Fragments

variable {goal c : Cli} {d : Receiving} {r : ReadReturn} {p read bs stream : Bytes} {ps : List Bytes} {code : Nat}
  {metrics eintr : Bool} {rs : List ReadReturn}

theorem Ahead.framed (hps : ∀ p ∈ ps, p.length < 2 ^ 32) (hgoal : c.play (p :: ps) = goal) :
    Ahead goal ⟨c.onFrame p, read, ps.flatMap frame⟩ := by
  have hh := onFrame_handled c p
  generalize ht : c.onFrame p = t at hh
  cases hh with
  | goesOn =>
    rw [play_header (by rw [ht]), ht] at hgoal
    exact .header rfl hps hgoal
  | answered | refused =>
    rw [play_exited (by rw [ht]), ht] at hgoal
    subst hgoal
    exact .exited rfl

theorem onHeader_header (hp : p.length < 2 ^ 32) : c.onHeader (header p.length.toUInt32) =
    if 0 < p.length then { c with awaiting := .payload p.length [] } else c.onFrame [] := by
  obtain ⟨p₀, p₁, p₂, p₃, hh, hl⟩ := header_eq p.length.toUInt32
  have hlen : p.length.toUInt32.toNat = p.length := by simpa using hp
  rw [hh, Cli.onHeader, hl, hlen]

theorem onHeader_short (h : bs.length ≠ 4) : c.onHeader bs = c.shortHeader := by
  unfold Cli.onHeader
  split
  · exact absurd rfl h
  · rfl

theorem frame_append (p : Bytes) (s : Bytes) : frame p ++ s = header p.length.toUInt32 ++ (p ++ s) := by
  rw [frame, writeFrame, List.nil_append, List.append_assoc]

theorem prefix_eq {s t : Bytes} (h : bs <+: s ++ t) (hlen : bs.length = s.length) : bs = s :=
  (List.prefix_of_prefix_length_le h (List.prefix_append s t) hlen.le).eq_of_length hlen

instance (d : Receiving) : ∀ r, Decidable (Uninterrupted d r)
  | .data _ | .eof => inferInstanceAs (Decidable True)
  | .interrupted | .failed _ => inferInstanceAs (Decidable False)

instance (d : Receiving) : ∀ r, Decidable (Whole d r)
  | .data _ => inferInstanceAs (Decidable (_ = _))
  | .eof => inferInstanceAs (Decidable True)
  | .interrupted | .failed _ => inferInstanceAs (Decidable False)

instance (d : Receiving) : ∀ r, Decidable (WholeHeader d r)
  | .data _ => inferInstanceAs (Decidable (_ → _))
  | .eof | .interrupted | .failed _ => inferInstanceAs (Decidable True)

theorem Ahead.headed (hps : ∀ q ∈ p :: ps, q.length < 2 ^ 32) (hgoal : c.play (p :: ps) = goal) :
    Ahead goal ⟨c.onHeader (UmaServe.header p.length.toUInt32), read, p ++ ps.flatMap frame⟩ := by
  obtain ⟨hp, hps'⟩ := List.forall_mem_cons.mp hps
  rw [onHeader_header hp]
  split
  next hpos =>
    refine @Ahead.payload goal _ read [] p ps rfl (List.length_pos_iff.mp hpos) hps' ?_
    rw [play_awaiting]
    exact hgoal
  next hpos =>
    obtain rfl : p = [] := List.eq_nil_of_length_eq_zero (by omega)
    exact .framed hps' hgoal

/-- More of a payload is there. -/
theorem Ahead.filled {js more : Bytes} (hps : ∀ p ∈ ps, p.length < 2 ^ 32)
    (hgoal : c.play ((js ++ (bs ++ more)) :: ps) = goal) :
    Ahead goal ⟨c.onPayload (js ++ (bs ++ more)).length (js ++ bs), read, more ++ ps.flatMap frame⟩ := by
  unfold Cli.onPayload
  split
  next hlt =>
    refine @Ahead.payload goal _ read (js ++ bs) more ps ?_ ?_ hps ?_
    · rw [List.append_assoc]
    · rintro rfl
      simp at hlt
    · rw [play_awaiting, List.append_assoc]
      exact hgoal
  next hge =>
    obtain rfl : more = [] := by
      rw [List.length_append, List.length_append, List.length_append] at hge
      exact List.eq_nil_of_length_eq_zero (by omega)
    rw [List.append_nil] at hgoal ⊢
    rw [if_neg (by simp), List.nil_append]
    exact .framed hps hgoal

/-- **A read keeps the goal**, if it returns a whole header. -/
theorem Ahead.step (h : Ahead goal d) (he : d.Enabled r) (hu : Uninterrupted d r) (hw : WholeHeader d r) :
    Ahead goal (d.next r) := by
  cases r with
  | interrupted | failed => cases hu
  | eof =>
    obtain ⟨hasks, hend⟩ := he
    cases h with
    | @header c read ps ha hps hgoal =>
      cases ps with
      | nil =>
        rw [Cli.play] at hgoal
        subst hgoal
        simp only [Receiving.next, Cli.onRead, ha]
        exact .exited rfl
      | cons p ps =>
        rw [List.flatMap_cons, frame_append] at hend
        cases hend
    | payload ha hne => exact absurd (List.append_eq_nil_iff.mp hend).1 hne
    | exited ha =>
      rw [Cli.asks, ha] at hasks
      cases hasks
  | data bs =>
    obtain ⟨hne, hle, hpre⟩ := he
    cases h with
    | @header c read ps ha hps hgoal =>
      cases ps with
      | nil => exact absurd (List.prefix_nil.mp hpre) hne
      | cons p ps =>
        simp only [List.flatMap_cons, frame_append] at hpre ⊢
        obtain rfl := prefix_eq hpre (hw ha)
        simp only [Receiving.next, Cli.onRead, ha, List.drop_left]
        exact .headed hps hgoal
    | @payload c read js rest ps ha hrest hps hgoal =>
      have hle : bs.length ≤ rest.length := by
        simp only [Cli.asks, ha, List.length_append] at hle
        omega
      obtain ⟨more, rfl⟩ := List.prefix_of_prefix_length_le hpre (List.prefix_append rest _) hle
      simp only [Receiving.next, Cli.onRead, ha]
      rw [List.append_assoc, List.drop_left]
      exact .filled hps hgoal
    | exited ha =>
      rw [Cli.asks, ha] at hle
      exact absurd (List.eq_nil_of_length_eq_zero (Nat.le_zero.mp hle)) hne

theorem next_short (h : ¬ (d.cli.awaiting = .header → bs.length = 4)) :
    d.cli.awaiting = .header ∧ bs.length ≠ 4 ∧ (d.next (.data bs)).cli = d.cli.shortHeader := by
  obtain ⟨ha, hfour⟩ := Classical.not_imp.mp h
  exact ⟨ha, hfour, by simp only [Receiving.next, Cli.onRead, ha, onHeader_short hfour]⟩

/-- A read of a part of a header ends it, with an output that is not the
goal's: exit code 0, and a message. -/
theorem Ahead.short (h : Ahead goal d) (he : d.Enabled r) (hw : ¬ WholeHeader d r) :
    (d.next r).cli.awaiting = .exited 0 ∧ (d.next r).cli.output ≠ goal.output := by
  cases r with
  | eof | interrupted | failed => exact absurd trivial hw
  | data bs =>
    obtain ⟨ha, -, hnext⟩ := next_short hw
    rw [hnext]
    refine ⟨rfl, fun heq => ?_⟩
    have herr : d.cli.shortHeader.err = goal.err := congrArg (fun o => o.2.1) heq
    have hcode : d.cli.shortHeader.exitCode = goal.exitCode := congrArg (fun o => o.2.2) heq
    cases h with
    | header _ hps hgoal =>
      rw [← hgoal] at herr hcode
      rw [play_err (exitCode_eq_some.mp hcode.symm)] at herr
      have hmsg := List.append_right_eq_self.mp herr
      exact absurd hmsg (by with_unfolding_all decide)
    | payload hp => rw [hp] at ha; cases ha
    | exited hx => rw [hx] at ha; cases ha

/-! ### Runs -/

theorem not_enabled (h : d.cli.awaiting = .exited code) : ¬ d.Enabled r := by
  have hasks : d.cli.asks = 0 := by rw [Cli.asks, h]
  intro he
  cases r with
  | data bs => exact he.1 (List.eq_nil_of_length_eq_zero (Nat.le_zero.mp (hasks ▸ he.2.1)))
  | eof => exact absurd he.1 (by omega)
  | interrupted | failed => exact absurd he (by simp only [Receiving.Enabled]; omega)

theorem run_exited {C : Receiving → ReadReturn → Prop} (h : d.cli.awaiting = .exited code)
    (hr : (receiving metrics eintr stream).Run C d rs) : rs = [] := by
  cases rs with
  | nil => rfl
  | cons r rs => exact absurd hr.1 (not_enabled h)

/-- Of the runs to the exit, those with whole headers show what the goal
shows, and the others do not. -/
theorem Ahead.run_iff (h : Ahead goal d) (hr : (receiving metrics eintr stream).Run Uninterrupted d rs)
    (hx : ((receiving metrics eintr stream).after d rs).cli.exitCode = some code) :
    ((receiving metrics eintr stream).after d rs).cli.output = goal.output ↔
      (receiving metrics eintr stream).Run WholeHeader d rs := by
  induction rs generalizing d with
  | nil =>
    refine iff_of_true ?_ trivial
    have ha : d.cli.awaiting = .exited code := exitCode_eq_some.mp hx
    cases h with
    | header hh | payload hh => rw [hh] at ha; cases ha
    | exited => rfl
  | cons r rs ih =>
    obtain ⟨he, hu, hr⟩ := hr
    by_cases hw : WholeHeader d r
    · exact (ih (h.step he hu hw) hr hx).trans ⟨fun hrun => ⟨he, hw, hrun⟩, fun hrun => hrun.2.2⟩
    · obtain ⟨hexit, hne⟩ := h.short he hw
      obtain rfl := run_exited hexit hr
      exact iff_of_false hne fun hrun => hw hrun.2.1

/-- The bytes to come, and one more for the exit. -/
def Receiving.left (d : Receiving) : Nat := d.coming.length + if d.cli.exitCode = none then 1 else 0

theorem exitCode_none (he : d.Enabled r) : d.cli.exitCode = none := by
  cases hc : d.cli.exitCode with
  | none => rfl
  | some code => exact absurd he (not_enabled (exitCode_eq_some.mp hc))

theorem Ahead.left_lt (h : Ahead goal d) (he : d.Enabled r) (hu : Uninterrupted d r) : (d.next r).left < d.left := by
  have hone : d.left = d.coming.length + 1 := by rw [Receiving.left, exitCode_none he, if_pos rfl]
  rw [hone]
  cases r with
  | interrupted | failed => cases hu
  | eof =>
    have hend := he.2
    have hexit : (d.next .eof).cli.exitCode = some 0 := by
      cases h with
      | header ha => simp only [Receiving.next, Cli.onRead, ha, Cli.exit, Cli.exitCode]
      | payload ha hne => exact absurd (List.append_eq_nil_iff.mp hend).1 hne
      | exited ha => exact absurd he (not_enabled ha)
    rw [Receiving.left, hexit]
    simp [Receiving.next]
  | data bs =>
    have hpos := List.length_pos_iff.mpr he.1
    have hle := he.2.2.length_le
    have hflag : (if (d.next (.data bs)).cli.exitCode = none then 1 else 0) ≤ 1 := by split <;> decide
    simp only [Receiving.left, Receiving.next, List.length_drop] at hflag ⊢
    omega

theorem Ahead.run_length (h : Ahead goal d) (hr : (receiving metrics eintr stream).Run Uninterrupted d rs) :
    rs.length ≤ d.left := by
  induction rs generalizing d with
  | nil => exact Nat.zero_le _
  | cons r rs ih =>
    obtain ⟨he, hu, hr⟩ := hr
    have hlt : (d.next r).left < d.left := h.left_lt he hu
    by_cases hw : WholeHeader d r
    · have := ih (h.step he hu hw) hr
      rw [List.length_cons]
      omega
    · obtain rfl := run_exited (h.short he hw).1 hr
      rw [List.length_cons, List.length_nil]
      omega

theorem Ahead.reply (h : Ahead goal d) (hx : d.cli.exitCode = none) :
    ∃ r, d.Enabled r ∧ Uninterrupted d r ∧ Whole d r ∧ WholeHeader d r := by
  cases h with
  | @header c read ps ha hps hgoal =>
    cases ps with
    | nil => exact ⟨.eof, ⟨by rw [Cli.asks, ha]; decide, rfl⟩, trivial, trivial, trivial⟩
    | cons p ps =>
      refine ⟨.data (UmaServe.header p.length.toUInt32), ⟨List.cons_ne_nil _ _, ?_, ?_⟩, trivial, ?_, fun _ => rfl⟩
      · rw [Cli.asks, ha]
        exact le_refl _
      · simp only [List.flatMap_cons, frame_append]
        exact List.prefix_append _ _
      · simp only [Whole, Cli.asks, ha, List.flatMap_cons, frame_append, List.length_append, header_length]
        omega
  | @payload c read js rest ps ha hne hps hgoal =>
    refine ⟨.data rest, ⟨hne, ?_, List.prefix_append _ _⟩, trivial, ?_, fun hh => ?_⟩
    · simp only [Cli.asks, ha, List.length_append]
      omega
    · simp only [Whole, Cli.asks, ha, List.length_append]
      omega
    · rw [ha] at hh
      cases hh
  | exited ha =>
    rw [exitCode_eq_some.mpr ha] at hx
    cases hx

/-- On the way of an uninterrupted run. -/
theorem Ahead.after (h : Ahead goal d) (hr : (receiving metrics eintr stream).Run Uninterrupted d rs) :
    Ahead goal ((receiving metrics eintr stream).after d rs) ∨
      ((receiving metrics eintr stream).after d rs).cli.exitCode ≠ none := by
  induction rs generalizing d with
  | nil => exact .inl h
  | cons r rs ih =>
    obtain ⟨he, hu, hr⟩ := hr
    by_cases hw : WholeHeader d r
    · exact ih (h.step he hu hw) hr
    · have hexit := (h.short he hw).1
      obtain rfl := run_exited hexit hr
      refine .inr ?_
      rw [show (receiving metrics eintr stream).after d [r] = d.next r from rfl, exitCode_eq_some.mpr hexit]
      exact Option.some_ne_none 0

theorem Ahead.whole (h : Ahead goal d) (he : d.Enabled r) (hw : Whole d r) :
    Uninterrupted d r ∧ WholeHeader d r := by
  cases r with
  | interrupted | failed => cases hw
  | eof => exact ⟨trivial, trivial⟩
  | data bs =>
    refine ⟨trivial, fun ha => ?_⟩
    rw [show bs.length = _ from hw, Cli.asks, ha]
    cases h with
    | @header c read ps _ _ _ =>
      cases ps with
      | nil => exact absurd (List.prefix_nil.mp he.2.2) he.1
      | cons p ps =>
        simp only [List.flatMap_cons, frame_append, List.length_append, header_length]
        omega
    | payload hp => rw [hp] at ha; cases ha
    | exited hx => rw [hx] at ha; cases ha

theorem Ahead.run_whole (h : Ahead goal d) (hr : (receiving metrics eintr stream).Run Whole d rs) :
    (receiving metrics eintr stream).Run Uninterrupted d rs ∧ (receiving metrics eintr stream).Run WholeHeader d rs := by
  induction rs generalizing d with
  | nil => exact ⟨trivial, trivial⟩
  | cons r rs ih =>
    obtain ⟨he, hw, hr⟩ := hr
    obtain ⟨hu, hh⟩ := h.whole he hw
    obtain ⟨hru, hrh⟩ := ih (h.step he hu hh) hr
    exact ⟨⟨he, hu, hru⟩, ⟨he, hh, hrh⟩⟩

theorem Ahead.exists_whole (metrics eintr : Bool) (stream : Bytes) (h : Ahead goal d) :
    ∃ rs, (receiving metrics eintr stream).Run Whole d rs ∧
      ((receiving metrics eintr stream).after d rs).cli.exitCode ≠ none := by
  induction hn : d.left using Nat.strong_induction_on generalizing d with
  | h n ih =>
    by_cases hx : d.cli.exitCode = none
    · obtain ⟨r, he, hu, hw, hh⟩ := h.reply hx
      obtain ⟨rs, hr, hexit⟩ := ih _ (hn ▸ h.left_lt he hu) (h.step he hu hh) rfl
      exact ⟨r :: rs, ⟨he, hw, hr⟩, hexit⟩
    · exact ⟨[], trivial, hx⟩

end Fragments

/-- A payload whose length the header can hold. -/
abbrev Payload := { p : Bytes // p.length < 2 ^ 32 }

/-- The stream of a server that sends the frames and closes. -/
def streamOf (ps : List Payload) : Bytes := (ps.map Subtype.val).flatMap frame

theorem ahead_init (metrics eintr : Bool) (ps : List Payload) :
    Ahead (({ metrics, eintr } : Cli).play (ps.map Subtype.val)) (receiving metrics eintr (streamOf ps)).init := by
  have hps : ∀ p ∈ ps.map Subtype.val, p.length < 2 ^ 32 := by
    intro p hp
    obtain ⟨q, -, rfl⟩ := List.mem_map.mp hp
    exact q.2
  exact .header rfl hps rfl

/-- **Fragments.** On any frames, the loop exits after at most one read for
each byte and one for the end, however the stream is cut into reads. What it
then shows is what it shows when every read returns all it asks for, exactly
when no read of a header returns a part of it. -/
theorem receive_fragments (metrics eintr : Bool) (ps : List Payload) :
    let S := receiving metrics eintr (streamOf ps)
    (∃ ws, S.Run Whole S.init ws ∧ (S.after S.init ws).cli.exitCode ≠ none) ∧
    ∀ rs, S.Run Uninterrupted S.init rs →
      let d := S.after S.init rs
      rs.length ≤ (streamOf ps).length + 1 ∧
      (d.cli.exitCode = none → ∃ r, d.Enabled r ∧ Uninterrupted d r) ∧
      ∀ ws, S.Run Whole S.init ws → d.cli.exitCode ≠ none → (S.after S.init ws).cli.exitCode ≠ none →
        (d.cli.output = (S.after S.init ws).cli.output ↔ S.Run WholeHeader S.init rs) := by
  intro S
  have h := ahead_init metrics eintr ps
  refine ⟨h.exists_whole metrics eintr (streamOf ps), fun rs hr => ⟨h.run_length hr, fun hx => ?_, ?_⟩⟩
  · rcases h.after hr with hd | hd
    · obtain ⟨r, he, hu, -⟩ := hd.reply hx
      exact ⟨r, he, hu⟩
    · exact absurd hx hd
  · intro ws hws hd hw
    obtain ⟨code, hcode⟩ := Option.ne_none_iff_exists'.mp hd
    obtain ⟨code', hcode'⟩ := Option.ne_none_iff_exists'.mp hw
    obtain ⟨hwu, hwh⟩ := h.run_whole hws
    rw [(h.run_iff hwu hcode').mpr hwh]
    exact h.run_iff hr hcode

/-- The end of a response. -/
def eosFrame : Payload := ⟨eosPayload (bytes "r") (bytes "stop"), by with_unfolding_all decide⟩

/-- A payload in two parts. -/
def twoParts : List ReadReturn := [.data (header 40), .data (eosFrame.1.take 10), .data (eosFrame.1.drop 10)]

/-- All in one read. -/
def wholeReads : List ReadReturn := [.data (header 40), .data eosFrame.1]

theorem receive_fragments_eos :
    ((receiving false false (streamOf [eosFrame])).after (receiving false false (streamOf [eosFrame])).init
        twoParts).cli.output = ([chr '\n'], [], some 0) := by
  have hws : ((receiving false false (streamOf [eosFrame])).after (receiving false false (streamOf [eosFrame])).init
      wholeReads).cli.output = ([chr '\n'], [], some 0) := by decide +kernel
  obtain ⟨-, hall⟩ := receive_fragments false false [eosFrame]
  obtain ⟨-, -, hiff⟩ := hall twoParts (by decide +kernel)
  exact ((hiff wholeReads (by decide +kernel) (by decide +kernel) (by decide +kernel)).mpr (by decide +kernel)).trans hws

/-- Two bytes of the header: the client exits with 0 and has not read the
frame. -/
theorem receive_fragments_header :
    ∃ ps rs ws, (receiving false false (streamOf ps)).Run Uninterrupted (receiving false false (streamOf ps)).init rs ∧
      (receiving false false (streamOf ps)).Run Whole (receiving false false (streamOf ps)).init ws ∧
      ((receiving false false (streamOf ps)).after (receiving false false (streamOf ps)).init rs).cli.output =
        ([], bytes "short header read\n", some 0) ∧
      ((receiving false false (streamOf ps)).after (receiving false false (streamOf ps)).init ws).cli.output =
        ([chr '\n'], [], some 0) := by
  refine ⟨[eosFrame], [.data [40, 0]], wholeReads, ?_⟩
  decide +kernel

end UmaServe

/-
What the client prints. Whatever `read` returns, standard output is made of
the frames that were read to their end, one after another
(`Consumed.out_eq`). As long as headers come whole and no read fails, so is
standard error, and the exit code is that of the frame that ended the loop
(`Aligned.clean`, `Aligned.digested`).
-/
import UmaServe.Cli.ExitStatus

namespace UmaServe

/-- What a payload prints, and the exit code it ends the loop with. -/
structure Outcome where
  out : Bytes := []
  err : Bytes := []
  code : Option Nat := none
  deriving DecidableEq

def outcome (metrics : Bool) (js : Bytes) : Outcome :=
  if metrics then { out := js ++ [chr '\n'], code := some 0 }
  else if eventOf js = bytes "token" then { out := jsonGetString js (bytes "text") }
  else if eventOf js = bytes "eos" then { out := [chr '\n'], code := some 0 }
  else if eventOf js = bytes "error" then
    let msg := jsonGetString js (bytes "message")
    { err := (if msg.isEmpty then js else msg) ++ [chr '\n'], code := some 2 }
  else if eventOf js = bytes "metrics" then { out := js ++ [chr '\n'], code := some 0 }
  else { out := js ++ [chr '\n'] }

/-- The output of some frames. -/
def outOf (metrics : Bool) (ps : List Bytes) : Bytes := ps.flatMap fun p => (outcome metrics p).out

def errOf (metrics : Bool) (ps : List Bytes) : Bytes := ps.flatMap fun p => (outcome metrics p).err

/-- The client has handled these frames. -/
structure Digested (c : Cli) (ps : List Bytes) : Prop where
  sizes : ∀ p ∈ ps, p.length < 2 ^ 32
  out : c.out = outOf c.metrics ps
  err : c.err = errOf c.metrics ps

/-- None of them ends the loop. -/
def GoOn (metrics : Bool) (ps : List Bytes) : Prop := ∀ p ∈ ps, (outcome metrics p).code = none

/-- The client is at a header, in a payload, or gone with the last frame. -/
inductive Aligned : Receiving → Prop
  | header {c : Cli} {ps : List Bytes} {coming : Bytes} : c.awaiting = .header → Digested c ps → GoOn c.metrics ps →
      Aligned ⟨c, ps.flatMap frame, coming⟩
  | payload {c : Cli} {ps : List Bytes} {len : UInt32} {js coming : Bytes} : c.awaiting = .payload len.toNat js →
      js.length < len.toNat → Digested c ps → GoOn c.metrics ps →
      Aligned ⟨c, ps.flatMap frame ++ (UmaServe.header len ++ js), coming⟩
  | ended {c : Cli} {ps : List Bytes} {p coming : Bytes} {code : Nat} : c.awaiting = .exited code →
      Digested c (ps ++ [p]) → GoOn c.metrics ps → (outcome c.metrics p).code = some code →
      Aligned ⟨c, (ps ++ [p]).flatMap frame, coming⟩

/-- The client gave up before the end of a frame. -/
inductive Broken : Receiving → Prop
  | intro {c : Cli} {ps : List Bytes} {part coming : Bytes} {code : Nat} : c.awaiting = .exited code →
      (∀ p ∈ ps, p.length < 2 ^ 32) → takeFrame part = none → c.out = outOf c.metrics ps → GoOn c.metrics ps →
      Broken ⟨c, ps.flatMap frame ++ part, coming⟩

/-- In every run. -/
def Consumed (d : Receiving) : Prop := Aligned d ∨ Broken d

/-- A read that brings bytes, of a header all four, or is interrupted. -/
def Clean (d : Receiving) : ReadReturn → Prop
  | .data bs => d.cli.awaiting = .header → bs.length = 4
  | .interrupted => True
  | .eof | .failed _ => False

section Output

variable {c : Cli} {d : Receiving} {r : ReadReturn} {ps : List Bytes} {p js bs coming : Bytes} {code : Nat}

instance (d : Receiving) : ∀ r, Decidable (Clean d r)
  | .data _ => inferInstanceAs (Decidable (_ → _))
  | .interrupted => inferInstanceAs (Decidable True)
  | .eof | .failed _ => inferInstanceAs (Decidable False)

theorem onFrame_eq (c : Cli) (js : Bytes) : c.onFrame js =
    { c with
      out := c.out ++ (outcome c.metrics js).out
      err := c.err ++ (outcome c.metrics js).err
      awaiting := (outcome c.metrics js).code.elim .header .exited } := by
  unfold Cli.onFrame outcome eventOf
  dsimp only
  split
  · simp [Cli.print, Cli.exit]
  split
  · split
    next hnil => simp [List.isEmpty_iff.mp hnil]
    next => simp [Cli.print]
  split
  · simp [Cli.print, Cli.exit]
  split
  · simp [Cli.printErr, Cli.exit]
  split
  · simp [Cli.print, Cli.exit]
  · simp [Cli.print]

theorem Digested.onFrame (h : Digested c ps) (hp : p.length < 2 ^ 32) : Digested (c.onFrame p) (ps ++ [p]) := by
  rw [onFrame_eq]
  refine ⟨fun q hq => ?_, ?_, ?_⟩
  · rcases List.mem_append.mp hq with hq | hq
    · exact h.sizes q hq
    · rw [List.mem_singleton.mp hq]
      exact hp
  · simp only [h.out, outOf, List.flatMap_append, List.flatMap_singleton]
  · simp only [h.err, errOf, List.flatMap_append, List.flatMap_singleton]

theorem Aligned.framed (hd : Digested c ps) (hg : GoOn c.metrics ps) (hp : p.length < 2 ^ 32) :
    Aligned ⟨c.onFrame p, ps.flatMap frame ++ frame p, coming⟩ := by
  have hdig := hd.onFrame hp
  have hread : ps.flatMap frame ++ frame p = (ps ++ [p]).flatMap frame := by simp
  have hm : (c.onFrame p).metrics = c.metrics := by rw [onFrame_eq]
  have ha : (c.onFrame p).awaiting = (outcome c.metrics p).code.elim .header .exited := by rw [onFrame_eq]
  rw [hread]
  cases hcode : (outcome c.metrics p).code with
  | none =>
    rw [hcode] at ha
    refine .header ha hdig fun q hq => ?_
    rw [hm]
    rcases List.mem_append.mp hq with hq | hq
    · exact hg q hq
    · rw [List.mem_singleton.mp hq]
      exact hcode
  | some code =>
    rw [hcode] at ha
    exact .ended ha hdig (by rw [hm]; exact hg) (by rw [hm]; exact hcode)

theorem Aligned.headed {len : UInt32} (hd : Digested c ps) (hg : GoOn c.metrics ps) :
    Aligned ⟨c.onHeader (UmaServe.header len), ps.flatMap frame ++ UmaServe.header len, coming⟩ := by
  obtain ⟨p₀, p₁, p₂, p₃, hh, hlen⟩ := header_eq len
  have heq : c.onHeader (UmaServe.header len) =
      if 0 < len.toNat then { c with awaiting := .payload len.toNat [] } else c.onFrame [] := by
    rw [hh, Cli.onHeader, hlen]
  rw [heq]
  split
  next hpos =>
    have hpart : UmaServe.header len = UmaServe.header len ++ [] := (List.append_nil _).symm
    rw [hpart]
    exact .payload rfl hpos ⟨hd.sizes, hd.out, hd.err⟩ hg
  next hzero =>
    have hnil : UmaServe.header len = frame [] := by
      have h0 : len = 0 := UInt32.toNat_inj.mp (by rw [UInt32.toNat_zero]; omega)
      rw [h0]
      rfl
    rw [hnil]
    exact Aligned.framed hd hg (by simp)

/-- More of a payload is there. -/
theorem Aligned.filled {len : UInt32} (hle : (js ++ bs).length ≤ len.toNat) (hd : Digested c ps)
    (hg : GoOn c.metrics ps) :
    Aligned ⟨c.onPayload len.toNat (js ++ bs), ps.flatMap frame ++ (UmaServe.header len ++ (js ++ bs)), coming⟩ := by
  unfold Cli.onPayload
  split
  next hmore => exact .payload rfl hmore ⟨hd.sizes, hd.out, hd.err⟩ hg
  next hall =>
    have heq : (js ++ bs).length = len.toNat := by omega
    have hframe : UmaServe.header len ++ (js ++ bs) = frame (js ++ bs) := by
      rw [← List.append_nil (frame _), frame_append, List.append_nil, heq]
      simp
    rw [if_neg (by omega), hframe]
    exact Aligned.framed hd hg (heq ▸ len.toNat_lt)

/-- **A clean read** goes on, or ends with the frame it completes. -/
theorem Aligned.clean (h : Aligned d) (he : d.Enabled r) (hr : Clean d r) : Aligned (d.next r) := by
  cases h with
  | ended ha => exact absurd he (not_enabled ha)
  | header ha hd hg =>
    cases r with
    | eof | failed => cases hr
    | interrupted =>
      simp only [Receiving.next, Cli.onRead, ha]
      exact .header rfl ⟨hd.sizes, hd.out, hd.err⟩ hg
    | data bs =>
      obtain ⟨len, rfl⟩ := header_of_four (hr ha)
      simp only [Receiving.next, Cli.onRead, ha]
      exact .headed hd hg
  | payload ha hlt hd hg =>
    cases r with
    | eof | failed => cases hr
    | interrupted =>
      simp only [Receiving.next, Cli.onRead, ha]
      exact .payload rfl hlt ⟨hd.sizes, hd.out, hd.err⟩ hg
    | data bs =>
      have hle := he.2.1
      simp only [Cli.asks, ha] at hle
      simp only [Receiving.next, Cli.onRead, ha]
      rw [List.append_assoc, List.append_assoc]
      exact .filled (by rw [List.length_append]; omega) hd hg

/-- **Any other read** changes nothing, or ends the loop with nothing
printed. -/
theorem Aligned.unclean (h : Aligned d) (he : d.Enabled r) (hr : ¬ Clean d r) : Consumed (d.next r) := by
  cases h with
  | ended ha => exact absurd he (not_enabled ha)
  | @header c ps coming ha hd hg =>
    cases r with
    | interrupted => exact absurd trivial hr
    | eof | failed =>
      simp only [Receiving.next, Cli.onRead, ha]
      rw [← List.append_nil (ps.flatMap frame)]
      exact .inr (.intro rfl hd.sizes rfl hd.out hg)
    | data bs =>
      have hne : bs.length ≠ 4 := fun hlen => hr fun _ => hlen
      have hle := he.2.1
      simp only [Cli.asks, ha] at hle
      simp only [Receiving.next, Cli.onRead, ha, onHeader_short hne]
      exact .inr (.intro rfl hd.sizes (takeFrame_short (by omega)) hd.out hg)
  | payload ha hlt hd hg =>
    cases r with
    | interrupted => exact absurd trivial hr
    | eof =>
      simp only [Receiving.next, Cli.onRead, ha]
      split
      · exact .inl (.payload ha hlt hd hg)
      · exact .inr (.intro rfl hd.sizes (takeFrame_header.trans (if_pos hlt)) hd.out hg)
    | failed =>
      simp only [Receiving.next, Cli.onRead, ha]
      exact .inr (.intro rfl hd.sizes (takeFrame_header.trans (if_pos hlt)) hd.out hg)
    | data bs => exact absurd (fun h => by rw [ha] at h; cases h) hr

theorem Consumed.step (h : Consumed d) (he : d.Enabled r) : Consumed (d.next r) := by
  rcases h with h | h
  · by_cases hr : Clean d r
    · exact .inl (h.clean he hr)
    · exact h.unclean he hr
  · cases h with
    | intro ha => exact absurd he (not_enabled ha)

/-- The frames that were read, of which only the last ends the loop. -/
theorem Aligned.digested (h : Aligned d) : Digested d.cli (received d.read) ∧
    (d.cli.exitCode = none → GoOn d.cli.metrics (received d.read)) ∧
    ∀ code, d.cli.exitCode = some code →
      ∃ ps p, received d.read = ps ++ [p] ∧ (outcome d.cli.metrics p).code = some code := by
  cases h with
  | header ha hd hg =>
    rw [received_frames hd.sizes]
    exact ⟨hd, fun _ => hg, fun code hx => by rw [Cli.exitCode, ha] at hx; cases hx⟩
  | payload ha hlt hd hg =>
    rw [received_part hd.sizes hlt]
    exact ⟨hd, fun _ => hg, fun code hx => by rw [Cli.exitCode, ha] at hx; cases hx⟩
  | ended ha hd hg hcode =>
    rw [received_frames hd.sizes]
    refine ⟨hd, fun hx => (by rw [Cli.exitCode, ha] at hx; cases hx), fun code hx => ⟨_, _, rfl, ?_⟩⟩
    rw [Cli.exitCode, ha] at hx
    cases hx
    exact hcode

/-- **Standard output** is made of the frames that were read to their end. -/
theorem Consumed.out_eq (h : Consumed d) : d.cli.out = outOf d.cli.metrics (received d.read) := by
  rcases h with h | h
  · cases h with
    | header _ hd => rw [received_frames hd.sizes, hd.out]
    | payload _ hlt hd => rw [received_part hd.sizes hlt, hd.out]
    | ended _ hd => rw [received_frames hd.sizes, hd.out]
  · cases h with
    | intro _ hsizes hpart hout => rw [received_eq hsizes hpart, hout]

end Output
end UmaServe

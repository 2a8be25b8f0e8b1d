/-
The exit code of the client. A complete `eos`, `error` or `metrics` event
gives the code it should, and so does a failed read at the start of a frame;
but the end of the stream gives 0 and not 3, and so do a header that comes in
parts and a failed read inside a payload (`exit_status`).
-/
import UmaServe.Cli.Receive

namespace UmaServe

/-! ## What was received -/

/-- The first frame, if all of it is there. -/
def takeFrame : Bytes → Option (Bytes × Bytes)
  | p₀ :: p₁ :: p₂ :: p₃ :: body =>
    let len := (readU32Le p₀ p₁ p₂ p₃).toNat
    if body.length < len then none else some (body.take len, body.drop len)
  | _ => none

section Frames

variable {p s part : Bytes} {ps : List Bytes}

theorem takeFrame_header {len : UInt32} {body : Bytes} : takeFrame (header len ++ body) =
    if body.length < len.toNat then none else some (body.take len.toNat, body.drop len.toNat) := by
  obtain ⟨p₀, p₁, p₂, p₃, hh, hl⟩ := header_eq len
  rw [hh, ← hl]
  rfl

theorem takeFrame_short (h : s.length < 4) : takeFrame s = none := by
  unfold takeFrame
  split
  · simp at h
    omega
  · rfl

theorem toUInt32_toNat (h : s.length < 2 ^ 32) : s.length.toUInt32.toNat = s.length := by simpa using h

/-- The frames of a stream, of whatever length. -/
def wholeFrames : Lib.Framing Bytes UInt8 where
  enc := frame
  dec := takeFrame
  valid p := p.length < 2 ^ 32
  dec_nil := rfl
  dec_enc p r hp := by
    rw [frame_append, takeFrame_header, toUInt32_toNat hp]
    simp
  dec_short p a b hp hf hb := by
    rw [← List.append_nil (frame p), frame_append, List.append_nil] at hf
    by_cases ha : a.length < 4
    · exact takeFrame_short ha
    -- The header lies in `a`; what is missing is part of the payload.
    obtain ⟨body, rfl⟩ := List.prefix_of_prefix_length_le (hf ▸ List.prefix_append _ p) (List.prefix_append a b)
      (by rw [header_length]; omega)
    rw [List.append_assoc, List.append_cancel_left_eq] at hf
    have hpos := List.length_pos_iff.mpr hb
    rw [takeFrame_header, toUInt32_toNat hp, if_pos (by rw [hf, List.length_append]; omega)]

/-- The payloads of the frames that were read to their end. -/
def received (read : Bytes) : List Bytes := (wholeFrames.drain read.length read).1

theorem received_eq (hps : ∀ p ∈ ps, p.length < 2 ^ 32) (hpart : takeFrame part = none) :
    received (ps.flatMap frame ++ part) = ps := by
  have h : wholeFrames.drain (ps.flatMap frame ++ part).length (ps.flatMap frame ++ part) = (ps, part) :=
    Lib.Framing.drain_flatMap hps hpart (le_refl _)
  rw [received, h]

theorem header_of_four (h : s.length = 4) : ∃ len, s = header len := by
  obtain ⟨p₀, p₁, p₂, p₃, rfl⟩ : ∃ p₀ p₁ p₂ p₃, s = [p₀, p₁, p₂, p₃] := by
    match s, h with
    | [p₀, p₁, p₂, p₃], _ => exact ⟨p₀, p₁, p₂, p₃, rfl⟩
  obtain ⟨q₀, q₁, q₂, q₃, hh, hl⟩ := header_eq (readU32Le p₀ p₁ p₂ p₃)
  refine ⟨readU32Le p₀ p₁ p₂ p₃, ?_⟩
  have heq := congrArg UInt32.toNat hl
  rw [readU32Le_toNat, readU32Le_toNat] at heq
  have hp₀ := p₀.toNat_lt
  have hp₁ := p₁.toNat_lt
  have hp₂ := p₂.toNat_lt
  have hp₃ := p₃.toNat_lt
  have hq₀ := q₀.toNat_lt
  have hq₁ := q₁.toNat_lt
  have hq₂ := q₂.toNat_lt
  have hq₃ := q₃.toNat_lt
  rw [hh]
  simp only [List.cons.injEq, ← UInt8.toNat_inj, and_true]
  omega

end Frames

/-! ## The names of the events -/

def Event.name : Event → Bytes
  | .token _ _ _ => bytes "token"
  | .eos _ _ => bytes "eos"
  | .error _ _ _ => bytes "error"
  | .metrics _ => bytes "metrics"

theorem metricsPayload_eq (json : Bytes) : metricsPayload json =
    chr '\x7b' :: fields [(bytes "event", [chr ':']), (bytes "metrics", [chr ',']),
      (bytes "metrics", chr ':' :: json ++ [chr '\x7d'])] := by
  have hopen : bytes "\x7b\"event\":\"metrics\",\"metrics\":" = chr '\x7b' :: chr '"' :: jsonEscape (bytes "event") ++
      chr '"' :: chr ':' :: chr '"' :: jsonEscape (bytes "metrics") ++ chr '"' :: chr ',' :: chr '"' ::
      jsonEscape (bytes "metrics") ++ [chr '"', chr ':'] := by with_unfolding_all decide
  have hclose : bytes "\x7d" = [chr '\x7d'] := by with_unfolding_all decide
  rw [metricsPayload, hopen, hclose]
  simp [fields]

/-- **The client reads which event it is**, of every event the server sends. -/
theorem eventOf_payload (e : Event) : eventOf e.payload = e.name := by
  cases e with
  | token id text tokenId =>
    rw [Event.payload, tokenPayload_eq]
    exact get_name (by simp)
  | eos id reason =>
    rw [Event.payload, eosPayload_eq]
    exact get_name (by simp)
  | error id code message =>
    rw [Event.payload, errorPayload_eq]
    exact get_name (by simp)
  | metrics json =>
    have hkey : IsName (bytes "event") := isName_key (by simp)
    have hbrace : chr '"' ∉ [chr '\x7b'] := by decide
    rw [Event.payload, metricsPayload_eq, eventOf, jsonGetString_eq, ← List.singleton_append, quoted, List.cons_append,
      seek_append hbrace, ← List.cons_append, ← quoted, seek_fields hkey (by decide), if_pos (.inl rfl),
      Option.bind_some, readBody_value hkey, reread_eq_iff.mpr (legible_names _ (by simp))]
    rfl

/-! ## The exit code -/

/-- A payload that does not end the loop. -/
def Silent (js : Bytes) : Prop := ∀ w ∈ [bytes "eos", bytes "error", bytes "metrics"], eventOf js ≠ w

/-- The connection is over. -/
def ReadReturn.ends : ReadReturn → Bool
  | .eof | .failed _ => true
  | .data _ | .interrupted => false

/-- The exit code is true, after these reads: 0 and 2 only on a complete event
of their kind, and 3 when the connection ends before any such event. -/
structure Truthful (rs : List ReadReturn) (d : Receiving) : Prop where
  success : d.cli.exitCode = some 0 →
    ∃ js ∈ received d.read, eventOf js = bytes "eos" ∨ eventOf js = bytes "metrics"
  failure : d.cli.exitCode = some 2 → ∃ js ∈ received d.read, eventOf js = bytes "error"
  lost : (∃ r ∈ rs, r.ends = true) → (∀ js ∈ received d.read, Silent js) → d.cli.exitCode = some 3

/-- A header is read as a whole; the stream does not end, and no read fails
but that of a header. -/
def Faultless (d : Receiving) : ReadReturn → Prop
  | .data bs => d.cli.awaiting = .header → bs.length = 4
  | .eof => False
  | .interrupted => True
  | .failed _ => d.cli.awaiting = .header

instance (d : Receiving) : ∀ r, Decidable (Faultless d r)
  | .data _ => inferInstanceAs (Decidable (_ → _))
  | .eof => inferInstanceAs (Decidable False)
  | .interrupted => inferInstanceAs (Decidable True)
  | .failed _ => inferInstanceAs (Decidable (_ = _))

/-- In the loop of a generation request, behind frames that did not end it. -/
inductive Midway : Receiving → Prop
  | header {c : Cli} {ps : List Bytes} {coming : Bytes} : c.metrics = false → c.awaiting = .header →
      (∀ p ∈ ps, p.length < 2 ^ 32) → (∀ p ∈ ps, Silent p) → Midway ⟨c, ps.flatMap frame, coming⟩
  | payload {c : Cli} {ps : List Bytes} {len : UInt32} {js coming : Bytes} : c.metrics = false →
      c.awaiting = .payload len.toNat js → js.length < len.toNat →
      (∀ p ∈ ps, p.length < 2 ^ 32) → (∀ p ∈ ps, Silent p) →
      Midway ⟨c, ps.flatMap frame ++ (UmaServe.header len ++ js), coming⟩

/-- Gone with the code it should. -/
inductive Settled (d : Receiving) : Prop
  | answered : d.cli.awaiting = .exited 0 →
      (∃ js ∈ received d.read, eventOf js = bytes "eos" ∨ eventOf js = bytes "metrics") → Settled d
  | refused : d.cli.awaiting = .exited 2 → (∃ js ∈ received d.read, eventOf js = bytes "error") → Settled d
  | broken : d.cli.awaiting = .exited 3 → Settled d

/-- No event has ended it, and it is gone with code 0, or waits in a payload
for bytes that will not come. -/
structure Untold (d : Receiving) : Prop where
  silent : ∀ js ∈ received d.read, Silent js
  at' : d.cli.awaiting = .exited 0 ∨ d.coming = [] ∧ ∃ len js, d.cli.awaiting = .payload len js

section Status

variable {d : Receiving} {r : ReadReturn} {rs : List ReadReturn} {c : Cli} {ps : List Bytes} {p bs coming stream : Bytes}
  {metrics eintr : Bool}

theorem received_frames (hps : ∀ p ∈ ps, p.length < 2 ^ 32) : received (ps.flatMap frame) = ps := by
  have h : received (ps.flatMap frame ++ []) = ps := received_eq hps rfl
  rwa [List.append_nil] at h

theorem received_part (hps : ∀ p ∈ ps, p.length < 2 ^ 32) {len : UInt32} {js : Bytes} (hlt : js.length < len.toNat) :
    received (ps.flatMap frame ++ (header len ++ js)) = ps :=
  received_eq hps (by rw [takeFrame_header, if_pos hlt])

theorem Midway.silent (h : Midway d) : ∀ js ∈ received d.read, Silent js := by
  cases h with
  | header hm ha hps hsil =>
    rw [received_frames hps]
    exact hsil
  | payload hm ha hlt hps hsil =>
    rw [received_part hps hlt]
    exact hsil

theorem Midway.running (h : Midway d) : d.cli.exitCode = none := by
  cases h with
  | header hm ha | payload hm ha => rw [Cli.exitCode, ha]

/-- A payload is there. -/
theorem Midway.framed (hm : c.metrics = false) (hps : ∀ p ∈ ps, p.length < 2 ^ 32) (hsil : ∀ p ∈ ps, Silent p)
    (hp : p.length < 2 ^ 32) :
    Midway ⟨c.onFrame p, ps.flatMap frame ++ frame p, coming⟩ ∨
      Settled ⟨c.onFrame p, ps.flatMap frame ++ frame p, coming⟩ := by
  have hread : ps.flatMap frame ++ frame p = (ps ++ [p]).flatMap frame := by simp
  have hps' : ∀ q ∈ ps ++ [p], q.length < 2 ^ 32 := by
    rw [List.forall_mem_append, List.forall_mem_singleton]
    exact ⟨hps, hp⟩
  have hmem : p ∈ received ((ps ++ [p]).flatMap frame) := by
    rw [received_frames hps']
    exact List.mem_append_right _ List.mem_cons_self
  have hh := onFrame_handled c p
  rw [hread]
  generalize c.onFrame p = t at hh
  cases hh with
  | goesOn _ hno =>
    refine .inl (.header hm rfl hps' ?_)
    rw [List.forall_mem_append, List.forall_mem_singleton]
    exact ⟨hsil, hno⟩
  | answered hk => exact .inr (.answered rfl ⟨p, hmem, hk hm⟩)
  | refused _ hk => exact .inr (.refused rfl ⟨p, hmem, hk⟩)

/-- The header is there. -/
theorem Midway.headed {len : UInt32} (hm : c.metrics = false) (hps : ∀ p ∈ ps, p.length < 2 ^ 32)
    (hsil : ∀ p ∈ ps, Silent p) :
    Midway ⟨c.onHeader (UmaServe.header len), ps.flatMap frame ++ UmaServe.header len, coming⟩ ∨
      Settled ⟨c.onHeader (UmaServe.header len), ps.flatMap frame ++ UmaServe.header len, coming⟩ := by
  obtain ⟨p₀, p₁, p₂, p₃, hh, hl⟩ := header_eq len
  have hon : c.onHeader (UmaServe.header len) =
      if 0 < len.toNat then { c with awaiting := .payload len.toNat [] } else c.onFrame [] := by
    rw [hh, Cli.onHeader, hl]
  rw [hon]
  split
  next hpos =>
    rw [← List.append_nil (UmaServe.header len)]
    exact .inl (.payload hm rfl hpos hps hsil)
  next hzero =>
    have hnil : UmaServe.header len = frame [] := by
      obtain rfl : len = 0 := UInt32.toNat_inj.mp (by simpa using hzero)
      rfl
    rw [hnil]
    exact Midway.framed hm hps hsil (by decide)

/-- **A faultless read** goes on, or ends with the code it should. -/
theorem Midway.step (h : Midway d) (he : d.Enabled r) (ho : Faultless d r) :
    Midway (d.next r) ∧ r.ends = false ∨ Settled (d.next r) := by
  cases r with
  | eof => cases ho
  | interrupted =>
    refine .inl ⟨?_, rfl⟩
    cases h with
    | header hm ha hps hsil =>
      simp only [Receiving.next, Cli.onRead, ha]
      exact .header hm rfl hps hsil
    | payload hm ha hlt hps hsil =>
      simp only [Receiving.next, Cli.onRead, ha]
      exact .payload hm rfl hlt hps hsil
  | failed text =>
    have ha : d.cli.awaiting = .header := ho
    exact .inr (.broken (by simp only [Receiving.next, Cli.onRead, ha, Cli.exit]))
  | data bs =>
    have hdone : Midway (d.next (.data bs)) ∨ Settled (d.next (.data bs)) := by
      cases h with
      | header hm ha hps hsil =>
        obtain ⟨len, rfl⟩ := header_of_four (ho ha)
        simp only [Receiving.next, Cli.onRead, ha]
        exact Midway.headed hm hps hsil
      | @payload c ps len js coming hm ha hlt hps hsil =>
        have hle : bs.length ≤ len.toNat - js.length := by
          have := he.2.1
          simp only [Cli.asks, ha] at this
          exact this
        have hlen : (js ++ bs).length = js.length + bs.length := List.length_append
        simp only [Receiving.next, Cli.onRead, ha, Cli.onPayload]
        rw [List.append_assoc, List.append_assoc]
        split
        next hmore => exact .inl (.payload hm rfl hmore hps hsil)
        next hall =>
          have heq : (js ++ bs).length = len.toNat := by omega
          have hfit : (js ++ bs).length < 2 ^ 32 := heq ▸ len.toNat_lt
          have hframe : UmaServe.header len ++ (js ++ bs) = frame (js ++ bs) := by
            rw [← List.append_nil (frame _), frame_append, List.append_nil, heq]
            simp
          rw [if_neg (by omega), hframe]
          exact Midway.framed hm hps hsil hfit
    rcases hdone with hmid | hset
    · exact .inl ⟨hmid, rfl⟩
    · exact .inr hset

/-- **Any other read** leaves the request untold. -/
theorem Midway.untold (h : Midway d) (he : d.Enabled r) (ho : ¬ Faultless d r) : Untold (d.next r) := by
  cases r with
  | interrupted => exact absurd trivial ho
  | eof =>
    refine ⟨h.silent, ?_⟩
    cases h with
    | header hm ha => exact .inl (by simp only [Receiving.next, Cli.onRead, ha, Cli.exit])
    | payload hm ha =>
      simp only [Receiving.next, Cli.onRead, ha]
      split
      · exact .inr ⟨he.2, _, _, ha⟩
      · exact .inl rfl
  | failed text =>
    refine ⟨h.silent, .inl ?_⟩
    cases h with
    | header hm ha => exact absurd ha ho
    | payload hm ha => simp only [Receiving.next, Cli.onRead, ha, Cli.shortPayload, Cli.exit]
  | data bs =>
    obtain ⟨ha, hfour, hnext⟩ := next_short ho
    have hle : bs.length ≤ 4 := by
      have := he.2.1
      simp only [Cli.asks, ha] at this
      exact this
    refine ⟨?_, .inl (congrArg Cli.awaiting hnext)⟩
    cases h with
    | payload hm hp => rw [hp] at ha; cases ha
    | header hm _ hps hsil =>
      simp only [Receiving.next]
      rw [received_eq hps (takeFrame_short (by omega))]
      exact hsil

theorem Untold.step (h : Untold d) (he : d.Enabled r) : Untold (d.next r) := by
  obtain ⟨hsil, ha | ⟨hend, len, js, ha⟩⟩ := h
  · exact absurd he (not_enabled ha)
  · cases r with
    | data bs =>
      have hpre := he.2.2
      rw [hend] at hpre
      exact absurd (List.prefix_nil.mp hpre) he.1
    | eof =>
      refine ⟨hsil, ?_⟩
      simp only [Receiving.next, Cli.onRead, ha]
      split
      · exact .inr ⟨hend, len, js, ha⟩
      · exact .inl rfl
    | interrupted => exact ⟨hsil, .inr ⟨hend, len, js, by simp only [Receiving.next, Cli.onRead, ha]⟩⟩
    | failed text => exact ⟨hsil, .inl (by simp only [Receiving.next, Cli.onRead, ha, Cli.shortPayload, Cli.exit])⟩

theorem Untold.run (h : Untold d) (hr : (receiving metrics eintr stream).Run Lib.Always d rs) :
    Untold ((receiving metrics eintr stream).after d rs) := by
  induction rs generalizing d with
  | nil => exact h
  | cons r rs ih => exact ih (h.step hr.1) hr.2.2

theorem silent_ne {js w : Bytes} (h : Silent js) (hw : w ∈ [bytes "eos", bytes "error", bytes "metrics"])
    (heq : eventOf js = w) : False := h w hw heq

/-- The code is not true: it is 0, or there is none though the connection is
over. -/
theorem Untold.not_truthful (h : Untold d) (hr : d.cli.exitCode = none → ∃ r ∈ rs, r.ends = true) :
    ¬ Truthful rs d := by
  intro ht
  rcases h.at' with ha | ⟨-, len, js, ha⟩
  · obtain ⟨js, hjs, hk⟩ := ht.success (exitCode_eq_some.mpr ha)
    rcases hk with hk | hk
    · exact silent_ne (h.silent js hjs) (by simp) hk
    · exact silent_ne (h.silent js hjs) (by simp) hk
  · have hnone : d.cli.exitCode = none := by rw [Cli.exitCode, ha]
    have hthree := ht.lost (hr hnone) h.silent
    rw [hnone] at hthree
    cases hthree

theorem Settled.exited (h : Settled d) : ∃ code, d.cli.awaiting = .exited code := by
  cases h with
  | answered ha | refused ha | broken ha => exact ⟨_, ha⟩

theorem Settled.truthful (h : Settled d) : Truthful rs d := by
  cases h with
  | answered ha hjs =>
    have hcode := exitCode_eq_some.mpr ha
    refine ⟨fun _ => hjs, fun h => ?_, fun _ hall => ?_⟩
    · rw [hcode] at h
      cases h
    · obtain ⟨js, hmem, hk⟩ := hjs
      rcases hk with hk | hk
      · exact (silent_ne (hall js hmem) (by simp) hk).elim
      · exact (silent_ne (hall js hmem) (by simp) hk).elim
  | refused ha hjs =>
    have hcode := exitCode_eq_some.mpr ha
    refine ⟨fun h => ?_, fun _ => hjs, fun _ hall => ?_⟩
    · rw [hcode] at h
      cases h
    · obtain ⟨js, hmem, hk⟩ := hjs
      exact (silent_ne (hall js hmem) (by simp) hk).elim
  | broken ha =>
    have hcode := exitCode_eq_some.mpr ha
    refine ⟨fun h => ?_, fun h => ?_, fun _ _ => hcode⟩
    · rw [hcode] at h
      cases h
    · rw [hcode] at h
      cases h

theorem truthful_cons (h : r.ends = false) : Truthful (r :: rs) d ↔ Truthful rs d := by
  have hiff : (∃ q ∈ r :: rs, q.ends = true) ↔ ∃ q ∈ rs, q.ends = true := by simp [h]
  exact ⟨fun ht => ⟨ht.success, ht.failure, fun he => ht.lost (hiff.mpr he)⟩,
    fun ht => ⟨ht.success, ht.failure, fun he => ht.lost (hiff.mp he)⟩⟩

theorem ends_of_not_faultless (ho : ¬ Faultless d r) (hx : (d.next r).cli.exitCode = none) :
    r.ends = true := by
  cases r with
  | eof | failed => rfl
  | interrupted => exact absurd trivial ho
  | data bs =>
    obtain ⟨-, -, hnext⟩ := next_short ho
    rw [hnext] at hx
    cases hx

/-- From anywhere in the loop, the exit code will be true exactly when all
reads are faultless. -/
theorem Midway.truthful_iff (h : Midway d) (hr : (receiving metrics eintr stream).Run Lib.Always d rs) :
    Truthful rs ((receiving metrics eintr stream).after d rs) ↔ (receiving metrics eintr stream).Run Faultless d rs := by
  induction rs generalizing d with
  | nil =>
    have hnone : ((receiving metrics eintr stream).after d []).cli.exitCode = none := h.running
    refine iff_of_true ⟨fun hx => ?_, fun hx => ?_, fun hx => ?_⟩ trivial
    · rw [hnone] at hx; cases hx
    · rw [hnone] at hx; cases hx
    · obtain ⟨r, hmem, -⟩ := hx
      cases hmem
  | cons r rs ih =>
    obtain ⟨he, -, hr⟩ := hr
    by_cases ho : Faultless d r
    · rcases h.step he ho with ⟨hmid, hends⟩ | hset
      · rw [truthful_cons hends]
        exact (ih hmid hr).trans ⟨fun hrun => ⟨he, ho, hrun⟩, fun hrun => hrun.2.2⟩
      · obtain ⟨code, hexit⟩ := hset.exited
        obtain rfl := run_exited hexit hr
        exact iff_of_true hset.truthful ⟨he, ho, trivial⟩
    · refine iff_of_false ?_ fun hrun => ho hrun.2.1
      have hun : Untold (d.next r) := h.untold he ho
      refine (hun.run hr).not_truthful fun hx => ⟨r, List.mem_cons_self, ends_of_not_faultless ho ?_⟩
      -- A client that has exited would have stayed so.
      cases hc : (d.next r).cli.exitCode with
      | none => rfl
      | some code =>
        obtain rfl := run_exited (exitCode_eq_some.mp hc) hr
        exact hc.symm.trans hx

end Status

/-- **The exit status** of a generation request, on any stream and whatever
`read` returns: it is true in exactly those runs in which every header is read
as a whole, the stream does not end before an event that ends the request,
and no read fails inside a payload. The client knows the events of the server
by their names. -/
theorem exit_status (eintr : Bool) (stream : Bytes) :
    (∀ e : Event, eventOf e.payload = e.name) ∧
    let S := receiving false eintr stream
    ∀ rs, S.Run Lib.Always S.init rs → (Truthful rs (S.after S.init rs) ↔ S.Run Faultless S.init rs) := by
  have h : Midway (receiving false eintr stream).init :=
    @Midway.header _ [] stream rfl rfl (fun _ hp => by cases hp) (fun _ hp => by cases hp)
  exact ⟨eventOf_payload, fun rs hr => h.truthful_iff hr⟩

/-- A response that ends. -/
theorem exit_status_eos :
    Truthful twoParts ((receiving false true (streamOf [eosFrame])).after
      (receiving false true (streamOf [eosFrame])).init twoParts) :=
  ((exit_status true (streamOf [eosFrame])).2 twoParts (by decide +kernel)).mpr (by decide +kernel)

/-- A server that sends nothing, and one that closes inside a payload: the
exit code is 0. -/
theorem exit_status_closed :
    (∃ stream rs, (receiving false false stream).Run Lib.Always (receiving false false stream).init rs ∧
      ((receiving false false stream).after (receiving false false stream).init rs).cli.exitCode = some 0 ∧
      received ((receiving false false stream).after (receiving false false stream).init rs).read = [] ∧
      ¬ Truthful rs ((receiving false false stream).after (receiving false false stream).init rs)) ∧
    ∃ rs, (receiving false false [5, 0, 0, 0, 123]).Run Lib.Always (receiving false false [5, 0, 0, 0, 123]).init rs ∧
      ((receiving false false [5, 0, 0, 0, 123]).after (receiving false false [5, 0, 0, 0, 123]).init
        rs).cli.exitCode = some 0 := by
  refine ⟨⟨[], [.eof], by decide +kernel, by decide +kernel, by decide +kernel, fun ht => ?_⟩,
    [.data [5, 0, 0, 0], .data [123], .eof], by decide +kernel⟩
  obtain ⟨js, hjs, -⟩ := ht.success (by decide +kernel)
  revert js
  decide +kernel


end UmaServe

/-
What the client prints is what was said to it. At every moment of every run,
standard output is the text of a beginning of the reply (`output`).
-/
import UmaServe.Cli.Output
import UmaServe.EndToEnd.Conversation

namespace UmaServe

/-! ## Sizes -/

section Sizes

variable {vocab : Vocab} {cfg : RuntimeConfig} {opt : CliOptions} {id text js : Bytes} {busy : Bool} {ts : List Token}
  {es : List Event} {e : Event}

theorem escapeByte_length (c : UInt8) : 1 ≤ (escapeByte c).length ∧ (escapeByte c).length ≤ 6 := by
  unfold escapeByte
  repeat' split
  all_goals first | exact ⟨by with_unfolding_all decide, by with_unfolding_all decide⟩ | skip
  · have hu : (bytes "\\u00").length = 4 := by with_unfolding_all decide
    simp [uEscape, hu]
  · simp

theorem jsonEscape_length (s : Bytes) : s.length ≤ (jsonEscape s).length ∧ (jsonEscape s).length ≤ 6 * s.length := by
  induction s with
  | nil => exact ⟨le_rfl, le_rfl⟩
  | cons c s ih =>
    have hc := escapeByte_length c
    rw [show jsonEscape (c :: s) = escapeByte c ++ jsonEscape s from rfl, List.length_append, List.length_cons]
    omega

theorem stdToString_length {i : Int} (h : -2 ^ 31 ≤ i ∧ i < 2 ^ 31) : (stdToString i).length ≤ 11 := by
  have hd : (Nat.toDigits 10 i.natAbs).length ≤ 10 := by
    rw [Nat.length_toDigits_le_iff (by decide) (by decide)]
    omega
  unfold stdToString
  split
  · rw [List.length_cons, List.length_map]; omega
  · rw [List.length_map]; omega

theorem payload_length_token (id text : Bytes) {t : Int} (h : -2 ^ 31 ≤ t ∧ t < 2 ^ 31) :
    (tokenPayload id text t).length ≤ 6 * id.length + 6 * text.length + 100 := by
  have hc : (bytes "\x7b\"id\":\"").length + (bytes "\",").length + (bytes "\"event\":\"token\",").length +
      (bytes "\"text\":\"").length + (bytes "\",").length + (bytes "\"token_id\":").length + (bytes "\x7d").length ≤ 60 := by
    with_unfolding_all decide
  have hid := (jsonEscape_length id).2
  have htext := (jsonEscape_length text).2
  have ht := stdToString_length h
  simp only [tokenPayload, List.length_append]
  omega

theorem payload_length_eos (id reason : Bytes) :
    (eosPayload id reason).length ≤ 6 * id.length + 6 * reason.length + 100 := by
  have hc : (bytes "\x7b\"id\":\"").length + (bytes "\",\"event\":\"eos\",\"reason\":\"").length + (bytes "\"\x7d").length ≤
      60 := by with_unfolding_all decide
  have hid := (jsonEscape_length id).2
  have hr := (jsonEscape_length reason).2
  simp only [eosPayload, List.length_append]
  omega

theorem payload_length_error (id code message : Bytes) : (errorPayload id code message).length ≤
    6 * id.length + 6 * code.length + 6 * message.length + 100 := by
  have hc : (bytes "\x7b\"id\":\"").length + (bytes "\",\"event\":\"error\",").length + (bytes "\"code\":\"").length +
      (bytes "\",\"message\":\"").length + (bytes "\"\x7d").length ≤ 60 := by with_unfolding_all decide
  have hid := (jsonEscape_length id).2
  have hr := (jsonEscape_length code).2
  have hm := (jsonEscape_length message).2
  simp only [errorPayload, List.length_append]
  omega

/-- The events of a response. -/
theorem Said.mem (h : Said vocab id busy ts es) (he : e ∈ es) :
    (∃ t, e ∈ pieceEvents vocab id t) ∨ e = .error id (bytes "E_RUNTIME_DECODE") (bytes "decode failed") ∨
      e = .eos id (bytes "stop") ∨ e = .eos id (bytes "length") := by
  have hpiece : ∀ {ts : List Token}, e ∈ ts.flatMap (pieceEvents vocab id) → ∃ t, e ∈ pieceEvents vocab id t := by
    intro ts hmem
    obtain ⟨t, -, ht⟩ := List.mem_flatMap.mp hmem
    exact ⟨t, ht⟩
  cases h with
  | going => exact .inl (hpiece he)
  | failed =>
    rcases List.mem_append.mp he with he | he
    · exact .inl (hpiece he)
    · exact .inr (.inl (List.mem_singleton.mp he))
  | ended hreason =>
    rcases List.mem_append.mp he with he | he
    · exact .inl (hpiece he)
    · rw [List.mem_singleton.mp he]
      rcases hreason with rfl | rfl
      · exact .inr (.inr (.inl rfl))
      · exact .inr (.inr (.inr rfl))
  | empty => exact .inr (.inr (.inl (List.mem_singleton.mp he)))

/-- A response is its tokens, and then its end if it is over. -/
theorem Said.split (h : Said vocab id busy ts es) :
    ∃ toks term, es = toks ++ term ∧ (∀ e ∈ toks, ∃ text t, e = .token id text t) ∧
      (busy = true ∧ term = [] ∨ busy = false ∧
        (term = [.error id (bytes "E_RUNTIME_DECODE") (bytes "decode failed")] ∨ ∃ reason, term = [.eos id reason])) := by
  have hpiece : ∀ ts : List Token, ∀ e ∈ ts.flatMap (pieceEvents vocab id), ∃ text t, e = .token id text t := by
    intro ts e hmem
    obtain ⟨t, -, ht⟩ := List.mem_flatMap.mp hmem
    exact ⟨_, t, (mem_pieceEvents.mp ht).2⟩
  cases h with
  | going => exact ⟨_, [], (List.append_nil _).symm, hpiece ts, .inl ⟨rfl, rfl⟩⟩
  | failed => exact ⟨_, _, rfl, hpiece ts, .inr ⟨rfl, .inl rfl⟩⟩
  | @ended ts t reason => exact ⟨_, _, rfl, hpiece ts, .inr ⟨rfl, .inr ⟨reason, rfl⟩⟩⟩
  | empty => exact ⟨[], _, rfl, by simp, .inr ⟨rfl, .inr ⟨_, rfl⟩⟩⟩

/-- The token id is a 32-bit integer, as `llama_token` is. -/
def Event.Int32 : Event → Prop
  | .token _ _ t => -2 ^ 31 ≤ t ∧ t < 2 ^ 31
  | .eos _ _ | .error _ _ _ | .metrics _ => True

instance : ∀ e : Event, Decidable e.Int32
  | .token _ _ _ => inferInstanceAs (Decidable (_ ∧ _))
  | .eos _ _ | .error _ _ _ | .metrics _ => inferInstanceAs (Decidable True)

abbrev Int32Tokens (es : List Event) : Prop := ∀ e ∈ es, e.Int32

theorem Reply.sizes (h : Reply cfg vocab opt es) (hasks : ¬ opt.asksMetrics)
    (hid : opt.id.length ≤ defaultMaxFrameBytes) (htok : Int32Tokens es) : ∀ e ∈ es, e.payload.length < 2 ^ 32 := by
  have hlen : (opt.id.map placeholder).length ≤ 1048576 := by rw [List.length_map]; exact hid
  have hwords : ∀ w ∈ [bytes "E_LIMIT_001", bytes "prompt too large", bytes "E_RUNTIME_DECODE", bytes "decode failed",
      bytes "stop", bytes "length"], w.length ≤ 20 := by with_unfolding_all decide
  have herror : ∀ code ∈ [bytes "E_LIMIT_001", bytes "E_RUNTIME_DECODE"],
      ∀ message ∈ [bytes "prompt too large", bytes "decode failed"],
      (errorPayload (opt.id.map placeholder) code message).length < 2 ^ 32 := by
    intro code hcode message hmessage
    have hc := hwords code (by simp at hcode; rcases hcode with rfl | rfl <;> simp)
    have hm := hwords message (by simp at hmessage; rcases hmessage with rfl | rfl <;> simp)
    have := payload_length_error (opt.id.map placeholder) code message
    omega
  have heos : ∀ reason ∈ [bytes "stop", bytes "length"],
      (eosPayload (opt.id.map placeholder) reason).length < 2 ^ 32 := by
    intro reason hreason
    have hr := hwords reason (by simp at hreason; rcases hreason with rfl | rfl <;> simp)
    have := payload_length_eos (opt.id.map placeholder) reason
    omega
  intro e he
  cases h with
  | nothing => cases he
  | metrics h => exact absurd h hasks
  | tooLarge =>
    rw [List.mem_singleton.mp he]
    exact herror _ (by simp) _ (by simp)
  | generated _ _ hsaid =>
    rcases hsaid.mem he with ⟨t, ht⟩ | rfl | rfl | rfl
    · obtain ⟨-, rfl⟩ := mem_pieceEvents.mp ht
      have hpiece : (tokenToPieceStr vocab t true).length ≤ 256 := by
        rw [tokenToPieceStr_eq]
        split
        next h => exact h
        next => simp
      have := payload_length_token (opt.id.map placeholder) (tokenToPieceStr vocab t true) (htok _ he)
      simp only [Event.payload]
      omega
    · exact herror _ (by simp) _ (by simp)
    · exact heos _ (by simp)
    · exact heos _ (by simp)

theorem Asker.id_length (opt : Asker) (hasks : ¬ opt.asksMetrics) : opt.id.length ≤ defaultMaxFrameBytes := by
  have hm : opt.metrics = false := by
    cases hm : opt.metrics with
    | false => rfl
    | true => exact absurd (.inl hm) hasks
  have hfits := opt.fits
  have hesc := (jsonEscape_length opt.id).1
  rw [CliOptions.payload, hm] at hfits
  simp only [Bool.false_eq_true, if_false, List.length_append] at hfits
  omega

end Sizes

/-! ## What was received -/

section Received

variable {cfg : RuntimeConfig} {vocab : Vocab} {opt : CliOptions} {es : List Event} {read : Bytes}

theorem frame_eq (e : Event) : e.frame = frame e.payload := by
  cases e <;> rfl

theorem flatMap_frame (es : List Event) : es.flatMap Event.frame = (es.map Event.payload).flatMap frame := by
  rw [List.flatMap_map]
  exact congrArg (List.flatMap · es) (funext frame_eq)

theorem received_prefix (hpre : read <+: es.flatMap Event.frame) (hsizes : ∀ e ∈ es, e.payload.length < 2 ^ 32) :
    ∃ n, received read = (es.take n).map Event.payload ∧ (received read = es.map Event.payload ∨ n < es.length) := by
  obtain ⟨rest, hrest⟩ := hpre
  have hv : ∀ p ∈ es.map Event.payload, wholeFrames.valid p := by
    intro p hp
    obtain ⟨e, he, rfl⟩ := List.mem_map.mp hp
    exact hsizes e he
  have hall : (es.map Event.payload).flatMap wholeFrames.enc = read ++ rest := by rw [hrest, flatMap_frame]; rfl
  obtain ⟨left, hleft, -, -⟩ := Lib.Framing.drain_spec hv hall le_rfl
  have hn : received read = (es.take (received read).length).map Event.payload := by
    rw [List.map_take, hleft]
    exact List.take_left.symm
  refine ⟨(received read).length, hn, ?_⟩
  have hlen : (es.map Event.payload).length = (received read).length + left.length := by
    rw [hleft, List.length_append]
    rfl
  rw [List.length_map] at hlen
  cases left with
  | nil => exact .inl (hleft.trans (List.append_nil _)).symm
  | cons p left => exact .inr (by rw [List.length_cons] at hlen; omega)

theorem received_all (hsizes : ∀ e ∈ es, e.payload.length < 2 ^ 32) :
    received (es.flatMap Event.frame) = es.map Event.payload := by
  rw [flatMap_frame]
  refine received_frames fun p hp => ?_
  obtain ⟨e, he, rfl⟩ := List.mem_map.mp hp
  exact hsizes e he

/-- What a generating client prints for an event. -/
def shown : Event → Outcome
  | .token id text _ => { out := if Closes (bytes "text") id then bytes "token" else text.flatMap reread }
  | .eos _ _ => { out := [chr '\n'], code := some 0 }
  | .error id code message =>
    let msg := if Closes (bytes "message") id then bytes "error" else message.flatMap reread
    { err := (if msg.isEmpty then errorPayload id code message else msg) ++ [chr '\n'], code := some 2 }
  | .metrics json => { out := metricsPayload json ++ [chr '\n'], code := some 0 }

theorem outcome_payload (e : Event) : outcome false e.payload = shown e := by
  have hne : ∀ w ∈ [bytes "eos", bytes "error", bytes "metrics"], w ≠ bytes "token" := by with_unfolding_all decide
  have hne' : bytes "error" ≠ bytes "eos" ∧ bytes "metrics" ≠ bytes "eos" ∧ bytes "metrics" ≠ bytes "error" := by
    with_unfolding_all decide
  unfold outcome
  rw [eventOf_payload]
  cases e with
  | token id text tokenId => simp [Event.name, Event.payload, get_text, shown]
  | eos id reason => simp [Event.name, shown, hne]
  | error id code message => simp [Event.name, Event.payload, get_message, shown, hne, hne']
  | metrics json => simp [Event.name, Event.payload, shown, hne, hne']

theorem outOf_payload (es : List Event) : outOf false (es.map Event.payload) = es.flatMap fun e => (shown e).out := by
  rw [outOf, List.flatMap_map]
  simp only [outcome_payload]

/-- A token shows its text, if the id does not hide it and nothing in it is
escaped. -/
theorem shown_tokens {id : Bytes} (hid : ¬ Closes (bytes "text") id) (htoks : ∀ e ∈ es, ∃ text t, e = .token id text t)
    (hleg : ∀ e ∈ es, Legible e.text) : (es.flatMap fun e => (shown e).out) = es.flatMap Event.text := by
  induction es with
  | nil => rfl
  | cons e es ih =>
    obtain ⟨text, t, rfl⟩ := htoks e List.mem_cons_self
    have hout : (shown (.token id text t)).out = text := by
      simp only [shown, if_neg hid]
      exact reread_eq_iff.mpr (hleg _ List.mem_cons_self)
    rw [List.flatMap_cons, List.flatMap_cons, hout, ih (fun e he => htoks e (List.mem_cons_of_mem _ he))
      fun e he => hleg e (List.mem_cons_of_mem _ he)]
    rfl

/-- The end of a generation. -/
def Event.isEos : Event → Bool
  | .eos _ _ => true
  | .token _ _ _ | .error _ _ _ | .metrics _ => false

/-- A reply shows its text and, when it ends with an `eos`, a newline. -/
theorem Reply.shows (h : Reply cfg vocab opt es) (hasks : ¬ opt.asksMetrics)
    (hid : ¬ Closes (bytes "text") (opt.id.map placeholder)) (hleg : ∀ e ∈ es, Legible e.text) :
    (es.flatMap fun e => (shown e).out) =
      es.flatMap Event.text ++ if es.any Event.isEos then [chr '\n'] else [] := by
  cases h with
  | nothing => rfl
  | metrics h => exact absurd h hasks
  | tooLarge => simp [shown, Event.text, Event.isEos]
  | generated _ _ hsaid =>
    obtain ⟨toks, term, rfl, htoks, hterm⟩ := hsaid.split
    have hno : toks.any Event.isEos = false := by
      rw [List.any_eq_false]
      intro e he
      obtain ⟨text, t, rfl⟩ := htoks e he
      simp [Event.isEos]
    rw [List.flatMap_append, List.flatMap_append, List.any_append, hno, Bool.false_or,
      shown_tokens hid htoks fun e he => hleg e (List.mem_append_left _ he)]
    rcases hterm with ⟨-, rfl⟩ | ⟨-, rfl | ⟨reason, rfl⟩⟩ <;> simp [shown, Event.text, Event.isEos]

end Received

/-! ## The client in the world -/

/-- The client in the world, with what it has read and what it can read. -/
def World.receiving (w : World) : Receiving := ⟨w.cli, w.read, w.down⟩

theorem Consumed.coming {c : Cli} {read coming coming' : Bytes} (h : Consumed ⟨c, read, coming⟩) :
    Consumed ⟨c, read, coming'⟩ := by
  rcases h with h | h
  · cases h with
    | header ha hd hg => exact .inl (.header ha hd hg)
    | payload ha hlt hd hg => exact .inl (.payload ha hlt hd hg)
    | ended ha hd hg hcode => exact .inl (.ended ha hd hg hcode)
  · cases h with
    | intro ha hsizes hpart hout hg => exact .inr (.intro ha hsizes hpart hout hg)

theorem onRead_metrics (c : Cli) (r : ReadReturn) : (c.onRead r).metrics = c.metrics := by
  have hframe : ∀ js, (c.onFrame js).metrics = c.metrics := fun js => by rw [onFrame_eq]
  unfold Cli.onRead
  split
  · unfold Cli.onHeader
    split
    · dsimp only
      split
      · rfl
      · exact hframe []
    · rfl
  · rfl
  · rfl
  · rfl
  · unfold Cli.onPayload
    split
    · rfl
    · split
      · rfl
      · exact hframe _
  · split <;> rfl
  · rfl
  · rfl
  · rfl

/-- The client has handled what it has read; and it reads nothing before all
of its request is written. -/
structure Printing (opt : CliOptions) (w : World) : Prop where
  consumed : Consumed w.receiving
  metrics : w.cli.metrics = opt.metrics
  unread : w.unsent ≠ [] → w.read = [] ∧ w.cli.out = []

section Output

variable {pf : Platform} {cfg : RuntimeConfig} {opt : Asker} {w : World} {st : WorldStep}

/-- A `read` in the world is one of the receive loop. -/
theorem Printing.recv {r : ReadReturn} (h : Printing opt.toCliOptions w) (he : w.unsent = [] ∧ w.Offers r) :
    Printing opt.toCliOptions (w.next pf cfg (.recv r)) where
  consumed := by
    have henabled : w.receiving.Enabled r := by
      cases r with
      | data bs => exact he.2
      | eof => exact ⟨he.2.1, he.2.2.2⟩
      | interrupted | failed => exact he.2
    exact h.consumed.step henabled
  metrics := (onRead_metrics w.cli r).trans h.metrics
  unread := fun hne => absurd he.1 hne

theorem Printing.step (h : Printing opt.toCliOptions w) (he : w.Enabled pf cfg st) :
    Printing opt.toCliOptions (w.next pf cfg st) := by
  cases st with
  | recv r => exact h.recv he
  | connect fd order nowNs => exact ⟨h.consumed, h.metrics, h.unread⟩
  | send r =>
    cases r with
    | wrote n => exact ⟨h.consumed, h.metrics, fun _ => h.unread he.1⟩
    | again => exact h
    | failed strerror =>
      obtain ⟨hread, hout⟩ := h.unread he.1
      refine ⟨.inr ?_, h.metrics, fun _ => ⟨hread, hout⟩⟩
      have hempty : (w.next pf cfg (.send (.failed strerror))).read = [].flatMap frame ++ [] := hread
      rw [World.receiving, hempty]
      exact .intro rfl (by simp) rfl hout (by simp [GoOn])
  | daemon a =>
    have hnext : (w.next pf cfg (.daemon a)).cli = w.cli ∧ (w.next pf cfg (.daemon a)).read = w.read ∧
        (w.next pf cfg (.daemon a)).unsent = w.unsent := by
      simp only [World.next]
      cases w.conn <;> exact ⟨rfl, rfl, rfl⟩
    obtain ⟨hcli, hread, hunsent⟩ := hnext
    refine ⟨?_, by rw [hcli, h.metrics], by rw [hunsent, hread, hcli]; exact h.unread⟩
    rw [World.receiving, hcli, hread]
    exact h.consumed.coming

theorem printing_of_reach {C : World → WorldStep → Prop} (h : (world pf cfg opt).Reach C w) :
    Printing opt.toCliOptions w := by
  refine h.invariant ?_ fun w st _ hp he _ => hp.step he
  have hd : Digested { metrics := opt.metrics } [] := ⟨by simp, rfl, rfl⟩
  exact ⟨.inl (.header rfl hd (by simp [GoOn])), rfl, fun _ => ⟨rfl, rfl⟩⟩

/-- What a client is told, it receives in order, and receives as it was. -/
theorem received_reply (h : (world pf cfg opt).Reach Lib.Always w) (hasks : ¬ opt.asksMetrics)
    (htok : Int32Tokens w.hist.events) :
    (∀ e ∈ w.hist.events, e.payload.length < 2 ^ 32) ∧
      ∃ n, received w.read = (w.hist.events.take n).map Event.payload ∧
        (received w.read = w.hist.events.map Event.payload ∨ n < w.hist.events.length) := by
  have hsizes := (reply_of_reach h).sizes hasks (opt.id_length hasks) htok
  exact ⟨hsizes, received_prefix ((List.prefix_append _ _).trans (talk_of_reach h).wire) hsizes⟩

theorem not_metrics (hasks : ¬ opt.asksMetrics) : opt.metrics = false := by
  cases hm : opt.metrics with
  | false => rfl
  | true => exact absurd (.inl hm) hasks

/-- It prints what it receives. -/
theorem printed_reply (h : (world pf cfg opt).Reach Lib.Always w) (hasks : ¬ opt.asksMetrics)
    (htok : Int32Tokens w.hist.events) :
    ∃ n, received w.read = (w.hist.events.take n).map Event.payload ∧
      w.cli.out = (w.hist.events.take n).flatMap (fun e => (shown e).out) := by
  obtain ⟨-, n, hn, -⟩ := received_reply h hasks htok
  have hp := printing_of_reach h
  refine ⟨n, hn, ?_⟩
  have hout := hp.consumed.out_eq
  rw [show w.receiving.cli = w.cli from rfl, show w.receiving.read = w.read from rfl, hp.metrics, not_metrics hasks, hn,
    outOf_payload] at hout
  exact hout

theorem printed_text (h : (world pf cfg opt).Reach Lib.Always w) (hasks : ¬ opt.asksMetrics)
    (htok : Int32Tokens w.hist.events) (hid : ¬ Closes (bytes "text") (opt.id.map placeholder))
    (hleg : ∀ e ∈ w.hist.events, Legible e.text) : w.cli.out <+: w.hist.events.flatMap Event.text ++ [chr '\n'] := by
  obtain ⟨n, -, hout⟩ := printed_reply h hasks htok
  have hpre : w.cli.out <+: w.hist.events.flatMap fun e => (shown e).out := by
    rw [hout]
    exact ⟨(w.hist.events.drop n).flatMap fun e => (shown e).out, by rw [← List.flatMap_append, List.take_append_drop]⟩
  refine hpre.trans ?_
  rw [(reply_of_reach h).shows hasks hid hleg]
  split
  · exact List.prefix_rfl
  · rw [List.append_nil]
    exact List.prefix_append _ _

/-- **Output.** In every run, whatever is cut, fails or is closed: a client
that asks for a generation has received the first events of the reply, in
order, and has printed exactly what each of them prints; so, unless the id
hides the text or a piece has a control character that is escaped, its
output is the beginning of the text of the reply and a newline. -/
theorem output (h : (world pf cfg opt).Reach Lib.Always w) (hasks : ¬ opt.asksMetrics)
    (htok : Int32Tokens w.hist.events) :
    ∃ n, received w.read = (w.hist.events.take n).map Event.payload ∧
      w.cli.out = (w.hist.events.take n).flatMap (fun e => (shown e).out) ∧
      (¬ Closes (bytes "text") (opt.id.map placeholder) → (∀ e ∈ w.hist.events, Legible e.text) →
        w.cli.out <+: w.hist.events.flatMap Event.text ++ [chr '\n']) := by
  obtain ⟨n, hn, hout⟩ := printed_reply h hasks htok
  exact ⟨n, hn, hout, printed_text h hasks htok⟩

theorem asker_asks : ¬ asker.asksMetrics := by
  rintro (h | ⟨h, -⟩)
  · cases h
  · exact absurd h (by with_unfolding_all decide)

/-- An event is read in three parts, the first its header. -/
def parts (e : Event) : List WorldStep :=
  [.recv (.data (e.frame.take 4)), .recv (.data ((e.frame.drop 4).take 10)), .recv (.data (e.frame.drop 14))]

/-- Another token is told, one is read, and of the other a part. -/
def telling : List WorldStep :=
  asking ++ [.daemon (.tick 5 (choosing 0)), .daemon (.writable 7 [.wrote 80, .wouldBlock] 6)] ++
    parts (.token (bytes "r") (bytes "b") 1) ++ [.recv (.data ((Event.token (bytes "r") (bytes "a") 0).frame.take 4))]

theorem output_telling :
    let w := (world letters {} asker).after (world letters {} asker).init telling
    w.cli.out = bytes "b" ∧ w.hist.events.flatMap Event.text = bytes "ba" ∧
      w.cli.out <+: w.hist.events.flatMap Event.text ++ [chr '\n'] := by
  intro w
  have hr : (world letters {} asker).Reach Lib.Always w := Lib.System.Reach.init.run (by decide +kernel)
  have hev : w.hist.events = [.token (bytes "r") (bytes "b") 1, .token (bytes "r") (bytes "a") 0] := by decide +kernel
  obtain ⟨n, -, -, htext⟩ := output hr asker_asks (by rw [hev]; decide)
  exact ⟨by decide +kernel, by rw [hev]; with_unfolding_all decide,
    htext (by with_unfolding_all decide) (by rw [hev]; decide +kernel)⟩

end Output
end UmaServe

/-
The text of a response. The token events of a request are those of the
tokens kept for it, in order, whatever else the daemon does
(`told_of_reach`). But a piece goes through a buffer of 256 bytes, and a
longer one is dropped without a trace (`text_kept`); and each piece is framed
on its own, so a character whose bytes are spread between two tokens makes
two events that are not UTF-8 (`token_events_valid`).
-/
import UmaServe.Umad.Limits
import UmaServe.Umad.Responses
import UmaServe.Ipc.Events

namespace UmaServe

/-- The tokens kept as the next to feed since the last frame was parsed. -/
def stored (pf : Platform) (cfg : RuntimeConfig) : Ledger (List Token) where
  fresh := []
  read := fun s nowNs reads ts => if s.parses nowNs reads then [] else ts
  tick := fun d nowNs out fd ts =>
    match d.find fd, (d.tick pf cfg nowNs out).find fd with
    | some s, some s' => if s.stores s' then ts ++ [s'.pendingTok] else ts
    | _, _ => ts

/-- The text an event brings. -/
def Event.text : Event → Bytes
  | .token _ text _ => text
  | .eos _ _ | .error _ _ _ | .metrics _ => []

/-- The text of a response. -/
def Window.text (w : Window) : Bytes := w.events.flatMap Event.text

/-- The token events of the window are those of the tokens. -/
def Told (vocab : Vocab) (ts : List Token) (s : ClientSession) : Prop :=
  s.hist.window.events.filter Event.isToken = ts.flatMap (pieceEvents vocab (s.hist.window.accepted.getD []))

/-- The small platform, with pieces longer than the buffer. -/
def longPieces : Platform :=
  { small with vocab := { small.vocab with piece := fun _ _ => List.replicate 257 (chr 'a') } }

/-- The small platform, with the two bytes of a character in two tokens. -/
def splitPieces : Platform :=
  { small with vocab := { small.vocab with piece := fun t _ => if t = 0 then [0xC3] else [0xA9] } }

/-- One client is given the tokens. -/
def given (pf : Platform) (toks : List Nat) : Daemon × (Int → List Token) :=
  ((stored pf {}).daemon pf {}).after ((stored pf {}).daemon pf {}).init (generates toks)

section Told

variable {pf : Platform} {cfg : RuntimeConfig} {d : Daemon} {fd : Int} {s s' : ClientSession} {nowNs : Nat}
  {reads : List ReadRes} {out : Decoded} {before : List BatchItem} {it : BatchItem} {i : Nat} {vocab : Vocab}
  {ts ts' : List Token} {t : Token} {id : Bytes} {e : Event}

theorem filter_pieceEvents : (pieceEvents vocab id t).filter Event.isToken = pieceEvents vocab id t :=
  List.filter_eq_self.mpr fun _ he => (pieceEvents_mem he).1

theorem Told.none (h : s.hist.window.events.filter Event.isToken = []) : Told vocab [] s := h

theorem Told.other (h : Told vocab ts s) (hw : s'.hist.window.events = s.hist.window.events ++ [e])
    (ha : s'.hist.window.accepted = s.hist.window.accepted) (he : e.isToken = false) : Told vocab ts s' := by
  unfold Told at h ⊢
  rw [hw, ha, List.filter_append, h, List.filter_cons_of_neg (by simp [he]), List.filter_nil, List.append_nil]

/-- One more token, and its event. -/
theorem Told.token (h : Told vocab ts s) (hacc : s.hist.window.accepted = some s.requestId)
    (hw : s'.hist.window.events = s.hist.window.events ++ pieceEvents vocab s.requestId t)
    (ha : s'.hist.window.accepted = s.hist.window.accepted) : Told vocab (ts ++ [t]) s' := by
  unfold Told at h ⊢
  rw [hw, ha, List.filter_append, h, filter_pieceEvents, hacc, List.flatMap_append, List.flatMap_singleton]
  rfl

theorem Told.read {next : Int} (h : Told vocab ts s) :
    Told vocab ((stored pf cfg).read s nowNs reads ts) (s.read cfg vocab nowNs next reads).session := by
  have hr : Reading cfg vocab nowNs next reads s _ := read_reading
  generalize s.read cfg vocab nowNs next reads = o at hr ⊢
  cases hr with
  | quiet hp =>
    obtain ⟨rx, act, rc, -, heq⟩ := s.received_eq nowNs reads
    rw [heq]
    simp only [stored, hp]
    exact h
  | rejected hp | admin hp | empty hp | started hp =>
    simp only [stored, hp, if_true]
    exact .none rfl

theorem stored_tick (hs : d.find fd = some s) (hs' : (d.tick pf cfg nowNs out).find fd = some s') :
    (stored pf cfg).tick d nowNs out fd ts = if s.stores s' then ts ++ [s'.pendingTok] else ts := by
  simp only [stored, hs, hs']

/-- **A tick that serves the session** appends the event of the token it
keeps. -/
theorem Told.served (h : Told pf.vocab ts s) (hacc : s.hist.window.accepted = some s.requestId)
    (hserved : Served pf cfg nowNs out s it i s') (ht : ts' = if s.stores s' then ts ++ [s'.pendingTok] else ts) :
    Told pf.vocab ts' s' := by
  cases hserved with
  | failed =>
    rw [stores_same (by simp [ClientSession.decodeFailed, ClientSession.emit])] at ht
    subst ht
    refine h.other (e := .error s.requestId (bytes "E_RUNTIME_DECODE") (bytes "decode failed")) ?_ ?_ rfl
    · simp [ClientSession.decodeFailed, ClientSession.emit]
    · simp [ClientSession.decodeFailed, ClientSession.emit]
  | noRow =>
    rw [stores_same (by rw [enacted_hist])] at ht
    subst ht
    unfold Told
    rw [enacted_hist]
    exact h
  | first =>
    rw [stores_new (by simp [prefillSampled_eq]) (by simp [prefillSampled_eq]), if_pos rfl] at ht
    subst ht
    refine h.token hacc ?_ ?_
    · simp [prefillSampled_eq]
    · simp [prefillSampled_eq]
  | ended hrc hr hph =>
    rw [stores_dropped (by simp [finish_eq, ClientSession.enacted, hph])] at ht
    subst ht
    refine h.other (e := eosEvent cfg (s.enacted it)) ?_ ?_ rfl
    · simp [finish_eq]
    · simp [finish_eq]
  | more =>
    rw [stores_new (by simp [decodeSampled_eq]) (by simp [decodeSampled_eq]), if_pos rfl] at ht
    subst ht
    refine h.token hacc ?_ ?_
    · simp [decodeSampled_eq]
    · simp [decodeSampled_eq]

/-- **The token events of a request** are those of the tokens kept for it, in
every run. -/
theorem told_of_reach {D : Daemon × (Int → List Token) → Action → Prop} {p : Daemon × (Int → List Token)}
    (h : ((stored pf cfg).daemon pf cfg).Reach D p) (hs : p.1.find fd = some s) : Told pf.vocab (p.2 fd) s := by
  refine Ledger.request_invariant (I := Told pf.vocab) (fun _ _ => .none rfl)
    (fun _ _ _ h => h.other (e := .metrics _) rfl rfl rfl) (fun _ _ _ _ h => h) (fun _ _ h => h)
    (fun d g fd reads now nowNs s _ _ _ hi => hi.read) ?_ ?_ h hs
  · intro d g nowNs out fd s hr hs hs' hno hi
    rw [stored_tick hs hs', stores_same rfl]
    exact hi
  · intro d g nowNs out fd s s' before it hr hc hs' hserves hserved hi
    have ho := Ledger.owned hr
    have hresp : Responding s :=
      responding_of_reach (C := Lib.Always) (hr.forget fun _ _ _ => trivial) hserves.lookup
    exact hi.served (hresp.accepted (hserves.busy ho.keyed)) hserved (stored_tick hserves.lookup hs')

/-! ## The piece buffer -/

theorem tokenToPieceStr_eq (v : Vocab) (t : Token) (special : Bool) :
    tokenToPieceStr v t special = if (v.piece t special).length ≤ 256 then v.piece t special else [] := by
  unfold tokenToPieceStr llamaTokenToPiece
  dsimp only
  split
  next hle =>
    dsimp only
    split
    next hz => exact (List.eq_nil_of_length_eq_zero (by omega)).symm
    next => rfl
  next => exact if_pos (by omega)

theorem flatMap_capped_le (f : Token → Bytes) (n : Nat) (ts : List Token) :
    (ts.flatMap fun t => if (f t).length ≤ n then f t else []).length ≤ (ts.flatMap f).length := by
  induction ts with
  | nil => exact le_refl _
  | cons t ts ih =>
    rw [List.flatMap_cons, List.flatMap_cons, List.length_append, List.length_append]
    split
    · omega
    · rw [List.length_nil]
      omega

theorem flatMap_capped_iff (f : Token → Bytes) (n : Nat) (ts : List Token) :
    (ts.flatMap fun t => if (f t).length ≤ n then f t else []) = ts.flatMap f ↔ ∀ t ∈ ts, (f t).length ≤ n := by
  induction ts with
  | nil => simp
  | cons t ts ih =>
    rw [List.flatMap_cons, List.flatMap_cons, List.forall_mem_cons]
    by_cases hle : (f t).length ≤ n
    · rw [if_pos hle, List.append_cancel_left_eq, ih]
      exact (and_iff_right hle).symm
    · rw [if_neg hle, List.nil_append]
      refine ⟨fun heq => ?_, fun h => absurd h.1 hle⟩
      have hlen := congrArg List.length heq
      have hcapped := flatMap_capped_le f n ts
      rw [List.length_append] at hlen
      omega

theorem flatMap_text_filter (es : List Event) :
    es.flatMap Event.text = (es.filter Event.isToken).flatMap Event.text := by
  induction es with
  | nil => rfl
  | cons e es ih =>
    rw [List.flatMap_cons, ih]
    cases e with
    | token => rfl
    | eos | error | metrics => rfl

theorem flatMap_text_pieceEvents :
    (pieceEvents vocab id t).flatMap Event.text = tokenToPieceStr vocab t true := by
  unfold pieceEvents
  dsimp only
  split
  next hnil => exact (List.isEmpty_iff.mp hnil).symm
  next => exact List.append_nil _

theorem Told.text (h : Told vocab ts s) : s.hist.window.text = ts.flatMap fun t => tokenToPieceStr vocab t true := by
  rw [Window.text, flatMap_text_filter, h, List.flatMap_assoc]
  exact congrArg ts.flatMap (funext fun _ => flatMap_text_pieceEvents)

/-- **The text of a response** is the text of the tokens kept for it, exactly
when none of their pieces is longer than the buffer. -/
theorem text_kept {p : Daemon × (Int → List Token)} (h : ((stored pf cfg).daemon pf cfg).Reach Lib.Always p)
    (hs : p.1.find fd = some s) :
    (s.hist.window.text = (p.2 fd).flatMap fun t => pf.vocab.piece t true) ↔
      ∀ t ∈ p.2 fd, (pf.vocab.piece t true).length ≤ 256 := by
  rw [(told_of_reach h hs).text]
  simp only [tokenToPieceStr_eq]
  exact flatMap_capped_iff (fun t => pf.vocab.piece t true) 256 (p.2 fd)

/-- A response of two short pieces. -/
theorem text_kept_two :
    ∃ s, (given small [1, 1, 2]).1.find 7 = some s ∧ (given small [1, 1, 2]).2 7 = [1, 1] ∧
      s.hist.window.text = [1, 1] ∧ s.hist.window.text = [1, 1].flatMap fun t => small.vocab.piece t true := by
  have hr : ((stored small {}).daemon small {}).Reach Lib.Always (given small [1, 1, 2]) :=
    Lib.System.Reach.init.run (by decide +kernel)
  have htext : ((given small [1, 1, 2]).1.find 7).map (fun s => s.hist.window.text) = some [1, 1] := by decide +kernel
  have hkept : (given small [1, 1, 2]).2 7 = [1, 1] := by decide +kernel
  obtain ⟨s, hs, htext⟩ := Option.map_eq_some_iff.mp htext
  have hiff := text_kept hr hs
  rw [hkept] at hiff
  exact ⟨s, hs, hkept, htext, hiff.mpr (by decide)⟩

/-- A piece of 257 bytes: the token is kept, and its text is not sent. -/
theorem text_kept_long :
    ∃ p s, ((stored longPieces {}).daemon longPieces {}).Reach Lib.Always p ∧ p.1.find 7 = some s ∧ p.2 7 = [1] ∧
      s.hist.window.text = [] ∧ s.hist.window.text ≠ (p.2 7).flatMap fun t => longPieces.vocab.piece t true := by
  have hr : ((stored longPieces {}).daemon longPieces {}).Reach Lib.Always (given longPieces [1, 2]) :=
    Lib.System.Reach.init.run (by decide +kernel)
  have htext : ((given longPieces [1, 2]).1.find 7).map (fun s => s.hist.window.text) = some [] := by decide +kernel
  have hkept : (given longPieces [1, 2]).2 7 = [1] := by decide +kernel
  obtain ⟨s, hs, htext⟩ := Option.map_eq_some_iff.mp htext
  refine ⟨_, s, hr, hs, hkept, htext, ?_⟩
  rw [htext, hkept]
  decide

/-! ## The bytes of the events -/

theorem mem_pieceEvents : e ∈ pieceEvents vocab id t ↔
    tokenToPieceStr vocab t true ≠ [] ∧ e = .token id (tokenToPieceStr vocab t true) t := by
  unfold pieceEvents
  dsimp only
  split
  next hnil => simp [List.isEmpty_iff.mp hnil]
  next hne =>
    rw [List.isEmpty_iff] at hne
    simp [hne]

theorem pieceEvents_valid (hid : isValidUtf8 id = true) :
    (∀ e ∈ pieceEvents vocab id t, isValidUtf8 e.payload = true) ↔
      ((vocab.piece t true).length ≤ 256 → isValidUtf8 (vocab.piece t true) = true) := by
  have hall : (∀ e ∈ pieceEvents vocab id t, isValidUtf8 e.payload = true) ↔
      (tokenToPieceStr vocab t true ≠ [] → isValidUtf8 (tokenToPieceStr vocab t true) = true) := by
    constructor
    · intro h hne
      have hpayload := h _ (mem_pieceEvents.mpr ⟨hne, rfl⟩)
      rw [Event.payload, isValidUtf8_tokenPayload, hid, Bool.true_and] at hpayload
      exact hpayload
    · intro h e he
      obtain ⟨hne, rfl⟩ := mem_pieceEvents.mp he
      rw [Event.payload, isValidUtf8_tokenPayload, hid, Bool.true_and]
      exact h hne
  rw [hall, tokenToPieceStr_eq]
  by_cases hle : (vocab.piece t true).length ≤ 256
  · rw [if_pos hle]
    refine ⟨fun h _ => ?_, fun h _ => h hle⟩
    by_cases hnil : vocab.piece t true = []
    · rw [hnil]
      rfl
    · exact h hnil
  · rw [if_neg hle]
    exact ⟨fun _ h => absurd h hle, fun _ hne => absurd rfl hne⟩

/-- **The token events of a request** with a valid id are all valid UTF-8
exactly when each piece that fits the buffer is: no character may be spread
between tokens, valid as their whole text may be. -/
theorem token_events_valid {p : Daemon × (Int → List Token)} (h : ((stored pf cfg).daemon pf cfg).Reach Lib.Always p)
    (hs : p.1.find fd = some s) (hacc : s.hist.window.accepted = some id) (hid : isValidUtf8 id = true) :
    (∀ e ∈ s.hist.window.events, e.isToken = true → isValidUtf8 e.payload = true) ↔
      ∀ t ∈ p.2 fd, (pf.vocab.piece t true).length ≤ 256 → isValidUtf8 (pf.vocab.piece t true) = true := by
  have htold : s.hist.window.events.filter Event.isToken = (p.2 fd).flatMap (pieceEvents pf.vocab id) := by
    have := told_of_reach h hs
    rw [Told, hacc] at this
    exact this
  constructor
  · intro hall t ht
    refine (pieceEvents_valid hid).mp fun e he => ?_
    have hmem : e ∈ s.hist.window.events.filter Event.isToken := by
      rw [htold]
      exact List.mem_flatMap.mpr ⟨t, ht, he⟩
    exact hall e (List.mem_filter.mp hmem).1 (List.mem_filter.mp hmem).2
  · intro hall e he htok
    have hmem : e ∈ (p.2 fd).flatMap (pieceEvents pf.vocab id) := by
      rw [← htold]
      exact List.mem_filter.mpr ⟨he, htok⟩
    obtain ⟨t, ht, he⟩ := List.mem_flatMap.mp hmem
    exact (pieceEvents_valid hid).mpr (hall t ht) e he

/-- A response in which every token is one character. -/
theorem token_events_valid_ascii :
    ∃ s, (given small [1, 1, 2]).1.find 7 = some s ∧ s.hist.window.accepted = some (bytes "r") ∧
      ∀ e ∈ s.hist.window.events, e.isToken = true → isValidUtf8 e.payload = true := by
  have hr : ((stored small {}).daemon small {}).Reach Lib.Always (given small [1, 1, 2]) :=
    Lib.System.Reach.init.run (by decide +kernel)
  have hacc : ((given small [1, 1, 2]).1.find 7).map (fun s => s.hist.window.accepted) = some (some (bytes "r")) := by
    decide +kernel
  have hkept : (given small [1, 1, 2]).2 7 = [1, 1] := by decide +kernel
  obtain ⟨s, hs, hacc⟩ := Option.map_eq_some_iff.mp hacc
  have hiff := token_events_valid hr hs hacc (by with_unfolding_all decide)
  rw [hkept] at hiff
  exact ⟨s, hs, hacc, hiff.mpr (by decide)⟩

/-- The two bytes of a character, one in each token: the text is valid, and
the events are not. -/
theorem token_events_split :
    ∃ p s, ((stored splitPieces {}).daemon splitPieces {}).Reach Lib.Always p ∧ p.1.find 7 = some s ∧
      s.hist.window.accepted = some (bytes "r") ∧ isValidUtf8 (bytes "r") = true ∧
      isValidUtf8 ((p.2 7).flatMap fun t => splitPieces.vocab.piece t true) = true ∧
      ¬ ∀ e ∈ s.hist.window.events, e.isToken = true → isValidUtf8 e.payload = true := by
  have hr : ((stored splitPieces {}).daemon splitPieces {}).Reach Lib.Always (given splitPieces [0, 1, 2]) :=
    Lib.System.Reach.init.run (by decide +kernel)
  have hwindow : ((given splitPieces [0, 1, 2]).1.find 7).map
      (fun s => (s.hist.window.accepted, s.hist.window.events)) =
        some (some (bytes "r"), [.token (bytes "r") [0xC3] 0, .token (bytes "r") [0xA9] 1,
          .eos (bytes "r") (bytes "stop")]) := by decide +kernel
  have hkept : (given splitPieces [0, 1, 2]).2 7 = [0, 1] := by decide +kernel
  obtain ⟨s, hs, hwindow⟩ := Option.map_eq_some_iff.mp hwindow
  obtain ⟨hacc, hevents⟩ := Prod.mk.inj hwindow
  refine ⟨_, s, hr, hs, hacc, by with_unfolding_all decide, ?_, fun hall => ?_⟩
  · rw [hkept]
    decide +kernel
  · have hfirst := hall (.token (bytes "r") [0xC3] 0) (by rw [hevents]; exact List.mem_cons_self) rfl
    revert hfirst
    decide +kernel

end Told
end UmaServe

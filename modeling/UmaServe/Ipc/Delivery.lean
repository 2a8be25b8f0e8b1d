/-
Framed delivery: what `write_frame` puts on one end of a byte stream,
`try_read_frame` takes off the other, however the stream is cut on either
side. The frame format is an instance of `Lib.Framing`; the stream is a
sender's `tx`, the bytes in flight and a receiver's `rx`.
-/
import UmaServe.Lib.Framing
import UmaServe.Ipc.Protocol

namespace UmaServe

/-! ## The header -/

theorem lor_mul_two_pow {a b i : Nat} (h : b < 2 ^ i) : b ||| a * 2 ^ i = a * 2 ^ i + b := by
  have he := Nat.two_pow_add_eq_or_of_lt h a
  rw [Nat.mul_comm a, Nat.or_comm]
  exact he.symm

theorem readU32Le_toNat (p₀ p₁ p₂ p₃ : UInt8) :
    (readU32Le p₀ p₁ p₂ p₃).toNat =
      p₃.toNat * 2 ^ 24 + (p₂.toNat * 2 ^ 16 + (p₁.toNat * 2 ^ 8 + p₀.toNat)) := by
  have h₀ := p₀.toNat_lt
  have h₁ := p₁.toNat_lt
  have h₂ := p₂.toNat_lt
  have h₃ := p₃.toNat_lt
  have m₁ : p₁.toNat * 2 ^ 8 % 2 ^ 32 = p₁.toNat * 2 ^ 8 := Nat.mod_eq_of_lt (by omega)
  have m₂ : p₂.toNat * 2 ^ 16 % 2 ^ 32 = p₂.toNat * 2 ^ 16 := Nat.mod_eq_of_lt (by omega)
  have m₃ : p₃.toNat * 2 ^ 24 % 2 ^ 32 = p₃.toNat * 2 ^ 24 := Nat.mod_eq_of_lt (by omega)
  have s₁ : p₁.toUInt32.toNat <<< (8 : UInt32).toNat % 2 ^ 32 = p₁.toNat * 2 ^ 8 := by
    rw [Nat.shiftLeft_eq]; exact m₁
  have s₂ : p₂.toUInt32.toNat <<< (16 : UInt32).toNat % 2 ^ 32 = p₂.toNat * 2 ^ 16 := by
    rw [Nat.shiftLeft_eq]; exact m₂
  have s₃ : p₃.toUInt32.toNat <<< (24 : UInt32).toNat % 2 ^ 32 = p₃.toNat * 2 ^ 24 := by
    rw [Nat.shiftLeft_eq]; exact m₃
  simp only [readU32Le, UInt32.toNat_or, UInt32.toNat_shiftLeft]
  rw [show (8 : UInt32).toNat % 32 = (8 : UInt32).toNat from rfl,
    show (16 : UInt32).toNat % 32 = (16 : UInt32).toNat from rfl,
    show (24 : UInt32).toNat % 32 = (24 : UInt32).toNat from rfl, s₁, s₂, s₃, UInt8.toNat_toUInt32,
    lor_mul_two_pow (a := p₁.toNat) (b := p₀.toNat) (by omega),
    lor_mul_two_pow (a := p₂.toNat) (b := p₁.toNat * 2 ^ 8 + p₀.toNat) (by omega),
    lor_mul_two_pow (a := p₃.toNat) (b := p₂.toNat * 2 ^ 16 + (p₁.toNat * 2 ^ 8 + p₀.toNat)) (by omega)]

theorem header_eq (len : UInt32) : ∃ p₀ p₁ p₂ p₃, header len = [p₀, p₁, p₂, p₃] ∧ readU32Le p₀ p₁ p₂ p₃ = len := by
  refine ⟨_, _, _, _, rfl, UInt32.toNat_inj.mp ?_⟩
  have h := len.toNat_lt
  have hm : ∀ k : Nat, k &&& 255 = k % 256 := fun k => Nat.and_two_pow_sub_one_eq_mod k 8
  rw [readU32Le_toNat]
  simp [Nat.shiftRight_eq_div_pow, hm]
  omega

theorem header_length (len : UInt32) : (header len).length = 4 := rfl

/-! ## One frame -/

/-- A payload the protocol can carry. -/
def Deliverable (maxFrameBytes : Nat) (p : Bytes) : Prop := 1 ≤ p.length ∧ p.length ≤ maxFrameBytes

/-- The frame of a payload. -/
def frame (p : Bytes) : Bytes := writeFrame [] p

theorem writeFrame_eq (tx p : Bytes) : writeFrame tx p = tx ++ frame p := by
  simp [frame, writeFrame]

theorem tryReadFrame_short {rx out : Bytes} {maxFrameBytes : Nat} (h : rx.length < 4) :
    tryReadFrame rx out maxFrameBytes = ⟨false, rx, out, none⟩ := by
  unfold tryReadFrame
  split
  next => simp at h; omega
  next => rfl

/-- What `try_read_frame` does once the header is there. -/
theorem tryReadFrame_header {len : UInt32} {body out : Bytes} {maxFrameBytes : Nat} :
    tryReadFrame (header len ++ body) out maxFrameBytes =
      if len.toNat = 0 then ⟨false, header len ++ body, out, some (bytes "invalid frame length 0")⟩
      else if maxFrameBytes < len.toNat then ⟨false, header len ++ body, out, some (bytes "frame too large")⟩
      else if body.length < len.toNat then ⟨false, header len ++ body, out, none⟩
      else ⟨true, body.drop len.toNat, body.take len.toNat, none⟩ := by
  obtain ⟨p₀, p₁, p₂, p₃, hh, hl⟩ := header_eq len
  have hlt : body.length + 1 + 1 + 1 + 1 < 4 + len.toNat ↔ body.length < len.toNat := by omega
  rw [hh]
  simp only [tryReadFrame, List.cons_append, List.nil_append, List.length_cons, hl, hlt]

section Frames

variable {maxFrameBytes : Nat} {p rest out : Bytes}

theorem length_toUInt32 (hmax : maxFrameBytes < 2 ^ 32) (hp : Deliverable maxFrameBytes p) :
    p.length.toUInt32.toNat = p.length := by
  have h : p.length < 2 ^ 32 := Nat.lt_of_le_of_lt hp.2 hmax
  simpa using h

theorem tryReadFrame_frame (hmax : maxFrameBytes < 2 ^ 32) (hp : Deliverable maxFrameBytes p) :
    tryReadFrame (frame p ++ rest) out maxFrameBytes = ⟨true, rest, p, none⟩ := by
  have hlen := length_toUInt32 hmax hp
  have h0 : ¬ p.length = 0 := by have := hp.1; omega
  have h1 : ¬ maxFrameBytes < p.length := by have := hp.2; omega
  have h2 : ¬ (p ++ rest).length < p.length := by simp
  rw [frame, writeFrame, List.nil_append, List.append_assoc, tryReadFrame_header, hlen, if_neg h0, if_neg h1,
    if_neg h2]
  simp

theorem tryReadFrame_part (hmax : maxFrameBytes < 2 ^ 32) (hp : Deliverable maxFrameBytes p) {a b : Bytes}
    (hf : frame p = a ++ b) (hb : b ≠ []) : tryReadFrame a out maxFrameBytes = ⟨false, a, out, none⟩ := by
  by_cases ha : a.length < 4
  · exact tryReadFrame_short ha
  rw [frame, writeFrame, List.nil_append] at hf
  -- The header lies in `a`; what is missing is part of the payload.
  obtain ⟨body, rfl, hbody⟩ : ∃ body, a = header p.length.toUInt32 ++ body ∧ p = body ++ b := by
    rcases List.append_eq_append_iff.mp hf with ⟨r, h₁, h₂⟩ | ⟨r, h₁, h₂⟩
    · exact ⟨r, h₁, h₂⟩
    · have hr : r = [] := by
        have := congrArg List.length h₁
        rw [header_length, List.length_append] at this
        exact List.length_eq_zero_iff.mp (by omega)
      subst hr
      exact ⟨[], by simpa using h₁.symm, by simpa using h₂.symm⟩
  have hlen := length_toUInt32 hmax hp
  have h0 : ¬ p.length = 0 := by have := hp.1; omega
  have h1 : ¬ maxFrameBytes < p.length := by have := hp.2; omega
  have h2 : body.length < p.length := by
    have := List.length_pos_iff.mpr hb
    rw [hbody, List.length_append]
    omega
  rw [tryReadFrame_header, hlen, if_neg h0, if_neg h1, if_pos h2]

/-- The frame format, read with `try_read_frame`. -/
def frames (hmax : maxFrameBytes < 2 ^ 32) : Lib.Framing Bytes UInt8 where
  enc := frame
  dec rx :=
    let r := tryReadFrame rx [] maxFrameBytes
    if r.ok then some (r.outJson, r.rx) else none
  valid := Deliverable maxFrameBytes
  dec_nil := rfl
  dec_enc p rest hp := by simp [tryReadFrame_frame hmax hp]
  dec_short p a b hp hf hb := by simp [tryReadFrame_part hmax hp hf hb]

end Frames

/-- A call that returns false leaves the buffer and the output, and reports
an error exactly when the header is there and encodes no deliverable
length. -/
theorem tryReadFrame_false {rx out : Bytes} {maxFrameBytes : Nat}
    (h : (tryReadFrame rx out maxFrameBytes).ok = false) :
    (tryReadFrame rx out maxFrameBytes).rx = rx ∧ (tryReadFrame rx out maxFrameBytes).outJson = out ∧
      ((tryReadFrame rx out maxFrameBytes).errMsg.isSome ↔
        ∃ p₀ p₁ p₂ p₃ body, rx = p₀ :: p₁ :: p₂ :: p₃ :: body ∧
          ((readU32Le p₀ p₁ p₂ p₃).toNat = 0 ∨ maxFrameBytes < (readU32Le p₀ p₁ p₂ p₃).toNat)) := by
  revert h
  unfold tryReadFrame
  split
  next p₀ p₁ p₂ p₃ body =>
    dsimp only
    split
    next h0 => exact fun _ => ⟨rfl, rfl, by simp [h0]⟩
    next h0 =>
      split
      next h1 => exact fun _ => ⟨rfl, rfl, by simp [h1]⟩
      next h1 =>
        split
        next => exact fun _ => ⟨rfl, rfl, by simp [h0, h1]⟩
        next => intro h; cases h
  next hshort =>
    refine fun _ => ⟨rfl, rfl, by simp, ?_⟩
    rintro ⟨p₀, p₁, p₂, p₃, body, rfl, -⟩
    exact absurd rfl (hshort p₀ p₁ p₂ p₃ body)

theorem header_readU32Le (p₀ p₁ p₂ p₃ : UInt8) : header (readU32Le p₀ p₁ p₂ p₃) = [p₀, p₁, p₂, p₃] := by
  obtain ⟨q₀, q₁, q₂, q₃, hh, hq⟩ := header_eq (readU32Le p₀ p₁ p₂ p₃)
  have hnat := congrArg UInt32.toNat hq
  rw [readU32Le_toNat, readU32Le_toNat] at hnat
  have hp : p₀.toNat < 256 ∧ p₁.toNat < 256 ∧ p₂.toNat < 256 ∧ p₃.toNat < 256 :=
    ⟨p₀.toNat_lt, p₁.toNat_lt, p₂.toNat_lt, p₃.toNat_lt⟩
  have hq : q₀.toNat < 256 ∧ q₁.toNat < 256 ∧ q₂.toNat < 256 ∧ q₃.toNat < 256 :=
    ⟨q₀.toNat_lt, q₁.toNat_lt, q₂.toNat_lt, q₃.toNat_lt⟩
  have heq : q₀ = p₀ ∧ q₁ = p₁ ∧ q₂ = p₂ ∧ q₃ = p₃ := by
    simp only [← UInt8.toNat_inj]
    omega
  rw [hh, heq.1, heq.2.1, heq.2.2.1, heq.2.2.2]

theorem tryReadFrame_ok {rx : Bytes} {maxFrameBytes : Nat} (h : (tryReadFrame rx [] maxFrameBytes).ok = true) :
    rx = frame (tryReadFrame rx [] maxFrameBytes).outJson ++ (tryReadFrame rx [] maxFrameBytes).rx ∧
      Deliverable maxFrameBytes (tryReadFrame rx [] maxFrameBytes).outJson := by
  unfold tryReadFrame at h ⊢
  split at h
  next p₀ p₁ p₂ p₃ body =>
    dsimp only at h ⊢
    generalize hlen : (readU32Le p₀ p₁ p₂ p₃).toNat = len at h ⊢
    split at h
    · cases h
    next h0 =>
      split at h
      · cases h
      next hmax =>
        split at h
        · cases h
        next hshort =>
          rw [if_neg h0, if_neg hmax, if_neg hshort]
          simp only [List.length_cons] at hshort
          have htake : (body.take len).length = len := by rw [List.length_take]; omega
          have hheader : header len.toUInt32 = [p₀, p₁, p₂, p₃] := by
            rw [← hlen, ← header_readU32Le]
            exact congrArg header (UInt32.ofNat_toNat ..)
          refine ⟨?_, by rw [htake]; omega, by rw [htake]; omega⟩
          rw [frame, writeFrame, htake, hheader]
          simp
  next => cases h

/-! ## The stream -/

/-- `try_read_frame` called until it returns false, at most `n` times. -/
def readFrames (maxFrameBytes : Nat) : Nat → Bytes → List Bytes × Bytes
  | 0, rx => ([], rx)
  | n + 1, rx =>
    let r := tryReadFrame rx [] maxFrameBytes
    if r.ok then (r.outJson :: (readFrames maxFrameBytes n r.rx).1, (readFrames maxFrameBytes n r.rx).2)
    else ([], rx)

/-- A sender, the bytes in flight, and a receiver. -/
structure Link where
  /-- The payloads appended so far. -/
  sent : List Bytes := []
  tx : Bytes := []
  wire : Bytes := []
  rx : Bytes := []
  /-- The payloads `try_read_frame` returned so far. -/
  got : List Bytes := []

inductive LinkOp
  /-- `write_frame` on `tx`. -/
  | append (p : Bytes)
  /-- A partial write: at most `n` bytes leave the front of `tx`. -/
  | write (n : Nat)
  /-- At most `n` of the bytes in flight arrive as one chunk. -/
  | deliver (n : Nat)

def Link.step (maxFrameBytes : Nat) (l : Link) : LinkOp → Link
  | .append p => { l with sent := l.sent ++ [p], tx := writeFrame l.tx p }
  | .write n => { l with tx := l.tx.drop n, wire := l.wire ++ l.tx.take n }
  | .deliver n =>
    let rx := l.rx ++ l.wire.take n
    let r := readFrames maxFrameBytes rx.length rx
    { l with wire := l.wire.drop n, rx := r.2, got := l.got ++ r.1 }

def Link.run (maxFrameBytes : Nat) (l : Link) (ops : List LinkOp) : Link := ops.foldl (Link.step maxFrameBytes) l

/-- Every payload appended by `ops` can be carried. -/
def LinkOp.Ok (maxFrameBytes : Nat) : LinkOp → Prop
  | .append p => Deliverable maxFrameBytes p
  | .write _ | .deliver _ => True

section Stream

variable {maxFrameBytes : Nat}

theorem readFrames_eq (hmax : maxFrameBytes < 2 ^ 32) (n : Nat) (rx : Bytes) :
    readFrames maxFrameBytes n rx = (frames hmax).drain n rx := by
  induction n generalizing rx with
  | zero => rfl
  | succ n ih =>
    simp only [readFrames, Lib.Framing.drain]
    by_cases h : (tryReadFrame rx [] maxFrameBytes).ok = true
    · have hd : (frames hmax).dec rx =
          some ((tryReadFrame rx [] maxFrameBytes).outJson, (tryReadFrame rx [] maxFrameBytes).rx) := if_pos h
      simp only [hd, h, if_true, ih]
    · have hd : (frames hmax).dec rx = none := if_neg h
      simp only [hd, h, Bool.false_eq_true, if_false]

/-- What is still on the way is the frames of the payloads not returned yet,
and the receiver is at the front of the first of them. -/
structure Link.Ok (maxFrameBytes : Nat) (l : Link) : Prop where
  valid : ∀ p ∈ l.sent, Deliverable maxFrameBytes p
  pending : ∃ left, l.sent = l.got ++ left ∧ left.flatMap frame = l.rx ++ l.wire ++ l.tx
  stopped : (tryReadFrame l.rx [] maxFrameBytes).ok = false

theorem Link.Ok.step (hmax : maxFrameBytes < 2 ^ 32) {l : Link} {op : LinkOp} (h : l.Ok maxFrameBytes)
    (hop : op.Ok maxFrameBytes) : (l.step maxFrameBytes op).Ok maxFrameBytes := by
  obtain ⟨hv, ⟨left, hs, hp⟩, hstop⟩ := h
  cases op with
  | append p =>
    refine ⟨fun q hq => ?_, ⟨left ++ [p], ?_, ?_⟩, hstop⟩
    · rcases List.mem_append.mp hq with hq | hq
      · exact hv q hq
      · exact List.mem_singleton.mp hq ▸ hop
    · simp only [Link.step]
      rw [hs, List.append_assoc]
    · simp only [Link.step]
      rw [List.flatMap_append, hp, writeFrame_eq]
      simp
  | write n =>
    refine ⟨hv, ⟨left, hs, ?_⟩, hstop⟩
    simp only [Link.step]
    rw [hp, List.append_assoc l.rx, List.append_assoc l.rx, List.append_assoc l.wire, List.take_append_drop]
  | deliver n =>
    have hleft : ∀ p ∈ left, Deliverable maxFrameBytes p := fun p hp' =>
      hv p (hs ▸ List.mem_append_right _ hp')
    have hp' : left.flatMap (frames hmax).enc = (l.rx ++ l.wire.take n) ++ (l.wire.drop n ++ l.tx) := by
      rw [show left.flatMap (frames hmax).enc = left.flatMap frame from rfl, hp, List.append_assoc l.rx,
        List.append_assoc l.rx, ← List.append_assoc (l.wire.take n), List.take_append_drop]
    obtain ⟨left', h₁, h₂, h₃⟩ := Lib.Framing.drain_spec hleft hp' (Nat.le_refl _)
    refine ⟨hv, ⟨left', ?_, ?_⟩, ?_⟩ <;> simp only [Link.step, readFrames_eq hmax]
    · rw [List.append_assoc, ← h₁, hs]
    · exact h₂.trans (by simp)
    · by_contra hok
      rw [Bool.not_eq_false] at hok
      have : (frames hmax).dec ((frames hmax).drain (l.rx ++ l.wire.take n).length (l.rx ++ l.wire.take n)).2 =
        some _ := if_pos hok
      rw [h₃] at this
      cases this

theorem Link.Ok.run (hmax : maxFrameBytes < 2 ^ 32) {l : Link} {ops : List LinkOp} (h : l.Ok maxFrameBytes)
    (hops : ∀ op ∈ ops, op.Ok maxFrameBytes) : (l.run maxFrameBytes ops).Ok maxFrameBytes := by
  induction ops generalizing l with
  | nil => exact h
  | cons op ops ih =>
    exact ih (h.step hmax (hops op List.mem_cons_self)) fun op' h' => hops op' (List.mem_cons_of_mem _ h')

theorem link_init_ok : ({} : Link).Ok maxFrameBytes :=
  ⟨by simp, ⟨[], rfl, rfl⟩, rfl⟩

/-- **Framed delivery.** However frames are appended, written in parts and
delivered in chunks, the payloads received are a prefix of the payloads sent,
all of them once nothing is left to write or deliver; the receiver has then
called `try_read_frame` until it returned false. A call that returns false
leaves `rx` and `out_json` as they were, and sets `err_msg` exactly when the
first four bytes encode 0 or more than `max_frame_bytes`. -/
theorem framed_delivery (hmax : maxFrameBytes < 2 ^ 32) (ops : List LinkOp)
    (hops : ∀ op ∈ ops, op.Ok maxFrameBytes) :
    (({} : Link).run maxFrameBytes ops).got <+: (({} : Link).run maxFrameBytes ops).sent ∧
    (tryReadFrame (({} : Link).run maxFrameBytes ops).rx [] maxFrameBytes).ok = false ∧
    ((({} : Link).run maxFrameBytes ops).tx = [] → (({} : Link).run maxFrameBytes ops).wire = [] →
      (({} : Link).run maxFrameBytes ops).got = (({} : Link).run maxFrameBytes ops).sent) ∧
    ∀ rx out, (tryReadFrame rx out maxFrameBytes).ok = false →
      (tryReadFrame rx out maxFrameBytes).rx = rx ∧ (tryReadFrame rx out maxFrameBytes).outJson = out ∧
      ((tryReadFrame rx out maxFrameBytes).errMsg.isSome ↔
        ∃ p₀ p₁ p₂ p₃ body, rx = p₀ :: p₁ :: p₂ :: p₃ :: body ∧
          ((readU32Le p₀ p₁ p₂ p₃).toNat = 0 ∨ maxFrameBytes < (readU32Le p₀ p₁ p₂ p₃).toNat)) := by
  obtain ⟨hv, ⟨left, hs, hp⟩, hstop⟩ := link_init_ok.run hmax hops
  refine ⟨⟨left, hs.symm⟩, hstop, fun htx hwire => ?_, fun rx out => tryReadFrame_false⟩
  -- All that is left is in `rx`, where a whole frame would have been read.
  cases left with
  | nil => rw [hs, List.append_nil]
  | cons p left =>
    have hd : Deliverable maxFrameBytes p := hv p (hs ▸ List.mem_append_right _ List.mem_cons_self)
    rw [htx, hwire, List.append_nil, List.append_nil, List.flatMap_cons] at hp
    rw [← hp, tryReadFrame_frame hmax hd] at hstop
    cases hstop

/-- Two frames, the second cut inside its header, arriving in three chunks. -/
theorem framed_delivery_two :
    (({} : Link).run 16 [.append [1, 2], .append [3], .write 8, .deliver 3, .write 9, .deliver 20]).got =
      [[1, 2], [3]] := by
  have h := framed_delivery (show 16 < 2 ^ 32 by decide)
    [.append [1, 2], .append [3], .write 8, .deliver 3, .write 9, .deliver 20]
    (by simp [LinkOp.Ok, Deliverable])
  exact (h.2.2.1 (by decide) (by decide)).trans (by decide)

end Stream
end UmaServe

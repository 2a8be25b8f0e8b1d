/-
What waits in `rx`. `on_readable` appends whatever the socket has and takes at
most one frame off the front; nothing compares the rest with the limit of a
frame, and nothing looks at it when a session is back to wait for a request.
`inbox` keeps what came in on a descriptor and what was taken of it: the
stream is the frames taken and then `rx` (`Inbox.Holds`), and how many were
taken is a matter of when the bytes came (`Lib.taken`). So `rx` stays within a
frame when the client keeps pace with the parser (`rx_bounded`), and no
request is left in it when no two come at once (`no_buffered_request`).
-/
import UmaServe.Lib.Backlog
import UmaServe.Ipc.Delivery
import UmaServe.Umad.Inbound

namespace UmaServe

/-! ## The frames of a stream -/

section Frames

variable {bs p rest : Bytes} {ps : List Bytes}

theorem maxFrame_lt : defaultMaxFrameBytes < 2 ^ 32 := by decide

theorem afterFrame_frame (hp : Deliverable defaultMaxFrameBytes p) : afterFrame (frame p ++ rest) = rest := by
  rw [afterFrame, tryReadFrame_frame maxFrame_lt hp]

theorem afterFrame_length (bs : Bytes) : (afterFrame bs).length ≤ bs.length := by
  cases hok : holdsFrame bs with
  | false => rw [afterFrame, tryReadFrame_rx hok]
  | true =>
    have h := congrArg List.length (tryReadFrame_ok hok).1
    rw [List.length_append] at h
    rw [afterFrame]
    omega

theorem afterFrame_antitone (bs : Bytes) : Antitone fun k => (afterFrame^[k] bs).length :=
  antitone_nat_of_succ_le fun k => by
    rw [Function.iterate_succ_apply']
    exact afterFrame_length _

theorem afterFrame_iterate (hv : ∀ p ∈ ps, Deliverable defaultMaxFrameBytes p) :
    afterFrame^[ps.length] (ps.flatMap frame ++ rest) = rest := by
  induction ps with
  | nil => rfl
  | cons p ps ih =>
    obtain ⟨hp, hv⟩ := List.forall_mem_cons.mp hv
    rw [List.length_cons, Function.iterate_succ_apply, List.flatMap_cons, List.append_assoc, afterFrame_frame hp]
    exact ih hv

/-- All the complete frames of a stream, from its front. -/
def framesIn (bs : Bytes) : List Bytes := (readFrames defaultMaxFrameBytes bs.length bs).1

theorem exists_frames (bs : Bytes) : ∃ (ps : List Bytes) (part : Bytes), (∀ p ∈ ps, Deliverable defaultMaxFrameBytes p) ∧
    bs = ps.flatMap frame ++ part ∧ holdsFrame part = false := by
  induction hn : bs.length using Nat.strong_induction_on generalizing bs with
  | _ n ih =>
    cases hok : holdsFrame bs with
    | false => exact ⟨[], bs, by simp, rfl, hok⟩
    | true =>
      obtain ⟨hbs, hp⟩ := tryReadFrame_ok hok
      have hlen : (afterFrame bs).length < n := by
        have h := congrArg List.length hbs
        rw [List.length_append, frame, writeFrame, List.nil_append, List.length_append, header_length] at h
        rw [afterFrame]
        omega
      obtain ⟨ps, part, hv, hps, hpart⟩ := ih _ hlen (afterFrame bs) rfl
      refine ⟨_ :: ps, part, List.forall_mem_cons.mpr ⟨hp, hv⟩, ?_, hpart⟩
      rw [List.flatMap_cons, List.append_assoc, ← hps]
      exact hbs

theorem framesIn_whole (hv : ∀ p ∈ ps, Deliverable defaultMaxFrameBytes p) (hrest : holdsFrame rest = false) :
    framesIn (ps.flatMap frame ++ rest) = ps := by
  have hdec : (frames maxFrame_lt).dec rest = none := if_neg (by rw [← holdsFrame, hrest]; simp)
  rw [framesIn, readFrames_eq maxFrame_lt]
  exact congrArg Prod.fst (Lib.Framing.drain_flatMap (F := frames maxFrame_lt) hv hdec (Nat.le_refl _))

theorem framesIn_flatMap (hv : ∀ p ∈ ps, Deliverable defaultMaxFrameBytes p) :
    framesIn (ps.flatMap frame ++ rest) = ps ++ framesIn rest := by
  obtain ⟨qs, part, hq, rfl, hpart⟩ := exists_frames rest
  rw [framesIn_whole hq hpart, ← List.append_assoc, ← List.flatMap_append]
  exact framesIn_whole (List.forall_mem_append.mpr ⟨hv, hq⟩) hpart

theorem framesIn_eq_nil : framesIn bs = [] ↔ holdsFrame bs = false := by
  refine ⟨fun h => ?_, framesIn_whole (List.forall_mem_nil _)⟩
  cases hok : holdsFrame bs with
  | false => rfl
  | true =>
    obtain ⟨hbs, hp⟩ := tryReadFrame_ok hok
    rw [hbs, ← List.flatMap_singleton frame, framesIn_flatMap (List.forall_mem_singleton.mpr hp)] at h
    cases h

theorem framesIn_append (bs c : Bytes) : framesIn bs <+: framesIn (bs ++ c) := by
  obtain ⟨ps, part, hv, rfl, hpart⟩ := exists_frames bs
  rw [framesIn_whole hv hpart, List.append_assoc, framesIn_flatMap hv]
  exact List.prefix_append _ _

end Frames

/-! ## What came in, and what was taken -/

/-- What the readable events of a connection brought, the last event first,
each with whether no read failed. -/
abbrev Arrivals := List (Bytes × Bool)

def arrival (reads : List ReadRes) : Bytes × Bool := (arrived reads, decide (readEnd reads ≠ .error))

/-- The stream of the connection, as far as it was read. -/
def streamed : Arrivals → Bytes
  | [] => []
  | e :: l => streamed l ++ e.1

/-- How many frames were complete. -/
def completed (l : Arrivals) : Nat := (framesIn (streamed l)).length

structure Inbox where
  arrivals : Arrivals := []
  /-- The payloads of the frames taken from `rx`. -/
  taken : List Bytes := []

def inbox : Ledger Inbox where
  fresh := {}
  read s nowNs reads b :=
    { arrivals := arrival reads :: b.arrivals
      taken := b.taken ++ (s.frame? nowNs reads).toList }

/-- The stream is the frames taken and what `rx` holds. -/
structure Inbox.Holds (b : Inbox) (s : ClientSession) : Prop where
  valid : ∀ p ∈ b.taken, Deliverable defaultMaxFrameBytes p
  stream : streamed b.arrivals = b.taken.flatMap frame ++ s.rx
  count : b.taken.length = Lib.taken completed Prod.snd b.arrivals

section Inbox

variable {pf : Platform} {cfg : RuntimeConfig} {vocab : Vocab} {b : Inbox} {s s' : ClientSession} {nowNs : Nat} {next : Int}
  {reads : List ReadRes} {e : Bytes × Bool} {l : Arrivals} {p : Daemon × (Int → Inbox)} {fd : Int}
  {D : Daemon × (Int → Inbox) → Action → Prop}

theorem completed_mono (e : Bytes × Bool) (l : Arrivals) : completed l ≤ completed (e :: l) :=
  (framesIn_append (streamed l) e.1).length_le

theorem Inbox.Holds.rx_eq (h : b.Holds s) : s.rx = afterFrame^[b.taken.length] (streamed b.arrivals) := by
  rw [h.stream, afterFrame_iterate h.valid]

theorem Inbox.Holds.framesIn_eq (h : b.Holds s) : framesIn (streamed b.arrivals) = b.taken ++ framesIn s.rx := by
  rw [h.stream, framesIn_flatMap h.valid]

/-- What is taken of `rx` with the bytes that arrived. -/
theorem taken_frames (nowNs : Nat) (reads : List ReadRes) (h : b.Holds s) :
    (∀ p ∈ (inbox.read s nowNs reads b).taken, Deliverable defaultMaxFrameBytes p) ∧
      streamed (arrival reads :: b.arrivals) = (inbox.read s nowNs reads b).taken.flatMap frame ++
        (if readEnd reads = .error then s.rx ++ arrived reads else afterFrame (s.rx ++ arrived reads)) ∧
      (inbox.read s nowNs reads b).taken.length = Lib.taken completed Prod.snd (arrival reads :: b.arrivals) := by
  have hstream : streamed (arrival reads :: b.arrivals) = b.taken.flatMap frame ++ (s.rx ++ arrived reads) := by
    rw [streamed, h.stream, List.append_assoc, arrival]
  have hcomplete : completed (arrival reads :: b.arrivals) =
      b.taken.length + (framesIn (s.rx ++ arrived reads)).length := by
    rw [completed, hstream, framesIn_flatMap h.valid, List.length_append]
  have hcount := Lib.taken_cons Prod.snd (Nat.le_trans (Lib.taken_le_total Prod.snd completed_mono b.arrivals)
    (completed_mono (arrival reads) b.arrivals))
  rw [← h.count, hcomplete] at hcount
  rw [hcount, hstream]
  cases hf : s.frame? nowNs reads with
  | none =>
    have hnone : (inbox.read s nowNs reads b).taken = b.taken := by simp [inbox, hf]
    rw [hnone]
    refine ⟨h.valid, ?_, ?_⟩
    · split
      next => rfl
      next hne => rw [afterFrame_none hf hne]
    · by_cases herr : readEnd reads = .error
      · simp [arrival, herr]
      · have hnil : framesIn (s.rx ++ arrived reads) = [] := by
          rw [framesIn_eq_nil]
          by_contra hok
          rw [ClientSession.frame?, ClientSession.attempt, drain_end, received_rx, if_neg herr, Option.bind_some,
            if_pos (by simpa [holdsFrame] using hok)] at hf
          cases hf
        simp [hnil]
  | some js =>
    obtain ⟨hne, hok, hjs⟩ := frame?_some hf
    obtain ⟨hfront, hd⟩ := tryReadFrame_ok hok
    rw [hjs] at hfront hd
    have hsome : (inbox.read s nowNs reads b).taken = b.taken ++ [js] := by simp [inbox, hf]
    have hpos : 0 < (framesIn (s.rx ++ arrived reads)).length := by
      rw [List.length_pos_iff, Ne, framesIn_eq_nil, hok]
      simp
    rw [hsome, if_neg hne]
    refine ⟨List.forall_mem_append.mpr ⟨h.valid, List.forall_mem_singleton.mpr hd⟩, ?_, ?_⟩
    · rw [List.flatMap_append, List.flatMap_singleton, List.append_assoc]
      exact congrArg _ hfront
    · rw [List.length_append, List.length_singleton, arrival, decide_eq_true hne, Bool.toNat_true]
      omega

theorem Inbox.Holds.read (h : b.Holds s) :
    (inbox.read s nowNs reads b).Holds (s.read cfg vocab nowNs next reads).session := by
  obtain ⟨hv, hstream, hcount⟩ := taken_frames nowNs reads h
  refine ⟨hv, ?_, hcount⟩
  rw [(read_transport cfg vocab nowNs next reads s).1]
  exact hstream

theorem Inbox.Holds.still (h : b.Holds s) (hrx : s'.rx = s.rx) : b.Holds s' :=
  ⟨h.valid, by rw [hrx]; exact h.stream, h.count⟩

theorem inbox_of_reach (h : (inbox.daemon pf cfg).Reach D p) (hs : p.1.find fd = some s) : (p.2 fd).Holds s :=
  Ledger.request_invariant (I := Inbox.Holds) (fun _ _ => ⟨by simp [inbox], rfl, rfl⟩)
    (fun _ _ _ h => h.still rfl) (fun _ _ _ _ h => h.still rfl) (fun _ _ h => h.still rfl)
    (fun _ _ _ _ _ _ _ _ _ _ h => h.read) (fun _ _ _ _ _ _ _ _ _ _ h => h)
    (fun _ _ _ _ _ _ _ _ _ _ _ _ _ hserved h => h.still hserved.transport.1) h hs

end Inbox

/-! ## How much is left -/

/-- A header and the largest frame. -/
def maxRxBytes : Nat := 4 + defaultMaxFrameBytes

/-- The client keeps pace: take any earlier moment of the connection, and of
all that came until now skip the frames that were complete then and one more
complete frame for each readable event since in which no read failed; what is
behind them is at most a header and a frame. -/
def Paced (l : Arrivals) : Prop :=
  ∀ late early, l = late ++ early →
    (afterFrame^[completed early + late.countP Prod.snd] (streamed l)).length ≤ maxRxBytes

section Paced

variable {pf : Platform} {cfg : RuntimeConfig} {b : Inbox} {s : ClientSession} {p : Daemon × (Int → Inbox)} {fd : Int}

theorem Inbox.Holds.bounded_iff (h : b.Holds s) : s.rx.length ≤ maxRxBytes ↔ Paced b.arrivals := by
  rw [h.rx_eq, h.count]
  constructor
  · intro hle late early hl
    have hk := Lib.taken_le Prod.snd completed_mono late early
    rw [← hl] at hk
    exact Nat.le_trans (afterFrame_antitone (streamed b.arrivals) hk) hle
  · intro hpaced
    obtain ⟨late, early, hl, hk⟩ := Lib.exists_taken_eq Prod.snd rfl completed_mono b.arrivals
    rw [hk]
    exact hpaced late early hl

/-- **The receive buffer is bounded** by a header and the largest frame
exactly when the client keeps pace: after every call of `on_readable` and in
every state of every run. -/
theorem rx_bounded (h : (inbox.daemon pf cfg).Reach Lib.Always p) (hs : p.1.find fd = some s) (nowNs : Nat)
    (reads : List ReadRes) :
    (∃ s', (p.1.mgr.onReadable fd cfg pf.vocab nowNs reads).1.sessions.lookup fd = some s' ∧
      (s'.rx.length ≤ 4 + defaultMaxFrameBytes ↔ Paced (arrival reads :: (p.2 fd).arrivals))) ∧
    (s.rx.length ≤ 4 + defaultMaxFrameBytes ↔ Paced (p.2 fd).arrivals) := by
  have hholds := inbox_of_reach h hs
  exact ⟨⟨_, (onReadable_read hs).1, hholds.read.bounded_iff⟩, hholds.bounded_iff⟩

/-- A request and its response. -/
theorem rx_bounded_one :
    ∃ s, ((inbox.daemon small {}).after (inbox.daemon small {}).init (answered (request "a"))).1.find 7 = some s ∧
      (s.rx.length ≤ 4 + defaultMaxFrameBytes ↔ Paced (((inbox.daemon small {}).after (inbox.daemon small {}).init
        (answered (request "a"))).2 7).arrivals) := by
  have hr : (inbox.daemon small {}).Reach Lib.Always
      ((inbox.daemon small {}).after (inbox.daemon small {}).init (answered (request "a"))) :=
    Lib.System.Reach.init.run (by decide +kernel)
  have hsome : (((inbox.daemon small {}).after (inbox.daemon small {}).init
      (answered (request "a"))).1.find 7).isSome = true := by decide +kernel
  obtain ⟨s, hs⟩ := Option.isSome_iff_exists.mp hsome
  exact ⟨s, hs, (rx_bounded hr hs 5 []).2⟩

/-- `n` reads that each fill a buffer of `k + 1` bytes with zeros. -/
def zeros (n k : Nat) : List ReadRes := List.replicate n (.data 0 (List.replicate k 0))

theorem arrived_zeros (n k : Nat) : arrived (zeros n k) = List.replicate (n * (k + 1)) 0 := by
  induction n with
  | zero => simp [zeros, arrived]
  | succ n ih =>
    rw [zeros, List.replicate_succ, arrived, ← zeros, ih, Nat.succ_mul, Nat.add_comm (n * (k + 1)),
      List.replicate_add, List.replicate_succ]

/-- More than a frame of zeros in one readable event: the header is invalid,
and all of it stays in `rx`. -/
theorem rx_flood : ∃ s, (oneSession.onReadable 7 {} small.vocab 2 (zeros 257 4095)).1.sessions.lookup 7 = some s ∧
    4 + defaultMaxFrameBytes < s.rx.length := by
  have hs : oneSession.sessions.lookup 7 = some { fd := 7 } := rfl
  refine ⟨_, (onReadable_read hs).1, ?_⟩
  have hok : holdsFrame (List.replicate (257 * (4095 + 1)) 0) = false := by
    rw [show 257 * (4095 + 1) = 1052668 + 4 from rfl, List.replicate_add]
    rfl
  rw [(read_transport {} small.vocab 2 oneSession.nextSeqId (zeros 257 4095) { fd := 7 }).1, arrived_zeros,
    List.nil_append, afterFrame, tryReadFrame_rx hok, ite_self, List.length_replicate]
  decide

end Paced

/-! ## Requests left behind -/

/-- A readable event completes at most one frame of the stream, and none when
a read fails. -/
def OneByOne (p : Daemon × (Int → Inbox)) : Action → Prop
  | .readable fd reads _ _ => p.1.find fd ≠ none →
      completed (arrival reads :: (p.2 fd).arrivals) ≤ completed (p.2 fd).arrivals + (arrival reads).2.toNat
  | _ => True

/-- The request of the payload is under way: its prompt is to be fed, or, if
it has no tokens, its answer is to be written. -/
structure Begun (vocab : Vocab) (js : Bytes) (s : ClientSession) : Prop where
  id : s.requestId = (extractJsonString js (bytes "id")).1
  prompt : s.promptTokens = promptOf vocab js
  feeds : promptOf vocab js ≠ [] → s.state = .prefill ∧ s.prefillIdx = 0
  replies : promptOf vocab js = [] → ∃ tx, s.tx = (Event.eos s.requestId (bytes "stop")).append tx

section OneByOne

variable {pf : Platform} {cfg : RuntimeConfig} {vocab : Vocab} {b : Inbox} {s : ClientSession} {nowNs : Nat}
  {next : Int} {reads : List ReadRes} {p : Daemon × (Int → Inbox)} {fd : Int} {js : Bytes}

instance (p : Daemon × (Int → Inbox)) : ∀ a, Decidable (OneByOne p a)
  | .readable _ _ _ _ => inferInstanceAs (Decidable (_ → _))
  | .accept _ _ _ | .writable _ _ _ | .idle _ | .tick _ _ => inferInstanceAs (Decidable True)

theorem Inbox.Holds.caughtUp (h : b.Holds s) (hall : b.taken = framesIn (streamed b.arrivals)) :
    holdsFrame s.rx = false := by
  have heq := h.framesIn_eq
  rw [← hall] at heq
  exact framesIn_eq_nil.mp (List.self_eq_append_right.mp heq)

theorem Inbox.Holds.all_taken (h : b.Holds s) (hall : b.taken = framesIn (streamed b.arrivals))
    (hone : completed (arrival reads :: b.arrivals) ≤ completed b.arrivals + (arrival reads).2.toNat) :
    (inbox.read s nowNs reads b).taken = framesIn (streamed (arrival reads :: b.arrivals)) := by
  obtain ⟨hv, hstream, hcount⟩ := taken_frames nowNs reads h
  have hbefore : Lib.taken completed Prod.snd b.arrivals = completed b.arrivals := by rw [← h.count, hall, completed]
  have hafter := hcount.trans (Lib.taken_eq_total Prod.snd completed_mono hone hbefore)
  have hprefix : (inbox.read s nowNs reads b).taken <+: framesIn (streamed (arrival reads :: b.arrivals)) := by
    rw [hstream, framesIn_flatMap hv]
    exact List.prefix_append _ _
  exact hprefix.eq_of_length hafter

theorem begun_of_accepts (cfg : RuntimeConfig) (vocab : Vocab) (next : Int) (hf : s.frame? nowNs reads = some js)
    (hacc : acceptsRequest cfg js = true) : Begun vocab js (s.read cfg vocab nowNs next reads).session := by
  obtain ⟨rx, act, rc, rr, -, -, hframed⟩ := read_framed cfg vocab next hf
  generalize s.read cfg vocab nowNs next reads = o at hframed ⊢
  rw [acceptsRequest_eq, Bool.and_eq_true, decide_eq_true_eq] at hacc
  cases hframed with
  | admin hadm => simp [namesRequest, hadm] at hacc
  | unnamed _ hnames => simp [hnames] at hacc
  | tooLarge _ _ hlong => exact absurd hacc.2 (Nat.not_le.mpr hlong)
  | empty _ _ hnil => exact ⟨rfl, hnil.symm, fun hne => absurd hnil hne, fun _ => ⟨_, rfl⟩⟩
  | started _ _ hne => exact ⟨rfl, rfl, fun _ => ⟨rfl, rfl⟩, fun hnil => absurd hnil hne⟩

/-- **No request is lost in the receive buffer**, in every run whose readable
events complete no two frames: a session that waits for bytes has no complete
frame, every complete frame that was read, also on a connection closed since,
was taken, and a frame taken that holds a request has started it. -/
theorem no_buffered_request (h : (inbox.daemon pf cfg).Reach OneByOne p) (fd : Int) :
    (∀ s, p.1.find fd = some s → s.state = .recvReq → holdsFrame s.rx = false) ∧
    (p.2 fd).taken = framesIn (streamed (p.2 fd).arrivals) ∧
    ∀ s nowNs reads js, p.1.find fd = some s → s.frame? nowNs reads = some js → acceptsRequest cfg js = true →
      ∃ s', (p.1.mgr.onReadable fd cfg pf.vocab nowNs reads).1.sessions.lookup fd = some s' ∧ Begun pf.vocab js s' := by
  have hall : (p.2 fd).taken = framesIn (streamed (p.2 fd).arrivals) := by
    refine Ledger.entries_invariant (P := fun b : Inbox => b.taken = framesIn (streamed b.arrivals)) rfl ?_
      (fun _ _ _ _ _ _ _ hb => hb) h fd
    intro d g fd reads now nowNs s hr hc hs hb
    exact (inbox_of_reach hr hs).all_taken hb (hc (by rw [hs]; simp))
  refine ⟨fun s hs _ => (inbox_of_reach h hs).caughtUp hall, hall, fun s nowNs reads js hs hf hacc => ?_⟩
  exact ⟨_, (onReadable_read hs).1, begun_of_accepts cfg pf.vocab p.1.mgr.nextSeqId hf hacc⟩

theorem no_buffered_request_one :
    ∃ s, ((inbox.daemon small {}).after (inbox.daemon small {}).init (answered (request "a"))).1.find 7 = some s ∧
      s.state = .recvReq ∧ holdsFrame s.rx = false := by
  have hst : (((inbox.daemon small {}).after (inbox.daemon small {}).init (answered (request "a"))).1.find 7).map
      (fun s => s.state) = some .recvReq := by decide +kernel
  obtain ⟨s, hs, hst⟩ := Option.map_eq_some_iff.mp hst
  have hr : (inbox.daemon small {}).Reach OneByOne
      ((inbox.daemon small {}).after (inbox.daemon small {}).init (answered (request "a"))) :=
    Lib.System.Reach.init.run (by decide +kernel)
  exact ⟨s, hs, hst, (no_buffered_request hr 7).1 s hs hst⟩

/-- Two requests arrive together. The first is answered; then the session
waits for bytes, with the second in `rx` and nothing else to do. -/
theorem no_buffered_request_two :
    ∃ d, (umad small {}).Reach Lib.Always d ∧ d.hasReadyWork = false ∧
      ∃ s, d.find 7 = some s ∧ s.state = .recvReq ∧ holdsFrame s.rx = true := by
  refine ⟨(umad small {}).after (umad small {}).init (answered (request "a" ++ request "b")),
    Lib.System.Reach.init.run (by decide +kernel), by decide +kernel, ?_⟩
  have hst : (((umad small {}).after (umad small {}).init (answered (request "a" ++ request "b"))).find 7).map
      (fun s => (s.state, holdsFrame s.rx)) = some (.recvReq, true) := by decide +kernel
  obtain ⟨s, hs, hst⟩ := Option.map_eq_some_iff.mp hst
  rw [Prod.mk.injEq] at hst
  exact ⟨s, hs, hst⟩

end OneByOne
end UmaServe

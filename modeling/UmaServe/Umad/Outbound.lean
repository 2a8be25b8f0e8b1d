/-
What becomes of what was appended to `tx`. Two results hold only in some
runs, and each is stated with the runs in which it does: the write filter is
registered whenever `tx` has bytes (`write_interest`; a failed decode arms
nothing), and an error is the end of a session (`errors_final`; a failed
decode leaves the read filter on, so a later request revives the session).
-/
import UmaServe.Umad.Responses

namespace UmaServe

section Outbound

variable {pf : Platform} {cfg : RuntimeConfig} {d : Daemon} {fd : Int} {s : ClientSession}

/-! ## The write filter -/

/-- A decode that fails finds the write filter of every session with a row
in the batch registered already. -/
def FailsArmed (cfg : RuntimeConfig) (d : Daemon) : Action → Prop
  | .tick _ out => out.rc ≠ 0 → ∀ it ∈ d.sched.items cfg d.mgr.sessions, ∀ s ∈ d.find it.fd,
      (itemRows s it).isEmpty = false → d.poller.write it.fd = true
  | _ => True

instance : ∀ a, Decidable (FailsArmed cfg d a)
  | .tick _ _ => inferInstanceAs (Decidable (_ → ∀ it ∈ _, ∀ s ∈ _, _))
  | .accept _ _ _ | .readable _ _ _ _ | .writable _ _ _ | .idle _ => inferInstanceAs (Decidable True)

/-- **Write interest.** In every run whose failed decodes find the write
filters of their sessions registered, every session with something in `tx`
has its write filter registered, in every state: so at the end of every
iteration of the main loop. -/
theorem write_interest (h : (umad pf cfg).Reach (FailsArmed cfg) d) (hs : d.find fd = some s) (htx : s.tx ≠ []) :
    d.poller.write fd = true := by
  refine view_invariant (I := fun v => ∀ s ∈ v.session, s.tx ≠ [] → v.write = true) (by simp) ?_ h fd s hs htx
  intro d a fd next v v' hr he hc hv hmove hi s' hs' htx
  cases hmove with
  | same => exact hi s' hs' htx
  | accepted => cases hs'; exact absurd rfl htx
  | @quiet reads now nowNs s =>
    cases hs'
    obtain ⟨rx, act, rc, -, he⟩ := s.received_eq nowNs reads
    rw [he] at htx
    exact hi s rfl htx
  | rejected | metrics | empty => rfl
  | emptied | drained | finished => cases hs'; exact absurd rfl htx
  | @started _ _ _ s _ _ _ _ _ _ _ ht =>
    cases hs'
    obtain ⟨rx, act, rc, id, temp, p, k, -, rfl⟩ := ht
    exact hi s rfl htx
  | @sent _ _ _ s _ _ tx hne hsuf =>
    refine hi s rfl fun hnil => hne ?_
    rw [hnil] at hsuf
    exact List.suffix_nil.mp hsuf
  | idled _ hw => cases hs'; exact hw (hi _ rfl htx)
  | @served nowNs out s s₁ r w w' before it hserves hserved hw harm =>
    cases hs'
    by_cases hrc : out.rc = 0
    · by_cases h₀ : s.tx = []
      · exact harm hrc h₀ htx
      · exact hw (hi s rfl h₀)
    · -- A failed decode: the filter has to be there already.
      have hreg := hc hrc it hserves.mem s hserves.item_lookup (List.isEmpty_eq_false_iff.mpr hserves.rows_ne)
      rw [hserves.fd_eq] at hreg
      exact hw ((congrArg View.write hv).symm.trans hreg)
  | closed => cases hs'

/-- Two iterations, the decode of the second failing. -/
def failedDecode : List Action :=
  [.accept 7 [7] 1, .idle 1, .tick 1 (choosing 1), .readable 7 (request "ab") .wouldBlock 2, .idle 2,
    .tick 2 { rc := 1, rows := fun _ => none }]

/-- A decode fails that finds nothing left to write: the error is in `tx`, and
no write filter is registered. -/
theorem write_interest_lost :
    ∃ d, (umad small {}).Reach Lib.Always d ∧ ∃ fd s, d.find fd = some s ∧ s.tx ≠ [] ∧ d.poller.write fd = false := by
  refine ⟨(umad small {}).after (umad small {}).init failedDecode, Lib.System.Reach.init.run (by decide +kernel), 7, ?_⟩
  have htx : (((umad small {}).after (umad small {}).init failedDecode).find 7).map (fun s => s.tx.isEmpty) =
      some false := by decide +kernel
  obtain ⟨s, hs, htx⟩ := Option.map_eq_some_iff.mp htx
  exact ⟨s, hs, List.isEmpty_eq_false_iff.mp htx, by decide +kernel⟩

/-- The same failure while a token is still to be written. -/
def failedArmed : List Action :=
  [.accept 7 [7] 1, .readable 7 (request "ab") .wouldBlock 2, .tick 2 (choosing 1),
    .tick 3 { rc := 1, rows := fun _ => none }]

theorem write_interest_armed :
    ∃ s, ((umad small {}).after (umad small {}).init failedArmed).find 7 = some s ∧ s.state = .errored ∧
      ((umad small {}).after (umad small {}).init failedArmed).poller.write 7 = true := by
  have hst : (((umad small {}).after (umad small {}).init failedArmed).find 7).map
      (fun s => (s.state, s.tx.isEmpty)) = some (.errored, false) := by decide +kernel
  obtain ⟨s, hs, hst⟩ := Option.map_eq_some_iff.mp hst
  rw [Prod.mk.injEq] at hst
  have hr : (umad small {}).Reach (FailsArmed {}) ((umad small {}).after (umad small {}).init failedArmed) :=
    Lib.System.Reach.init.run (by decide +kernel)
  exact ⟨s, hs, hst.1, write_interest hr hs (List.isEmpty_eq_false_iff.mp hst.2)⟩

/-! ## After an error -/

/-- No frame that would be answered other than by an error is parsed on a
session whose decode failed. -/
def NoRevival (cfg : RuntimeConfig) (d : Daemon) : Action → Prop
  | .readable fd reads _ nowNs => ∀ s ∈ d.find fd, s.state = .errored → ∀ js ∈ s.frame? nowNs reads,
      isAdminRequest js = false ∧ acceptsRequest cfg js = false
  | _ => True

instance : ∀ a, Decidable (NoRevival cfg d a)
  | .readable _ _ _ _ => inferInstanceAs (Decidable (∀ s ∈ _, _))
  | .accept _ _ _ | .writable _ _ _ | .idle _ | .tick _ _ => inferInstanceAs (Decidable True)

/-- Only errors follow an error. -/
def ErrorsLast (es : List Event) : Prop := es.Pairwise fun e e' => e.isError = true → e'.isError = true

/-- An error was appended. -/
def Failed (s : ClientSession) : Prop := ∃ e ∈ s.hist.events, e.isError = true

/-- Where a failed session waits for its `tx` to be written: it will be
closed then, and it is not read unless a decode failed. -/
structure Doomed (s : ClientSession) (read : Bool) : Prop where
  state : s.state = .errored ∨ s.state = .stream ∧ s.readClosed = true ∧ read = false
  tx : s.tx ≠ []

structure Final (s : ClientSession) (read : Bool) : Prop where
  last : ErrorsLast s.hist.events
  doomed : Failed s → Doomed s read

theorem errorsLast_error {es : List Event} (h : ErrorsLast es) {e : Event} (he : e.isError = true) :
    ErrorsLast (es ++ [e]) := by
  refine List.pairwise_append.mpr ⟨h, List.pairwise_singleton _ _, fun a _ b hb _ => ?_⟩
  rw [List.mem_singleton] at hb
  rw [hb]; exact he

theorem errorsLast_append {es : List Event} (hes : ¬ ∃ e ∈ es, e.isError = true) (new : List Event)
    (hnew : ¬ ∃ e ∈ new, e.isError = true) : ErrorsLast (es ++ new) ∧ ¬ ∃ e ∈ es ++ new, e.isError = true := by
  have hno : ¬ ∃ e ∈ es ++ new, e.isError = true := by
    intro ⟨e, he, herr⟩
    rcases List.mem_append.mp he with he | he
    · exact hes ⟨e, he, herr⟩
    · exact hnew ⟨e, he, herr⟩
  exact ⟨List.Pairwise.imp_of_mem (fun ha _ _ herr => absurd ⟨_, ha, herr⟩ hno)
    (List.pairwise_of_forall fun _ _ => trivial), hno⟩

theorem Final.of_append {s' : ClientSession} {read : Bool} (hf : ¬ Failed s) (new : List Event)
    (hev : s'.hist.events = s.hist.events ++ new) (hnew : ¬ ∃ e ∈ new, e.isError = true) : Final s' read := by
  obtain ⟨hlast, hno⟩ := errorsLast_append hf new hnew
  exact ⟨by rw [hev]; exact hlast, fun ⟨e, he, herr⟩ => absurd ⟨e, hev ▸ he, herr⟩ hno⟩

theorem Emission.final {new : List Event} {s' : ClientSession} {read : Bool} (hf : ¬ Failed s)
    (hem : Emission pf.vocab s new s'.state) (htx : s'.tx = new.foldl Event.append s.tx)
    (hev : s'.hist.events = s.hist.events ++ new) : Final s' read := by
  generalize hst : s'.state = st at hem
  cases hem with
  | error =>
    have hlast : ErrorsLast s.hist.events := by
      have := (errorsLast_append hf [] (by simp)).1
      rwa [List.append_nil] at this
    exact ⟨by rw [hev]; exact errorsLast_error hlast rfl, fun _ =>
      ⟨.inl hst, by rw [htx, List.foldl_cons]; exact append_ne_nil _ _⟩⟩
  | nothing => exact .of_append hf [] hev (by simp)
  | token =>
    refine .of_append hf _ hev ?_
    intro ⟨e, he, herr⟩
    have := (pieceEvents_mem he).1
    cases e <;> simp_all [Event.isToken, Event.isError]
  | eos => exact .of_append hf _ hev (by simp [Event.isError])

/-- A frame that is answered other than by an error comes to a session that
has not failed. -/
theorem not_failed_of_answered {reads : List ReadRes} {now : WriteRes} {nowNs : Nat} {js : Bytes} {r w : Bool}
    (he : d.Enabled pf cfg (.readable fd reads now nowNs)) (hc : NoRevival cfg d (.readable fd reads now nowNs))
    (hv : d.view fd = ⟨some s, r, w⟩) (hi : Final s r) (hfr : s.frame? nowNs reads = some js)
    (hans : isAdminRequest js = true ∨ acceptsRequest cfg js = true) : ¬ Failed s := by
  intro hf
  rcases (hi.doomed hf).state with hst | ⟨-, -, hread⟩
  · obtain ⟨h₁, h₂⟩ := hc s (congrArg View.session hv) hst js hfr
    rw [h₁, h₂] at hans
    simp at hans
  · have hr : d.poller.read fd = r := congrArg View.read hv
    rw [he.1] at hr
    rw [← hr] at hread
    cases hread

theorem final_of_reach (h : (umad pf cfg).Reach (NoRevival cfg) d) (hs : d.find fd = some s) :
    Final s (d.poller.read fd) := by
  refine view_invariant (I := fun v => ∀ s ∈ v.session, Final s v.read) (by simp) ?_ h fd s hs
  intro d a fd next v v' hr he hc hv hmove hi s' hs'
  cases hmove with
  | same => exact hi s' hs'
  | accepted => cases hs'; exact ⟨List.Pairwise.nil, fun ⟨e, he, _⟩ => by cases he⟩
  | @quiet reads now nowNs s r w r' _ hr' =>
    cases hs'
    obtain ⟨rx, act, rc, hrc, heq⟩ := s.received_eq nowNs reads
    rw [heq]
    refine ⟨(hi s rfl).last, fun hf => ⟨?_, ((hi s rfl).doomed hf).tx⟩⟩
    rcases ((hi s rfl).doomed hf).state with hst | ⟨hst, hcl, hread⟩
    · exact .inl hst
    · exact .inr ⟨hst, hrc hcl, by cases r' <;> simp_all⟩
  | @rejected reads now nowNs s t r w id code message tx _ ht _ hne _ =>
    cases hs'
    obtain ⟨rx, act, rc, id', temp, p, k, -, rfl⟩ := ht
    exact ⟨errorsLast_error (hi s rfl).last rfl, fun _ => ⟨.inr ⟨rfl, rfl, rfl⟩, hne⟩⟩
  | @metrics reads now nowNs s t r w js json tx _ ht hfr hadm =>
    cases hs'
    have hf := not_failed_of_answered he hc hv (hi s rfl) hfr (.inl hadm)
    obtain ⟨rx, act, rc, id, temp, p, k, -, rfl⟩ := ht
    exact .of_append hf [.metrics json] rfl (by simp [Event.isError])
  | @empty reads now nowNs s t r w r' js tx _ ht hfr hacc =>
    cases hs'
    have hf := not_failed_of_answered he hc hv (hi s rfl) hfr (.inr hacc)
    obtain ⟨rx, act, rc, id, temp, p, k, -, rfl⟩ := ht
    exact .of_append hf [.eos id (bytes "stop")] rfl (by simp [Event.isError])
  | @emptied reads now nowNs s t r w js _ ht hfr hacc =>
    cases hs'
    have hf := not_failed_of_answered he hc hv (hi s rfl) hfr (.inr hacc)
    obtain ⟨rx, act, rc, id, temp, p, k, -, rfl⟩ := ht
    exact .of_append hf [.eos id (bytes "stop")] rfl (by simp [Event.isError])
  | @started reads now nowNs s t r w r' js seq _ ht hfr hacc =>
    cases hs'
    have hf := not_failed_of_answered he hc hv (hi s rfl) hfr (.inr hacc)
    obtain ⟨rx, act, rc, id, temp, p, k, -, rfl⟩ := ht
    exact .of_append hf [] (List.append_nil _).symm (by simp)
  | sent hne => cases hs'; exact ⟨(hi _ rfl).last, fun hf => ⟨((hi _ rfl).doomed hf).state, hne⟩⟩
  | drained herr hst =>
    cases hs'
    refine ⟨(hi _ rfl).last, fun hf => ?_⟩
    rcases ((hi _ rfl).doomed hf).state with h | ⟨h, -⟩
    · exact absurd h herr
    · exact absurd h hst
  | finished hst hcl =>
    cases hs'
    refine ⟨(hi _ rfl).last, fun hf => ?_⟩
    rcases ((hi _ rfl).doomed hf).state with h | ⟨-, h, -⟩
    · rw [hst] at h; cases h
    · rw [hcl] at h; cases h
  | idled => cases hs'; exact hi _ rfl
  | @served nowNs out s s₁ r w w' before it hserves hserved =>
    cases hs'
    obtain ⟨new, hem, htx, hev, -⟩ := hserved.emission
    have hf : ¬ Failed s := by
      intro hf
      have hb := hserves.busy (owned_of_reach hr).keyed
      rcases ((hi s rfl).doomed hf).state with h | ⟨h, -⟩ <;> rw [h] at hb <;> cases hb
    exact hem.final hf htx hev
  | closed => cases hs'

/-- **Errors are final.** In every run in which no frame that would be
answered other than by an error is parsed on a session whose decode failed:
after an error event only error events are appended, and a session with an
error behind it is not in `PREFILL` or `DECODE` and has something left to
write, so it is gone in the step that writes the last of it. -/
theorem errors_final (h : (umad pf cfg).Reach (NoRevival cfg) d) (hs : d.find fd = some s) :
    (s.hist.events.Pairwise fun e e' => e.isError = true → e'.isError = true) ∧
      ((∃ e ∈ s.hist.events, e.isError = true) → s.state.busy = false ∧ s.tx ≠ []) := by
  obtain ⟨hlast, hdoomed⟩ := final_of_reach h hs
  refine ⟨hlast, fun hf => ⟨?_, (hdoomed hf).tx⟩⟩
  rcases (hdoomed hf).state with hst | ⟨hst, -⟩ <;> rw [hst] <;> rfl

/-- A failed decode, then another request on the same connection. -/
def revived : List Action :=
  [.accept 7 [7] 1, .readable 7 (request "ab") .wouldBlock 2, .tick 2 { rc := 1, rows := fun _ => none },
    .readable 7 (request "ab") .wouldBlock 3, .tick 3 (choosing 1)]

/-- The session generates again after its error. -/
theorem errors_final_revived :
    ∃ d, (umad small {}).Reach Lib.Always d ∧ ∃ fd s, d.find fd = some s ∧ s.state = .decode ∧
      s.hist.events = [.error (bytes "r") (bytes "E_RUNTIME_DECODE") (bytes "decode failed"),
        .token (bytes "r") [1] 1] := by
  refine ⟨(umad small {}).after (umad small {}).init revived, Lib.System.Reach.init.run (by decide +kernel), 7, ?_⟩
  have hev : (((umad small {}).after (umad small {}).init revived).find 7).map (fun s => (s.state, s.hist.events)) =
      some (.decode, [.error (bytes "r") (bytes "E_RUNTIME_DECODE") (bytes "decode failed"),
        .token (bytes "r") [1] 1]) := by decide +kernel
  obtain ⟨s, hs, hev⟩ := Option.map_eq_some_iff.mp hev
  rw [Prod.mk.injEq] at hev
  exact ⟨s, hs, hev⟩

/-- A failed decode, then a request with no prompt, answered by a second
error. -/
def failedTwice : List Action :=
  [.accept 7 [7] 1, .readable 7 (request "ab") .wouldBlock 2, .tick 2 { rc := 1, rows := fun _ => none },
    .readable 7 (request "") .wouldBlock 3]

theorem errors_final_twice :
    ∃ s, ((umad small {}).after (umad small {}).init failedTwice).find 7 = some s ∧ s.hist.events.length = 2 ∧
      s.state.busy = false ∧ s.tx ≠ [] := by
  have hev : (((umad small {}).after (umad small {}).init failedTwice).find 7).map
      (fun s => (s.hist.events.length, s.hist.events.any Event.isError)) = some (2, true) := by decide +kernel
  obtain ⟨s, hs, hev⟩ := Option.map_eq_some_iff.mp hev
  rw [Prod.mk.injEq, List.any_eq_true] at hev
  have hr : (umad small {}).Reach (NoRevival {}) ((umad small {}).after (umad small {}).init failedTwice) :=
    Lib.System.Reach.init.run (by decide +kernel)
  exact ⟨s, hs, hev.1, (errors_final hr hs).2 hev.2⟩

end Outbound
end UmaServe

/-
How the client ends. In an undisturbed run the end of the stream never
reaches a client that waits for its reply: the daemon closes a connection
only when the reply is over and written, and the client exits on its last
event. So the exit code tells how the reply ended (`exit_faithful`).
-/
import UmaServe.EndToEnd.Output

namespace UmaServe

/-- The daemon still has the connection, if it had. -/
def Conn.keptBy (d : Daemon) : Conn → Prop
  | .live fd => (d.find fd).isSome = true
  | .pending | .closed => True

/-- No call of the client fails, no header is cut, and the daemon neither
turns the client away nor drops its connection for being idle. -/
def Undisturbed (cfg : RuntimeConfig) (w : World) : WorldStep → Prop
  | .recv r => Clean w.receiving r ∨ r = .eof
  | .send r => ∀ strerror, r ≠ .failed strerror
  | .connect fd order nowNs => ((w.daemon.accept cfg fd order nowNs).find fd).isSome = true
  | .daemon a =>
    match a with
    | .idle nowNs => w.conn.keptBy (w.daemon.idle cfg nowNs)
    | .accept _ _ _ | .readable _ _ _ _ | .writable _ _ _ | .tick _ _ => True

/-- The reply is over and written, and the request was read. -/
structure Replied (cfg : RuntimeConfig) (vocab : Vocab) (js : Bytes) (w : World) : Prop where
  wire : w.read ++ w.down = w.hist.events.flatMap Event.frame
  sent : w.up ++ w.unsent = []
  asked : ∃ t, t.hist = w.hist ∧ Asked cfg vocab js t ∧ t.state.busy = false

/-- The connection is not closed before the reply, and the client has lost
nothing. -/
structure Faithful (cfg : RuntimeConfig) (vocab : Vocab) (js : Bytes) (w : World) : Prop where
  replied : w.conn = .closed → w.gone = false → Replied cfg vocab js w
  intact : Aligned w.receiving

section Exit

variable {pf : Platform} {cfg : RuntimeConfig} {vocab : Vocab} {opt : Asker} {w : World} {st : WorldStep} {a : Action}
  {js : Bytes} {fd : Int} {s t : ClientSession} {rest : Bytes} {gone : Bool}

instance (d : Daemon) : ∀ c, Decidable (Conn.keptBy d c)
  | .live _ => inferInstanceAs (Decidable (_ = _))
  | .pending | .closed => inferInstanceAs (Decidable True)

instance : ∀ r : SendReturn, Decidable (∀ strerror, r ≠ .failed strerror)
  | .wrote _ | .again => isTrue (by simp)
  | .failed text => isFalse fun h => h text rfl

instance (w : World) : ∀ st, Decidable (Undisturbed cfg w st)
  | .recv _ => inferInstanceAs (Decidable (_ ∨ _))
  | .send _ => inferInstanceAs (Decidable (∀ _, _))
  | .connect _ _ _ => inferInstanceAs (Decidable (_ = _))
  | .daemon (.idle nowNs) => inferInstanceAs (Decidable (w.conn.keptBy (w.daemon.idle cfg nowNs)))
  | .daemon (.accept _ _ _) | .daemon (.readable _ _ _ _) | .daemon (.writable _ _ _) | .daemon (.tick _ _) =>
    inferInstanceAs (Decidable True)

/-! ## The end of a reply -/

theorem Asked.ends (h : Asked cfg vocab js t) (hb : t.state.busy = false) :
    ∃ e ∈ t.hist.events, (shown e).code ≠ none := by
  cases hacc : acceptsRequest cfg js with
  | true =>
    have hsaid := h.said hacc
    rw [hb] at hsaid
    obtain ⟨toks, term, hes, -, ⟨hbusy, -⟩ | ⟨-, rfl | ⟨reason, rfl⟩⟩⟩ := hsaid.split
    · cases hbusy
    · exact ⟨_, by rw [hes]; exact List.mem_append_right _ List.mem_cons_self, by simp [shown]⟩
    · exact ⟨_, by rw [hes]; exact List.mem_append_right _ List.mem_cons_self, by simp [shown]⟩
  | false =>
    obtain ⟨-, e, he, href⟩ := h.refused hacc
    refine ⟨e, by rw [he]; simp, ?_⟩
    unfold Refusal at href
    split at href
    · obtain ⟨json, rfl⟩ := href
      simp [shown]
    · rw [href, refusal]
      split
      · simp [shown]
      · split <;> simp [shown]

theorem Reply.no_metrics {es : List Event} {opt : CliOptions} (h : Reply cfg vocab opt es) (hasks : ¬ opt.asksMetrics)
    {json : Bytes} : Event.metrics json ∉ es := by
  intro hmem
  cases h with
  | nothing => cases hmem
  | metrics h => exact hasks h
  | tooLarge => cases List.mem_singleton.mp hmem
  | generated _ _ hsaid =>
    rcases hsaid.mem hmem with ⟨t, ht⟩ | he | he | he
    · cases (mem_pieceEvents.mp ht).2
    all_goals cases he

theorem Dialogue.complete (h : Dialogue cfg vocab js gone rest t) (hst : t.state = .errored ∨ t.state = .stream) :
    rest = [] ∧ Asked cfg vocab js t ∧ t.state.busy = false := by
  cases h with
  | asking hrecv => rcases hst with hst | hst <;> (rw [hst] at hrecv; cases hrecv)
  | asked _ hnil ha => exact ⟨hnil, ha, by rcases hst with hst | hst <;> (rw [hst]; rfl)⟩

/-! ## The steps -/

/-- A step of the daemon that closes the connection of a waiting client has
ended the reply and written it. -/
theorem Talk.closes (hjs : Deliverable defaultMaxFrameBytes js) (hk : Keyed w.daemon.mgr.sessions)
    (hconn : w.conn = .live fd) (hs : w.daemon.find fd = some s) (hhist : s.hist = w.hist)
    (hwire : w.read ++ w.down ++ s.tx = w.hist.events.flatMap Event.frame)
    (hdia : Dialogue cfg pf.vocab js w.gone (w.up ++ w.unsent) s) (he : w.daemon.Enabled pf cfg a)
    (hcarry : w.Carries fd a) (hc : Undisturbed cfg w (.daemon a)) (hgone : w.gone = false)
    (hnone : (w.daemon.step pf cfg a).find fd = none) : Replied cfg pf.vocab js (w.next pf cfg (.daemon a)) := by
  have hcuts : ¬ a.cuts := by
    cases a with
    | idle nowNs =>
      have hkept : w.conn.keptBy (w.daemon.idle cfg nowNs) := hc
      rw [hconn, Conn.keptBy, show (w.daemon.idle cfg nowNs).find fd = none from hnone] at hkept
      cases hkept
    | writable k ws nowNs =>
      intro herr
      by_cases hkfd : k = fd
      · rw [hcarry hkfd herr] at hgone
        cases hgone
      · have hv : (w.daemon.writable k ws nowNs).view fd = w.daemon.view fd := writable_view_ne (Ne.symm hkfd)
        rw [show (w.daemon.step pf cfg (.writable k ws nowNs)).find fd = w.daemon.find fd from
          congrArg View.session hv, hs] at hnone
        cases hnone
    | accept | readable | tick => exact id
  have herr : ∀ reads now nowNs, a = .readable fd reads now nowNs → readEnd reads = .error → w.gone = true := by
    rintro reads now nowNs rfl
    exact (hcarry rfl).2.2
  obtain ⟨t, ht, hdt, -, hstop⟩ := hdia.step hjs hk he hs (takes_append hcarry) herr
  obtain ⟨left, ⟨⟨es, hev, hout⟩, -⟩, hleft⟩ := step_wire pf cfg hk he hs
  have hnil : left = [] := by
    by_contra hne
    exact hcuts (hleft hnone hne)
  subst hnil
  rw [List.append_nil] at hout
  obtain ⟨hrest, ha, hb⟩ := hdt.complete (hstop hnone hcuts)
  rw [next_live hconn]
  refine ⟨?_, hrest, t, ht, ha, hb⟩
  change w.read ++ (w.down ++ w.daemon.writes pf cfg fd a) = (w.daemon.history pf cfg fd a).events.flatMap Event.frame
  rw [hev, List.flatMap_append, hhist, ← hwire, hout]
  simp only [List.append_assoc]

theorem Aligned.coming {c : Cli} {read coming coming' : Bytes} (h : Aligned ⟨c, read, coming⟩) :
    Aligned ⟨c, read, coming'⟩ := by
  cases h with
  | header ha hd hg => exact .header ha hd hg
  | payload ha hlt hd hg => exact .payload ha hlt hd hg
  | ended ha hd hg hcode => exact .ended ha hd hg hcode

theorem gone_eq_false : w.gone = false ↔ w.cli.exitCode = none := by
  rw [World.gone, Option.isSome_eq_false_iff, Option.isNone_iff_eq_none]

/-- A client that has read all of a reply is gone. -/
theorem Aligned.exited (h : Aligned w.receiving) (hm : w.cli.metrics = false)
    (hsizes : ∀ e ∈ w.hist.events, e.payload.length < 2 ^ 32) (hread : w.read = w.hist.events.flatMap Event.frame)
    (ht : t.hist = w.hist) (ha : Asked cfg vocab js t) (hb : t.state.busy = false) : w.gone = true := by
  by_contra hgone
  obtain ⟨e, he, hcode⟩ := ha.ends hb
  rw [ht] at he
  have hrec : received w.read = w.hist.events.map Event.payload := by rw [hread, received_all hsizes]
  have hmem : e.payload ∈ received w.read := by rw [hrec]; exact List.mem_map_of_mem he
  obtain ⟨-, hgo, -⟩ := h.digested
  have hnone := hgo (gone_eq_false.mp (Bool.not_eq_true _ ▸ hgone)) _ hmem
  rw [show w.receiving.cli.metrics = false from hm, outcome_payload] at hnone
  exact hcode hnone

theorem Faithful.no_eof (h : Faithful cfg vocab opt.payload w) (hm : w.cli.metrics = false)
    (hsizes : ∀ e ∈ w.hist.events, e.payload.length < 2 ^ 32) (he : w.Offers .eof) : False := by
  obtain ⟨hasks, hconn, hdown⟩ := he
  have hgone : w.gone ≠ true := by
    intro hg
    obtain ⟨code, hcode⟩ := Option.isSome_iff_exists.mp hg
    rw [Cli.asks, exitCode_eq_some.mp hcode] at hasks
    exact absurd hasks (by simp)
  obtain ⟨hwire, -, t, ht, ha, hb⟩ := h.replied hconn (Bool.not_eq_true _ ▸ hgone)
  rw [hdown, List.append_nil] at hwire
  exact hgone (h.intact.exited hm hsizes hwire ht ha hb)

/-- **A step of an undisturbed run.** -/
theorem Faithful.step (h : Faithful cfg pf.vocab opt.payload w) (ht : Talk cfg pf.vocab opt.payload w)
    (hm : w.cli.metrics = false) (hsizes : ∀ e ∈ w.hist.events, e.payload.length < 2 ^ 32)
    (hk : Keyed w.daemon.mgr.sessions) (he : w.Enabled pf cfg st) (hc : Undisturbed cfg w st) :
    Faithful cfg pf.vocab opt.payload (w.next pf cfg st) := by
  cases st with
  | send r =>
    refine ⟨fun hconn hgone => ?_, ?_⟩
    · -- All of the request was read before the connection was closed.
      have hclosed : w.conn = .closed := by cases r <;> exact hconn
      have hsent := (h.replied hclosed he.2.1).sent
      exact absurd (List.append_eq_nil_iff.mp hsent).2 he.1
    · cases r with
      | wrote n => exact h.intact
      | again => exact h.intact
      | failed strerror => exact absurd rfl (hc strerror)
  | recv r =>
    have hclean : Clean w.receiving r := by
      rcases hc with hc | rfl
      · exact hc
      · exact (h.no_eof hm hsizes he.2).elim
    refine ⟨fun hconn hgone => ?_, ?_⟩
    · have hg : w.gone = false := by
        by_contra hg
        rw [recv_gone (Bool.not_eq_false _ ▸ hg)] at hgone
        cases hgone
      obtain ⟨hwire, hsent, hasked⟩ := h.replied hconn hg
      exact ⟨(recv_bytes he.2).trans hwire, hsent, hasked⟩
    · have henabled : w.receiving.Enabled r := by
        cases r with
        | data bs => exact he.2
        | eof => exact ⟨he.2.1, he.2.2.2⟩
        | interrupted | failed => exact he.2
      exact h.intact.clean henabled hclean
  | connect fd order nowNs =>
    refine ⟨fun hconn _ => ?_, h.intact⟩
    rw [show (w.next pf cfg (.connect fd order nowNs)).conn = .live fd from if_pos hc] at hconn
    cases hconn
  | daemon a =>
    obtain ⟨hd, hallow⟩ := he
    by_cases hlive : ∃ fd, w.conn = .live fd
    · obtain ⟨fd, hfd⟩ := hlive
      rw [next_live hfd]
      refine ⟨fun hconn hgone => ?_, h.intact.coming⟩
      rw [← next_live hfd]
      cases ht with
      | pending hc' | closed hc' => rw [hfd] at hc'; cases hc'
      | live hc' hs hhist hwire hdia =>
        cases hfd.symm.trans hc'
        rw [hfd] at hallow
        refine Talk.closes opt.deliverable hk hfd hs hhist hwire hdia hd hallow hc hgone ?_
        by_contra hsome
        obtain ⟨s', hs'⟩ := Option.ne_none_iff_exists'.mp hsome
        rw [show World.connIn _ fd = _ from connIn_some hs'] at hconn
        cases hconn
    · rw [next_unconnected fun fd hfd => hlive ⟨fd, hfd⟩]
      refine ⟨fun hconn hgone => ?_, h.intact⟩
      obtain ⟨hwire, hsent, hasked⟩ := h.replied hconn hgone
      exact ⟨hwire, hsent, hasked⟩

theorem Talk.grows (h : Talk cfg vocab js w) (hk : Keyed w.daemon.mgr.sessions) (he : w.Enabled pf cfg st) :
    w.hist.events <+: (w.next pf cfg st).hist.events := by
  cases st with
  | send r => cases r <;> exact List.prefix_rfl
  | recv r => exact List.prefix_rfl
  | connect fd order nowNs => exact List.prefix_rfl
  | daemon a =>
    cases h with
    | pending hc | closed hc => rw [next_unconnected fun fd hfd => by rw [hc] at hfd; cases hfd]
    | live hc hs hhist =>
      rw [next_live hc]
      obtain ⟨-, ⟨⟨es, hev, -⟩, -⟩, -⟩ := step_wire pf cfg hk he.1 hs
      rw [hhist] at hev
      exact ⟨es, hev.symm⟩

end Exit
end UmaServe

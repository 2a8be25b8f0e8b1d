/-
Why nobody waits for nothing. As long as the client has not exited, the next
move of the exchange is there to be made: bytes that the client can write or
read, bytes for the daemon behind a registered filter, or work for its
scheduler (`exchange_awaited`).
-/
import UmaServe.EndToEnd.Exit
import UmaServe.Umad.Failure
import UmaServe.Umad.Outbound

namespace UmaServe

/-- A step that is `Undisturbed`, and besides: a failed decode finds the write
filters registered, and no row is missing that ends what its session has to
feed. -/
def Smooth (cfg : RuntimeConfig) (w : World) (st : WorldStep) : Prop :=
  Undisturbed cfg w st ∧ ∀ a ∈ st.action?, FailsArmed cfg w.daemon a ∧ NoRowLost cfg w.daemon a

/-- A request that is not all there keeps the read filter. -/
def Listening (w : World) : Prop :=
  ∀ fd, w.conn = .live fd → w.gone = false → w.up ++ w.unsent ≠ [] → w.daemon.poller.read fd = true

section Waiting

variable {pf : Platform} {cfg : RuntimeConfig} {vocab : Vocab} {opt : Asker} {w : World} {st : WorldStep} {a : Action}
  {js rest : Bytes} {d : Daemon} {fd next : Int} {s s' : ClientSession} {reads : List ReadRes} {nowNs : Nat}
  {gone r u r' u' : Bool}

instance (w : World) (st : WorldStep) : Decidable (Smooth cfg w st) := inferInstanceAs (Decidable (_ ∧ ∀ a ∈ _, _))

theorem readable_keeps_read {now : WriteRes} (hs : d.find fd = some s) (hq : s.parses nowNs reads = false)
    (hend : readEnd reads = .wouldBlock) :
    (d.readable pf cfg fd reads now nowNs).poller.read fd = d.poller.read fd := by
  have hne : readEnd reads ≠ .error := by rw [hend]; simp
  rw [parses_eq, decide_eq_true hne, Bool.true_and, Bool.or_eq_false_iff, Option.isSome_eq_false_iff,
    Option.isNone_iff_eq_none] at hq
  have hrr : (s.read cfg pf.vocab nowNs d.mgr.nextSeqId reads).rr = {} := by
    rw [read_eq (by rw [drain_end]; exact hne)]
    simp only [received_rx, drain_end, hq.1, hq.2, hend]
    rfl
  have heq := readable_eq pf cfg reads now nowNs hs
  simp only [hrr, Bool.false_eq_true, if_false] at heq
  rw [heq, Daemon.heard, hrr]
  rfl

theorem Dialogue.whole (h : Dialogue cfg vocab js gone rest s) (hjs : Deliverable defaultMaxFrameBytes js)
    {rest' : Bytes} (hrest : arrived reads ++ rest' = rest) (hp : s.parses nowNs reads = true) : rest' = [] := by
  by_contra hne
  cases h with
  | asking hst hh hframe =>
    rw [parses_part hjs (by rw [List.append_assoc, hrest, hframe]) hne] at hp
    cases hp
  | asked _ hnil => exact hne (List.append_eq_nil_iff.mp (hrest.trans hnil)).2

/-- A step leaves the read filter of a session whose request is not all
there. -/
theorem Dialogue.keeps_read (h : Dialogue cfg vocab js gone rest s) (hjs : Deliverable defaultMaxFrameBytes js)
    (hk : Keyed d.mgr.sessions) (he : d.Enabled pf cfg a) (hs : d.find fd = some s)
    (hs' : (d.step pf cfg a).find fd = some s') {rest' : Bytes} (hrest : a.takes fd ++ rest' = rest) (hne : rest' ≠ [])
    (hopen : ∀ reads now nowNs, a = .readable fd reads now nowNs → readEnd reads = .wouldBlock)
    (hr : d.poller.read fd = true) : (d.step pf cfg a).poller.read fd = true := by
  have hpart : ∀ reads now nowNs, a = .readable fd reads now nowNs → s.parses nowNs reads = false := by
    rintro reads now nowNs rfl
    by_contra hp
    rw [Action.takes, if_pos rfl] at hrest
    exact hne (h.whole hjs hrest (Bool.not_eq_false _ ▸ hp))
  have hm := step_move hk he fd
  have hv : d.view fd = ⟨some s, true, d.poller.write fd⟩ := by rw [Daemon.view, hs, hr]
  have hv' : (d.step pf cfg a).view fd =
      ⟨some s', (d.step pf cfg a).poller.read fd, (d.step pf cfg a).poller.write fd⟩ := by rw [Daemon.view, hs']
  rw [hv, hv'] at hm
  generalize hr' : (d.step pf cfg a).poller.read fd = r' at hm ⊢
  generalize (d.step pf cfg a).poller.write fd = u' at hm
  generalize d.poller.write fd = u at hm
  cases hm with
  | same | sent | drained | finished | idled | served | emptied => rfl
  | @quiet reads now nowNs _ _ _ _ hq =>
    rw [← hr', show d.step pf cfg (.readable fd reads now nowNs) = d.readable pf cfg fd reads now nowNs from rfl,
      readable_keeps_read hs hq (hopen reads now nowNs rfl), hr]
  | rejected hp | metrics hp | empty hp | started hp =>
    rw [hpart _ _ _ rfl] at hp
    cases hp

theorem takes_drop_ne (h : w.up.drop (a.takes fd).length ++ w.unsent ≠ []) : w.up ++ w.unsent ≠ [] := by
  intro hnil
  obtain ⟨hup, hunsent⟩ := List.append_eq_nil_iff.mp hnil
  rw [hup, hunsent] at h
  exact h (by simp)

theorem Listening.step (h : Listening w) (ht : Talk cfg pf.vocab opt.payload w) (hk : Keyed w.daemon.mgr.sessions)
    (he : w.Enabled pf cfg st) : Listening (w.next pf cfg st) := by
  cases st with
  | send r =>
    cases r with
    | wrote n =>
      intro fd hconn hgone _
      exact h fd hconn hgone fun hnil => he.1 (List.append_eq_nil_iff.mp hnil).2
    | again => exact h
    | failed strerror => exact fun fd _ hgone => (by cases hgone)
  | recv r =>
    intro fd hconn hgone hne
    refine h fd hconn ?_ hne
    by_contra hg
    rw [recv_gone (Bool.not_eq_false _ ▸ hg)] at hgone
    cases hgone
  | connect cfd order nowNs =>
    intro fd hconn _ _
    have hnext : World.connIn (w.daemon.accept cfg cfd order nowNs) cfd = .live fd := hconn
    rcases accept_find cfg order nowNs he.2.2 with hnone | ⟨hnew, hread⟩
    · rw [connIn_none hnone] at hnext
      cases hnext
    · rw [connIn_some hnew] at hnext
      cases hnext
      exact hread
  | daemon a =>
    obtain ⟨hd, hallow⟩ := he
    intro fd hconn hgone hne
    cases ht with
    | pending hc | closed hc =>
      rw [next_unconnected fun fd hfd => by rw [hc] at hfd; cases hfd] at hconn
      rw [hc] at hconn
      cases hconn
    | @live k s hc hs hhist hwire hdia =>
      rw [next_live hc] at hconn hgone hne ⊢
      cases hs' : (w.daemon.step pf cfg a).find k with
      | none => rw [show World.connIn _ k = _ from connIn_none hs'] at hconn; cases hconn
      | some s' =>
        rw [show World.connIn _ k = _ from connIn_some hs'] at hconn
        cases hconn
        rw [hc] at hallow
        refine hdia.keeps_read opt.deliverable hk hd hs hs' (takes_append hallow) hne ?_
          (h fd hc hgone (takes_drop_ne hne))
        rintro reads now nowNs rfl
        obtain ⟨-, heof, herr⟩ := hallow rfl
        change w.gone = false at hgone
        cases hend : readEnd reads with
        | wouldBlock => rfl
        | eof => rw [(heof hend).1] at hgone; cases hgone
        | error => rw [herr hend] at hgone; cases hgone

end Waiting
end UmaServe

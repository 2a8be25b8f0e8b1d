/-
`ipc/poller_kqueue.cpp`: the filters registered with the kqueue, and the
events `wait` makes of what the kernel reports. Registering and
deregistering are assumed to succeed, and `::close` drops what is left.
-/
import Mathlib.Data.Finset.Insert
import Mathlib.Data.Finset.Lattice.Basic
import UmaServe.Lib.Keyed

namespace UmaServe

structure Poller where
  read : Int → Bool := fun _ => false
  write : Int → Bool := fun _ => false

namespace Poller

def addRead (p : Poller) (fd : Int) : Poller := { p with read := Function.update p.read fd true }
def addWrite (p : Poller) (fd : Int) : Poller := { p with write := Function.update p.write fd true }
def removeRead (p : Poller) (fd : Int) : Poller := { p with read := Function.update p.read fd false }
def removeWrite (p : Poller) (fd : Int) : Poller := { p with write := Function.update p.write fd false }

variable {p : Poller} {fd k : Int}

@[simp] theorem addRead_read : (p.addRead fd).read k = if k = fd then true else p.read k := by
  simp [addRead, Function.update_apply]
@[simp] theorem addRead_write : (p.addRead fd).write = p.write := rfl
@[simp] theorem addWrite_write : (p.addWrite fd).write k = if k = fd then true else p.write k := by
  simp [addWrite, Function.update_apply]
@[simp] theorem addWrite_read : (p.addWrite fd).read = p.read := rfl
@[simp] theorem removeRead_read : (p.removeRead fd).read k = if k = fd then false else p.read k := by
  simp [removeRead, Function.update_apply]
@[simp] theorem removeRead_write : (p.removeRead fd).write = p.write := rfl
@[simp] theorem removeWrite_write : (p.removeWrite fd).write k = if k = fd then false else p.write k := by
  simp [removeWrite, Function.update_apply]
@[simp] theorem removeWrite_read : (p.removeWrite fd).read = p.read := rfl

end Poller

/-! ## Waiting -/

/-- The bits of `PollFlags`. -/
inductive PollFlag
  | read | write | hup | err
  deriving DecidableEq

/-- `PollFlags`: the bits that are set, so that `|` is the union. -/
abbrev PollFlags := Finset PollFlag

structure PollEvent where
  fd : Int
  f : PollFlags
  deriving DecidableEq

def PollEvent.readable (ev : PollEvent) : Bool := .read ∈ ev.f
def PollEvent.writable (ev : PollEvent) : Bool := .write ∈ ev.f

inductive EvFilt
  | read | write | other
  deriving DecidableEq

/-- A `struct kevent` that the kernel returns. -/
structure Kevent where
  ident : Nat
  filter : EvFilt
  /-- `flags & EV_ERROR`. -/
  evError : Bool := false
  /-- `flags & EV_EOF`. -/
  evEof : Bool := false

/-- `(int)ident`. -/
def Kevent.fd (k : Kevent) : Int := (BitVec.ofNat 32 k.ident).toInt

def Kevent.pollFlags (k : Kevent) : PollFlags :=
  (if k.filter = .read then {.read} else ∅) ∪ (if k.filter = .write then {.write} else ∅) ∪
    (if k.evError then {.err} else ∅) ∪ (if k.evEof then {.hup} else ∅)

namespace Poller

/-- One turn of the loop that coalesces by fd. -/
def coalesce (acc : AList fun _ : Int => PollFlags) (k : Kevent) : AList fun _ : Int => PollFlags :=
  acc.insert k.fd (match acc.lookup k.fd with
    | some f => f ∪ k.pollFlags
    | none => k.pollFlags)

/-- `Poller::wait`, given what the kernel returned. The order in which the map
is iterated is the environment's choice. -/
def wait (kev : List Kevent) (order : List Int) : List PollEvent :=
  ((kev.foldl coalesce ∅).arrange order).entries.map fun e => ⟨e.1, e.2⟩

/-- What the map holds after the events `kev`. -/
structure Coalesced (kev : List Kevent) (acc : AList fun _ : Int => PollFlags) : Prop where
  mem : ∀ fd, fd ∈ acc ↔ ∃ k ∈ kev, k.fd = fd
  flags : ∀ fd f, acc.lookup fd = some f → ∀ x, x ∈ f ↔ ∃ k ∈ kev, k.fd = fd ∧ x ∈ k.pollFlags

variable {kev : List Kevent} {acc : AList fun _ : Int => PollFlags} {order : List Int} {ev : PollEvent}

theorem Coalesced.snoc (h : Coalesced kev acc) (k : Kevent) : Coalesced (kev ++ [k]) (coalesce acc k) := by
  refine ⟨fun fd => ?_, fun fd f hf x => ?_⟩
  · rw [coalesce, AList.mem_insert, h.mem]
    constructor
    · rintro (rfl | ⟨k', hk', rfl⟩)
      · exact ⟨k, by simp, rfl⟩
      · exact ⟨k', by simp [hk'], rfl⟩
    · rintro ⟨k', hk', rfl⟩
      rcases List.mem_append.mp hk' with hk' | hk'
      · exact .inr ⟨k', hk', rfl⟩
      · exact .inl (congrArg Kevent.fd (List.mem_singleton.mp hk'))
  · rw [coalesce] at hf
    by_cases hfd : fd = k.fd
    · subst hfd
      rw [AList.lookup_insert, Option.some.injEq] at hf
      subst hf
      cases hl : acc.lookup k.fd with
      | some g =>
        rw [Finset.mem_union, h.flags _ _ hl]
        simp [or_and_right, exists_or]
      | none =>
        -- The first event of its descriptor.
        have hno : ¬ ∃ k' ∈ kev, k'.fd = k.fd := by
          rw [← h.mem, ← AList.lookup_eq_none]
          exact hl
        constructor
        · intro hx
          exact ⟨k, by simp, rfl, hx⟩
        · rintro ⟨k', hk', he, hx⟩
          rcases List.mem_append.mp hk' with hk' | hk'
          · exact absurd ⟨k', hk', he⟩ hno
          · rw [List.mem_singleton.mp hk'] at hx
            exact hx
    · rw [AList.lookup_insert_ne hfd] at hf
      rw [h.flags fd f hf]
      simp [or_and_right, exists_or, Ne.symm hfd]

theorem coalesced (kev : List Kevent) : Coalesced kev (kev.foldl coalesce ∅) := by
  induction kev using List.reverseRecOn with
  | nil => exact ⟨fun fd => by simp, fun fd f hf => by cases hf⟩
  | append_singleton kev k ih =>
    rw [List.foldl_append]
    exact ih.snoc k

theorem wait_nodup (kev : List Kevent) (order : List Int) : ((wait kev order).map PollEvent.fd).Nodup := by
  rw [wait, List.map_map]
  exact ((kev.foldl coalesce ∅).arrange order).keys_nodup

theorem mem_wait : ev ∈ wait kev order ↔ (kev.foldl coalesce ∅).lookup ev.fd = some ev.f := by
  have hl : ((kev.foldl coalesce ∅).arrange order).lookup ev.fd = (kev.foldl coalesce ∅).lookup ev.fd :=
    AList.lookup_arrange
  rw [wait, List.mem_map, ← hl, ← AList.mem_entries_iff]
  constructor
  · rintro ⟨e, he, rfl⟩
    exact he
  · intro he
    exact ⟨_, he, rfl⟩

theorem wait_flags (h : ev ∈ wait kev order) (x : PollFlag) :
    x ∈ ev.f ↔ ∃ k ∈ kev, k.fd = ev.fd ∧ x ∈ k.pollFlags :=
  (coalesced kev).flags _ _ (mem_wait.mp h) x

theorem mem_wait_fds (fd : Int) : fd ∈ (wait kev order).map PollEvent.fd ↔ ∃ k ∈ kev, k.fd = fd := by
  rw [← (coalesced kev).mem, ← AList.lookup_isSome, List.mem_map]
  constructor
  · rintro ⟨ev, hev, rfl⟩
    rw [mem_wait.mp hev]
    rfl
  · intro h
    obtain ⟨f, hf⟩ := Option.isSome_iff_exists.mp h
    exact ⟨⟨fd, f⟩, mem_wait.mpr hf, rfl⟩

theorem wait_order {order' : List Int} (h : order'.Perm ((wait kev order).map PollEvent.fd)) :
    (wait kev order').map PollEvent.fd = order' := by
  have hp : order'.Perm (kev.foldl coalesce ∅).keys := by
    refine h.trans ((List.perm_ext_iff_of_nodup (wait_nodup kev order) (AList.keys_nodup _)).mpr fun fd => ?_)
    rw [mem_wait_fds, ← AList.mem_keys, (coalesced kev).mem]
  rw [wait, List.map_map]
  exact AList.keys_arrange hp

end Poller
end UmaServe

/-
Command lines. Some words are flags, and some flags take the next word as
their value; `scan` is the loop that reads them into a state, from left to
right, and stops at the first word it does not take.

A command line is taken exactly when it spells a list of settings, and then
has their effects, one after another (`scan_eq_ok`); otherwise the error is
that of the first word behind the settings (`scan_eq_error`). Where settings
change fields of the state, the last one of a field counts
(`Fields.get_puts`).
-/
import Mathlib.Data.List.Induction
import Mathlib.Data.List.Sigma

namespace Lib

variable {ω σ ε : Type}

/-- What a word does. -/
inductive Flag (ω σ ε : Type)
  | plain (set : σ → σ)
  /-- It takes the next word, which may be missing. -/
  | value (set : ω → σ → σ) (missing : ε)
  | stop (e : ε)

/-- The loop over the words. -/
def scan (flag : ω → Flag ω σ ε) (s : σ) : List ω → Except ε σ
  | [] => .ok s
  | a :: rest =>
    match flag a with
    | .plain set => scan flag (set s) rest
    | .value set missing =>
      match rest with
      | [] => .error missing
      | v :: rest => scan flag (set v s) rest
    | .stop e => .error e

/-- A flag, with its value if it takes one. -/
inductive Setting (ω : Type)
  | plain (a : ω)
  | value (a v : ω)

namespace Setting

def words : Setting ω → List ω
  | plain a => [a]
  | value a v => [a, v]

/-- What a setting does, if it is one. -/
def effect (flag : ω → Flag ω σ ε) : Setting ω → Option (σ → σ)
  | plain a => match flag a with | .plain set => some set | .value _ _ | .stop _ => none
  | value a v => match flag a with | .value set _ => some (set v) | .plain _ | .stop _ => none

/-- The state after a setting. -/
def apply (flag : ω → Flag ω σ ε) (s : σ) (x : Setting ω) : σ := (x.effect flag).elim s fun f => f s

/-- The flag takes a value exactly where there is one. -/
def Fits (flag : ω → Flag ω σ ε) (x : Setting ω) : Prop := (x.effect flag).isSome = true

instance (flag : ω → Flag ω σ ε) (x : Setting ω) : Decidable (x.Fits flag) := inferInstanceAs (Decidable (_ = _))

end Setting

section Scan

variable {flag : ω → Flag ω σ ε} {s s' : σ} {e : ε} {args rest : List ω} {xs ys : List (Setting ω)} {x : Setting ω}

theorem scan_setting (h : x.Fits flag) : scan flag s (x.words ++ rest) = scan flag (x.apply flag s) rest := by
  cases x with
  | plain a =>
    simp only [Setting.Fits, Setting.effect] at h
    simp only [Setting.words, List.singleton_append, scan, Setting.apply, Setting.effect]
    split at h
    next set hset => simp only [Option.elim_some]
    next => cases h
    next => cases h
  | value a v =>
    simp only [Setting.Fits, Setting.effect] at h
    simp only [Setting.words, List.cons_append, List.nil_append, scan, Setting.apply, Setting.effect]
    split at h
    next set _ hset => simp only [hset, Option.elim_some]
    next => cases h
    next => cases h

theorem scan_settings (h : ∀ x ∈ xs, x.Fits flag) :
    scan flag s (xs.flatMap Setting.words ++ rest) = scan flag (xs.foldl (Setting.apply flag) s) rest := by
  induction xs generalizing s with
  | nil => rfl
  | cons x xs ih =>
    rw [List.flatMap_cons, List.append_assoc, scan_setting (h x List.mem_cons_self),
      ih fun y hy => h y (List.mem_cons_of_mem x hy), List.foldl_cons]

/-- A word that is not taken. -/
def Fault (flag : ω → Flag ω σ ε) (a : ω) (rest : List ω) (e : ε) : Prop :=
  flag a = .stop e ∨ rest = [] ∧ ∃ set, flag a = .value set e

theorem scan_fault {a : ω} (h : Fault flag a rest e) : scan flag s (a :: rest) = .error e := by
  rcases h with h | ⟨rfl, set, h⟩
  · simp only [scan, h]
  · simp only [scan, h]

/-- Every command line spells settings, up to its end or a fault. -/
theorem exists_settings (flag : ω → Flag ω σ ε) (args : List ω) :
    ∃ xs : List (Setting ω), (∀ x ∈ xs, x.Fits flag) ∧
    (args = xs.flatMap Setting.words ∨
      ∃ a rest e, args = xs.flatMap Setting.words ++ a :: rest ∧ Fault flag a rest e) := by
  induction hn : args.length using Nat.strongRecOn generalizing args with
  | _ n ih =>
    subst hn
    cases args with
    | nil => exact ⟨[], by simp, .inl rfl⟩
    | cons a args =>
      -- A setting in front of what the rest spells.
      have hcons : ∀ x : Setting ω, ∀ rest,
          a :: args = x.words ++ rest → x.Fits flag → rest.length < (a :: args).length →
          ∃ xs : List (Setting ω), (∀ x ∈ xs, x.Fits flag) ∧ (a :: args = xs.flatMap Setting.words ∨
            ∃ b rest e, a :: args = xs.flatMap Setting.words ++ b :: rest ∧ Fault flag b rest e) := by
        intro x rest hx hfits hlt
        obtain ⟨xs, hxs, h⟩ := ih rest.length hlt rest rfl
        refine ⟨x :: xs, List.forall_mem_cons.mpr ⟨hfits, hxs⟩, ?_⟩
        rw [hx, List.flatMap_cons]
        rcases h with rfl | ⟨b, rest', e, rfl, hfault⟩
        · exact .inl rfl
        · exact .inr ⟨b, rest', e, (List.append_assoc _ _ _).symm, hfault⟩
      cases hflag : flag a with
      | stop e => exact ⟨[], by simp, .inr ⟨a, args, e, rfl, .inl hflag⟩⟩
      | plain set =>
        exact hcons (.plain a) args rfl (by simp [Setting.Fits, Setting.effect, hflag]) (Nat.lt_succ_self _)
      | value set missing =>
        cases args with
        | nil => exact ⟨[], by simp, .inr ⟨a, [], missing, rfl, .inr ⟨rfl, set, hflag⟩⟩⟩
        | cons v args =>
          exact hcons (.value a v) args rfl (by simp [Setting.Fits, Setting.effect, hflag])
            (Nat.lt_succ_of_lt (Nat.lt_succ_self _))

/-- **What is taken.** -/
theorem scan_eq_ok : scan flag s args = .ok s' ↔ ∃ xs : List (Setting ω), (∀ x ∈ xs, x.Fits flag) ∧
    args = xs.flatMap Setting.words ∧ s' = xs.foldl (Setting.apply flag) s := by
  constructor
  · intro h
    obtain ⟨xs, hxs, rfl | ⟨a, rest, e, rfl, hfault⟩⟩ := exists_settings flag args
    · rw [← List.append_nil (xs.flatMap _), scan_settings hxs] at h
      cases h
      exact ⟨xs, hxs, rfl, rfl⟩
    · rw [scan_settings hxs, scan_fault hfault] at h
      cases h
  · intro ⟨xs, hxs, hargs, hs'⟩
    rw [hargs, hs', ← List.append_nil (xs.flatMap _), scan_settings hxs]
    rfl

/-- **What is not**, and whose fault it is. -/
theorem scan_eq_error : scan flag s args = .error e ↔
    ∃ (xs : List (Setting ω)) (a : ω) (rest : List ω), (∀ x ∈ xs, x.Fits flag) ∧
    args = xs.flatMap Setting.words ++ a :: rest ∧ Fault flag a rest e := by
  constructor
  · intro h
    obtain ⟨xs, hxs, rfl | ⟨a, rest, e', rfl, hfault⟩⟩ := exists_settings flag args
    · rw [← List.append_nil (xs.flatMap _), scan_settings hxs] at h
      cases h
    · rw [scan_settings hxs, scan_fault hfault] at h
      cases h
      exact ⟨xs, a, rest, hxs, rfl, hfault⟩
  · intro ⟨xs, a, rest, hxs, hargs, hfault⟩
    rw [hargs, scan_settings hxs, scan_fault hfault]

end Scan

/-! ## Fields -/

/-- A state made of fields: setting one leaves the others. -/
structure Fields (κ : Type) (β : κ → Type) (σ : Type) where
  get : ∀ k, σ → β k
  put : ∀ k, β k → σ → σ
  get_put : ∀ k v s, get k (put k v s) = v
  get_put_ne : ∀ k j v s, k ≠ j → get k (put j v s) = get k s

namespace Fields

variable {κ : Type} {β : κ → Type} [DecidableEq κ]

/-- Setting fields, one after another. -/
def puts (F : Fields κ β σ) (s : σ) (cs : List (Sigma β)) : σ := cs.foldl (fun s c => F.put c.1 c.2 s) s

theorem get_puts (F : Fields κ β σ) (s : σ) (cs : List (Sigma β)) (k : κ) :
    F.get k (F.puts s cs) = (cs.reverse.dlookup k).getD (F.get k s) := by
  induction cs using List.reverseRecOn with
  | nil => rfl
  | append_singleton cs c ih =>
    obtain ⟨j, v⟩ := c
    rw [puts, List.foldl_append, List.foldl_cons, List.foldl_nil, List.reverse_append, List.reverse_singleton,
      List.singleton_append]
    by_cases hkj : k = j
    · subst hkj
      rw [F.get_put, List.dlookup_cons_eq]
      rfl
    · rw [F.get_put_ne _ _ _ _ hkj, List.dlookup_cons_ne _ ⟨j, v⟩ hkj]
      exact ih

theorem get_puts_all (F : Fields κ β σ) (s : σ) (cs : List (Sigma β)) (v : ∀ k, β k) {ks : List κ} {k : κ}
    (hks : ks.Nodup) (hk : k ∈ ks) : F.get k (F.puts s (cs ++ ks.map fun k => ⟨k, v k⟩)) = v k := by
  have hkeys : (ks.map fun k => (⟨k, v k⟩ : Sigma β)).reverse.keys = ks.reverse := by
    rw [List.keys, ← List.map_reverse, List.map_map]
    exact List.map_id _
  have hn : (ks.map fun k => (⟨k, v k⟩ : Sigma β)).reverse.NodupKeys := by
    rw [List.NodupKeys, hkeys, List.nodup_reverse]
    exact hks
  have hmem : (⟨k, v k⟩ : Sigma β) ∈ (ks.map fun k => ⟨k, v k⟩).reverse :=
    List.mem_reverse.mpr (List.mem_map_of_mem hk)
  rw [get_puts, List.reverse_append, List.dlookup_append, List.mem_dlookup hn hmem]
  rfl

end Fields

/-! ## Turns -/

/-- How a word sets a field: to a value of its own, or to the one it reads. -/
inductive Turn (ω κ : Type) (β : κ → Type) (ε : Type)
  | fixed (k : κ) (v : β k)
  | reads (k : κ) (read : ω → β k) (missing : ε)

section Turns

variable {κ : Type} {β : κ → Type} {turn : ω → Option (Turn ω κ β ε)} {F : Fields κ β σ} {unknown : ω → ε} {s s' : σ}
  {e : ε} {args : List ω} {x : Setting ω} {xs : List (Setting ω)} {a w : ω} {k : κ}

/-- The field a setting changes, and what to. -/
def change (turn : ω → Option (Turn ω κ β ε)) : Setting ω → Option (Sigma β)
  | .plain a => match turn a with | some (.fixed k v) => some ⟨k, v⟩ | some (.reads _ _ _) | none => none
  | .value a w => match turn a with | some (.reads k read _) => some ⟨k, read w⟩ | some (.fixed _ _) | none => none

/-- The branch a turn makes. -/
def Fields.branch (F : Fields κ β σ) (e : ε) : Option (Turn ω κ β ε) → Flag ω σ ε
  | some (.fixed k v) => .plain (F.put k v)
  | some (.reads k read missing) => .value (fun w => F.put k (read w)) missing
  | none => .stop e

/-- The branch for a word. -/
def Fields.flag (F : Fields κ β σ) (turn : ω → Option (Turn ω κ β ε)) (unknown : ω → ε) (a : ω) : Flag ω σ ε :=
  F.branch (unknown a) (turn a)

theorem change_fixed {v : β k} (h : turn a = some (.fixed k v)) : change turn (.plain a) = some ⟨k, v⟩ := by
  simp only [change, h]

theorem change_reads {read : ω → β k} {missing : ε} {v : β k} (h : turn a = some (.reads k read missing))
    (hread : read w = v) : change turn (.value a w) = some ⟨k, v⟩ := by
  simp only [change, h, hread]

theorem effect_flag (x : Setting ω) :
    x.effect (F.flag turn unknown) = (change turn x).map fun c => F.put c.1 c.2 := by
  cases x with
  | plain a =>
    simp only [Setting.effect, Fields.flag, Fields.branch, change]
    rcases turn a with _ | _ | _ <;> rfl
  | value a w =>
    simp only [Setting.effect, Fields.flag, Fields.branch, change]
    rcases turn a with _ | _ | _ <;> rfl

theorem fits_flag : x.Fits (F.flag turn unknown) ↔ (change turn x).isSome = true := by
  rw [Setting.Fits, effect_flag, Option.isSome_map]

theorem foldl_flag (hxs : ∀ x ∈ xs, x.Fits (F.flag turn unknown)) (s : σ) :
    xs.foldl (Setting.apply (F.flag turn unknown)) s = F.puts s (xs.filterMap (change turn)) := by
  induction xs generalizing s with
  | nil => rfl
  | cons x xs ih =>
    obtain ⟨c, hc⟩ := Option.isSome_iff_exists.mp (fits_flag.mp (hxs x List.mem_cons_self))
    rw [List.foldl_cons, ih fun y hy => hxs y (List.mem_cons_of_mem x hy), List.filterMap_cons_some hc, Setting.apply,
      effect_flag, hc]
    rfl

/-- **What is taken** changes fields, one after another. -/
theorem scan_flag_ok : scan (F.flag turn unknown) s args = .ok s' ↔
    ∃ xs : List (Setting ω), (∀ x ∈ xs, (change turn x).isSome = true) ∧ args = xs.flatMap Setting.words ∧
      s' = F.puts s (xs.filterMap (change turn)) := by
  rw [scan_eq_ok]
  refine exists_congr fun xs => ?_
  simp only [fits_flag]
  refine and_congr_right fun hxs => and_congr_right fun _ => ?_
  rw [foldl_flag fun x hx => fits_flag.mpr (hxs x hx)]

/-- **What is not**: a word that sets no field, or one at the end that should
have a value. -/
theorem scan_flag_error : scan (F.flag turn unknown) s args = .error e ↔
    ∃ (xs : List (Setting ω)) (a : ω) (rest : List ω), (∀ x ∈ xs, (change turn x).isSome = true) ∧
      args = xs.flatMap Setting.words ++ a :: rest ∧
      (turn a = none ∧ e = unknown a ∨ rest = [] ∧ ∃ k read, turn a = some (.reads k read e)) := by
  rw [scan_eq_error]
  refine exists_congr fun xs => exists_congr fun a => exists_congr fun rest => ?_
  simp only [fits_flag]
  refine and_congr_right fun _ => and_congr_right fun _ => ?_
  rw [Fault, Fields.flag]
  rcases turn a with _ | ⟨k, v⟩ | ⟨k, read, missing⟩
  · simp [Fields.branch, eq_comm]
  · simp [Fields.branch]
  · simp [Fields.branch]

end Turns
end Lib

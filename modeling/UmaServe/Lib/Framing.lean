/-
Self-delimiting encodings over a stream. A `Framing` decodes the first
message of a buffer once all of it is there and asks for more before that.
`drain` takes every complete message off a buffer; on a buffer that is a
prefix of an encoded list of messages it returns the messages that are
complete and keeps the rest of the next one (`drain_spec`).
-/
import Mathlib.Data.List.Basic

namespace Lib

variable {α β : Type}

structure Framing (α β : Type) where
  enc : α → List β
  dec : List β → Option (α × List β)
  valid : α → Prop
  dec_nil : dec [] = none
  /-- A whole message at the front is decoded, whatever follows it. -/
  dec_enc : ∀ a r, valid a → dec (enc a ++ r) = some (a, r)
  /-- A message that is not all there is not decoded. -/
  dec_short : ∀ a p q, valid a → enc a = p ++ q → q ≠ [] → dec p = none

namespace Framing

variable (F : Framing α β)

/-- Take messages off the buffer until there is none, at most `n` times. -/
def drain : Nat → List β → List α × List β
  | 0, rx => ([], rx)
  | n + 1, rx =>
    match F.dec rx with
    | none => ([], rx)
    | some (a, rx) => ((a :: (drain n rx).1), (drain n rx).2)

variable {F}

theorem enc_ne_nil {a : α} (h : F.valid a) : F.enc a ≠ [] := by
  intro he
  have := F.dec_enc a [] h
  rw [he, List.nil_append, F.dec_nil] at this
  cases this

/-- On a prefix `rx` of the encoding of `pending`, `drain` returns the
messages whose encoding lies in `rx` and stops where no message is whole. -/
theorem drain_spec {n : Nat} {pending : List α} {rx rest : List β} (hv : ∀ a ∈ pending, F.valid a)
    (hp : pending.flatMap F.enc = rx ++ rest) (hn : rx.length ≤ n) :
    ∃ left, pending = (F.drain n rx).1 ++ left ∧ left.flatMap F.enc = (F.drain n rx).2 ++ rest ∧
      F.dec (F.drain n rx).2 = none := by
  induction n generalizing pending rx with
  | zero =>
    obtain rfl : rx = [] := List.length_eq_zero_iff.mp (Nat.le_zero.mp hn)
    exact ⟨pending, rfl, hp, F.dec_nil⟩
  | succ n ih =>
    cases pending with
    | nil =>
      obtain ⟨rfl, rfl⟩ : rx = [] ∧ rest = [] := by simpa using hp
      exact ⟨[], by simp [drain, F.dec_nil], by simp [drain, F.dec_nil], by simp [drain, F.dec_nil]⟩
    | cons a pending =>
      have ha := hv a List.mem_cons_self
      rw [List.flatMap_cons] at hp
      -- The buffer either holds the whole of the first message or stops inside it.
      rcases List.append_eq_append_iff.mp hp with ⟨r, hrx, hrest⟩ | ⟨r, henc, hrest⟩
      · subst hrx
        have hlen : r.length ≤ n := by
          have := List.length_pos_iff.mpr (enc_ne_nil ha)
          simp only [List.length_append] at hn
          omega
        obtain ⟨left, h₁, h₂, h₃⟩ := ih (fun b hb => hv b (List.mem_cons_of_mem _ hb)) hrest hlen
        refine ⟨left, ?_, ?_, ?_⟩ <;> simp only [drain, F.dec_enc a r ha]
        · rw [List.cons_append, ← h₁]
        · exact h₂
        · exact h₃
      · by_cases hr : r = []
        · subst hr
          rw [List.append_nil] at henc
          have hd := F.dec_enc a [] ha
          rw [List.append_nil, henc] at hd
          have hrest' : pending.flatMap F.enc = [] ++ rest := hrest.symm
          obtain ⟨left, h₁, h₂, h₃⟩ := ih (fun b hb => hv b (List.mem_cons_of_mem _ hb)) hrest' (Nat.zero_le n)
          refine ⟨left, ?_, ?_, ?_⟩ <;> simp only [drain, hd]
          · rw [List.cons_append, ← h₁]
          · exact h₂
          · exact h₃
        · have hd := F.dec_short a rx r ha henc hr
          refine ⟨a :: pending, ?_, ?_, ?_⟩ <;> simp only [drain, hd]
          · rfl
          · rw [List.flatMap_cons, henc, hrest, List.append_assoc]

theorem drain_flatMap {n : Nat} {as : List α} {part : List β} (hv : ∀ a ∈ as, F.valid a) (hpart : F.dec part = none)
    (hn : (as.flatMap F.enc ++ part).length ≤ n) : F.drain n (as.flatMap F.enc ++ part) = (as, part) := by
  induction as generalizing n with
  | nil =>
    rw [List.flatMap_nil, List.nil_append]
    cases n with
    | zero => rfl
    | succ n => rw [drain, hpart]
  | cons a as ih =>
    obtain ⟨ha, hv⟩ := List.forall_mem_cons.mp hv
    have hpos := List.length_pos_iff.mpr (enc_ne_nil ha)
    rw [List.flatMap_cons, List.append_assoc, List.length_append] at hn
    obtain ⟨m, rfl⟩ : ∃ m, n = m + 1 := ⟨n - 1, by omega⟩
    rw [List.flatMap_cons, List.append_assoc, drain, F.dec_enc a _ ha]
    dsimp only
    rw [ih hv (by omega)]

end Framing
end Lib

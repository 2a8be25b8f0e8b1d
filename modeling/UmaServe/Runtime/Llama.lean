/-
What the daemon uses of llama.cpp, which is not part of the repository: the
vocabulary and the sequence memory. `runtime/tokens.cpp` is modelled over it.

The vocabulary is a parameter. `llama_tokenize` and `llama_token_to_piece`
follow their documented contract: the result when it fits the buffer, and
otherwise minus the size it needs.
-/
import UmaServe.Bytes

namespace UmaServe

abbrev Token := Int

structure Vocab where
  /-- The tokens of a text, with `add_special` and `parse_special`. -/
  tokens : Bytes → Bool → Bool → List Token
  /-- The text of a token, with `special`. -/
  piece : Token → Bool → Bytes
  isEog : Token → Bool
  nTokens : Nat

/-- `llama_tokenize` into a buffer of `cap` tokens. -/
def llamaTokenize (v : Vocab) (text : Bytes) (cap : Nat) (addBos special : Bool) : Int × List Token :=
  let ts := v.tokens text addBos special
  if ts.length ≤ cap then (ts.length, ts) else (-ts.length, [])

/-- `tokens::tokenize`: one pass for the length, one for the tokens. -/
def tokenize (v : Vocab) (text : Bytes) (addBos special : Bool) : List Token :=
  let n := -(llamaTokenize v text 0 addBos special).1
  if n ≤ 0 then []
  else
    let (rc, out) := llamaTokenize v text n.toNat addBos special
    if rc < 0 then [] else out

theorem tokenize_eq (v : Vocab) (text : Bytes) (addBos special : Bool) :
    tokenize v text addBos special = v.tokens text addBos special := by
  unfold tokenize llamaTokenize
  cases v.tokens text addBos special with
  | nil => simp
  | cons t ts =>
    have h₁ : ¬ ((ts.length : Int) + 1 ≤ 0) := by omega
    have h₂ : ¬ ((ts.length : Int) + 1 < 0) := by omega
    simp [h₁, h₂]

/-- `llama_token_to_piece` into a buffer of `cap` bytes. -/
def llamaTokenToPiece (v : Vocab) (t : Token) (cap : Nat) (special : Bool) : Int × Bytes :=
  let p := v.piece t special
  if p.length ≤ cap then (p.length, p) else (-p.length, [])

/-- `tokens::token_to_piece_str`, with its buffer of 256 bytes. -/
def tokenToPieceStr (v : Vocab) (t : Token) (special : Bool) : Bytes :=
  let (n, tmp) := llamaTokenToPiece v t 256 special
  if n ≤ 0 then [] else tmp

/-! ## Sequence memory -/

/-- The tokens held for each sequence id, oldest first. -/
abbrev Memory := Int → List Token

/-- The tokens of a list of rows that belong to sequence `q`. -/
def rowTokens (rows : List (Int × Token)) (q : Int) : List Token :=
  (rows.filter fun r => r.1 == q).map Prod.snd

/-- The memory after the rows were decoded into it. -/
def Memory.append (m : Memory) (rows : List (Int × Token)) : Memory := fun q => m q ++ rowTokens rows q

/-- `llama_memory_seq_rm(mem, seq, -1, -1)`. -/
def Memory.seqRm (m : Memory) (seq : Int) : Memory := fun q => if q = seq then [] else m q

@[simp] theorem seqRm_self (m : Memory) (q : Int) : m.seqRm q q = [] := by simp [Memory.seqRm]

theorem seqRm_ne (m : Memory) {q seq : Int} (h : q ≠ seq) : m.seqRm seq q = m q := by
  simp [Memory.seqRm, h]

theorem rowTokens_eq_nil {rows : List (Int × Token)} {q : Int} (h : ∀ r ∈ rows, r.1 ≠ q) :
    rowTokens rows q = [] := by
  simp only [rowTokens, List.map_eq_nil_iff, List.filter_eq_nil_iff, beq_iff_eq]
  exact h

end UmaServe

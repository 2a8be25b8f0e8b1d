/-
Association lists updated in place (`AList.replace`), and folds that touch
one key at a time.

A fold over a list of items whose keys are distinct acts on each key at
most once: what it leaves at a key is what the one item of that key does to
what was there (`foldl_local`), and a key no item has is untouched
(`foldl_frame`).
-/
import Mathlib.Data.List.AList
import Mathlib.Data.List.Perm.Basic

namespace AList

variable {α β : Type} [DecidableEq α]

theorem kreplace_cons {a a' : α} {b b' : β} {l : List (Sigma fun _ : α => β)} :
    (⟨a', b'⟩ :: l : List (Sigma fun _ : α => β)).kreplace a b =
      if a = a' then ⟨a, b⟩ :: l else ⟨a', b'⟩ :: l.kreplace a b := by
  rw [List.kreplace, List.lookmap_cons]
  by_cases h : a = a'
  · simp [h]
  · simp [h]

theorem dlookup_cons_other {a a' : α} {b' : β} {l : List (Sigma fun _ : α => β)} (h : a ≠ a') :
    (⟨a', b'⟩ :: l : List (Sigma fun _ : α => β)).dlookup a = l.dlookup a :=
  List.dlookup_cons_ne l (⟨a', b'⟩ : Sigma fun _ : α => β) h

theorem dlookup_kreplace_self {a : α} {b : β} :
    ∀ {l : List (Sigma fun _ : α => β)}, a ∈ l.keys → (l.kreplace a b).dlookup a = some b
  | [], h => by simp at h
  | ⟨a', b'⟩ :: l, h => by
    rw [kreplace_cons]
    by_cases haa : a = a'
    · rw [if_pos haa, List.dlookup_cons_eq]
    · have hl : a ∈ l.keys := by simpa [haa] using h
      rw [if_neg haa, dlookup_cons_other haa]
      exact dlookup_kreplace_self hl

theorem dlookup_kreplace_ne {a k : α} {b : β} (hne : k ≠ a) :
    ∀ {l : List (Sigma fun _ : α => β)}, (l.kreplace a b).dlookup k = l.dlookup k
  | [] => rfl
  | ⟨a', b'⟩ :: l => by
    rw [kreplace_cons]
    by_cases haa : a = a'
    · subst haa
      rw [if_pos rfl, dlookup_cons_other hne, dlookup_cons_other hne]
    · rw [if_neg haa]
      by_cases hka : k = a'
      · subst hka; rw [List.dlookup_cons_eq, List.dlookup_cons_eq]
      · rw [dlookup_cons_other hka, dlookup_cons_other hka]
        exact dlookup_kreplace_ne hne

variable {s : AList fun _ : α => β}

theorem mem_of_lookup {a : α} {b : β} (h : s.lookup a = some b) : a ∈ s := by
  rw [← lookup_isSome, h]; rfl

theorem lookup_replace_self {a : α} {b b' : β} (h : s.lookup a = some b') :
    (s.replace a b).lookup a = some b :=
  dlookup_kreplace_self (mem_keys.mp (mem_of_lookup h))

theorem lookup_replace_ne {a k : α} {b : β} (hne : k ≠ a) : (s.replace a b).lookup k = s.lookup k :=
  dlookup_kreplace_ne hne

theorem mem_entries_iff {a : α} {b : β} : (⟨a, b⟩ : Sigma fun _ : α => β) ∈ s.entries ↔ s.lookup a = some b :=
  (List.mem_dlookup_iff s.nodupKeys).symm

theorem keys_filterMap {order : List α} (h : order ⊆ s.keys) :
    (order.filterMap fun a => (s.lookup a).map fun b => (⟨a, b⟩ : Sigma fun _ : α => β)).keys = order := by
  have hkey : ∀ a ∈ order, ((s.lookup a).map fun b => (⟨a, b⟩ : Sigma fun _ : α => β)).map Sigma.fst = some a := by
    intro a ha
    obtain ⟨b, hb⟩ := Option.isSome_iff_exists.mp (lookup_isSome.mpr (mem_keys.mpr (h ha)))
    simp [hb]
  rw [List.keys, List.map_filterMap, List.filterMap_congr hkey, List.filterMap_some]

/-- The entries listed in the order `order`, when `order` lists the keys. -/
def arrange (order : List α) (s : AList fun _ : α => β) : AList fun _ : α => β :=
  if h : order.Perm s.keys then
    { entries := order.filterMap fun a => (s.lookup a).map fun b => ⟨a, b⟩
      nodupKeys := by
        rw [List.NodupKeys, keys_filterMap h.subset]
        exact h.nodup_iff.mpr s.keys_nodup }
  else s

theorem keys_arrange {order : List α} (h : order.Perm s.keys) : (s.arrange order).keys = order := by
  rw [arrange, dif_pos h]
  exact keys_filterMap h.subset

theorem lookup_arrange {order : List α} {a : α} : (s.arrange order).lookup a = s.lookup a := by
  unfold arrange
  split
  next h =>
    apply Option.ext
    intro b
    rw [← Option.mem_def, ← Option.mem_def, mem_lookup_iff, mem_lookup_iff, List.mem_filterMap]
    constructor
    · intro ⟨a', _, h'⟩
      obtain ⟨b', hb', he⟩ := Option.map_eq_some_iff.mp h'
      cases he
      exact mem_entries_iff.mpr hb'
    · intro hb
      have hl := mem_entries_iff.mp hb
      exact ⟨a, h.mem_iff.mpr (mem_keys.mp (mem_of_lookup hl)), by rw [hl]; rfl⟩
  next => rfl

end AList

namespace Lib

section Fold

variable {σ ι κ β : Type} {f : σ → ι → σ} {key : ι → κ} {l : List ι} {st : σ} {k : κ}

/-- A key no item has keeps its view. -/
theorem foldl_frame (view : σ → κ → β) (hf : ∀ st i k, k ≠ key i → view (f st i) k = view st k)
    (hk : ∀ i ∈ l, key i ≠ k) :
    view (l.foldl f st) k = view st k := by
  induction l generalizing st with
  | nil => rfl
  | cons i l ih =>
    rw [List.foldl_cons, ih fun j hj => hk j (List.mem_cons_of_mem _ hj)]
    exact hf st i k fun h => hk i List.mem_cons_self h.symm

/-- An item's key ends with what the item does to what was there. -/
theorem foldl_local (view : σ → κ → β) {g : ι → β → β} (hf : ∀ st i k, k ≠ key i → view (f st i) k = view st k)
    (hg : ∀ st i, view (f st i) (key i) = g i (view st (key i))) (hn : (l.map key).Nodup) {i : ι} (hi : i ∈ l) :
    view (l.foldl f st) (key i) = g i (view st (key i)) := by
  induction l generalizing st with
  | nil => cases hi
  | cons j l ih =>
    rw [List.map_cons, List.nodup_cons] at hn
    rw [List.foldl_cons]
    rcases List.mem_cons.mp hi with rfl | hi
    · have hk : ∀ j ∈ l, key j ≠ key i := fun j hj he => hn.1 (he ▸ List.mem_map_of_mem hj)
      rw [foldl_frame view hf hk, hg]
    · rw [ih hn.2 hi, hf st j]
      intro he
      exact hn.1 (he ▸ List.mem_map_of_mem hi)

end Fold

/-- Two counts agree when the items that are counted have distinct keys, which
are the keys that are counted. -/
theorem countP_eq_of_key {ι κ : Type} {key : ι → κ} {l : List ι} {ks : List κ} {P : κ → Bool} {Q : ι → Bool}
    (hks : ks.Nodup) (hl : (l.map key).Nodup) (h : ∀ k, (k ∈ ks ∧ P k = true) ↔ ∃ i ∈ l, Q i = true ∧ key i = k) :
    ks.countP P = l.countP Q := by
  have hn : ((l.filter Q).map key).Nodup := hl.sublist (List.filter_sublist.map key)
  have hp : (ks.filter P).Perm ((l.filter Q).map key) := by
    refine (List.perm_ext_iff_of_nodup (hks.filter P) hn).mpr fun k => ?_
    rw [List.mem_filter, h k, List.mem_map]
    simp only [List.mem_filter, and_assoc]
  rw [List.countP_eq_length_filter, List.countP_eq_length_filter, hp.length_eq, List.length_map]

end Lib

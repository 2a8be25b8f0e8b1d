/-
The snapshot of the counters is a JSON object, whatever they are, with one
number for each name; counters stand as they are, and the means to the nearest
thousandth (`metrics_json`). The means are exact before they are printed.
-/
import UmaServe.Cli.ExitStatus
import UmaServe.Cli.Preferences
import UmaServe.Sched.Metrics

namespace UmaServe

/-! ## Numbers -/

section Thousandths

variable {n : Nat} {r t ds : Bytes} {c : UInt8}

theorem thousandths_error (q : ℚ≥0) : 2 * (thousandths q * q.den : Int) ≤ 2 * (q.num * 1000 : Nat) + q.den ∧
    2 * (q.num * 1000 : Nat) ≤ 2 * (thousandths q * q.den : Int) + q.den := by
  have hdiv := Nat.div_add_mod (q.num * 1000) q.den
  have hmod := Nat.mod_lt (q.num * 1000) q.den_pos
  unfold thousandths
  dsimp only
  generalize q.num * 1000 / q.den = n at hdiv ⊢
  generalize q.num * 1000 % q.den = r at hdiv hmod ⊢
  rw [← hdiv]
  have hcomm : ((n * q.den : Nat) : Int) = (q.den * n : Nat) := by rw [Nat.mul_comm]
  split
  · push_cast at hcomm ⊢
    omega
  · push_cast at hcomm ⊢
    rw [add_mul]
    omega

theorem thousandths_near (q : ℚ≥0) : |(thousandths q : ℚ) / 1000 - q| ≤ 1 / 2000 := by
  obtain ⟨hupper, hlower⟩ := thousandths_error q
  have hden : (0 : ℚ) < q.den := Nat.cast_pos.mpr q.den_pos
  have hq : (q : ℚ) = q.num / q.den := by
    conv_lhs => rw [← NNRat.num_div_den q]
    push_cast
    rfl
  have hupper' : 2 * ((thousandths q : ℚ) * q.den) ≤ 2 * (q.num * 1000) + q.den := by exact_mod_cast hupper
  have hlower' : 2 * (q.num * 1000 : ℚ) ≤ 2 * (thousandths q * q.den) + q.den := by exact_mod_cast hlower
  have hdiff : (thousandths q : ℚ) / 1000 - q = (thousandths q * q.den - q.num * 1000) / (1000 * q.den) := by
    rw [hq]
    field_simp
  rw [hdiff, abs_le, le_div_iff₀ (by positivity), div_le_iff₀ (by positivity)]
  constructor <;> linarith

theorem Printed.near (v : Printed) : |v.value - v.exact| ≤ 1 / 2000 := by
  cases v with
  | count n => simp [Printed.value, Printed.exact]
  | fixed q => exact thousandths_near q

theorem stdToString_natCast (n : Nat) : stdToString n = decimal n := by
  rw [stdToString, if_neg (Int.not_lt.mpr (Int.natCast_nonneg n)), Int.natAbs_natCast, decimal]

theorem decimal_head (h : (decimal n).head? = some (chr '0')) : decimal n = [chr '0'] := by
  rw [decimal, List.head?_map, Option.map_eq_some_iff] at h
  obtain ⟨c, hc, hchr⟩ := h
  have hdigit : c.isDigit = true := Nat.isDigit_of_mem_toDigits (by decide) (by decide) (List.mem_of_mem_head? hc)
  have hd : 48 ≤ c.toNat ∧ c.toNat ≤ 57 := Char.isDigit_iff_toNat.mp hdigit
  have hbyte : c.toNat % 256 = 48 := congrArg UInt8.toNat hchr
  obtain rfl : c = '0' := Char.toNat_inj.mp (show c.toNat = 48 by omega)
  rw [toDigits_head hc]
  rfl

/-- The three digits of a fraction. -/
def milli (n : Nat) : Bytes := List.replicate (3 - (decimal n).length) (chr '0') ++ decimal n

theorem mem_milli (h : c ∈ milli n) : Lib.isDigit c = true := by
  rw [milli, List.mem_append] at h
  rcases h with h | h
  · rw [List.eq_of_mem_replicate h]
    decide
  · exact mem_decimal h

theorem length_milli (h : n < 1000) : (milli n).length = 3 := by
  have hle : (decimal n).length ≤ 3 := by
    rw [decimal, List.length_map, Nat.length_toDigits_le_iff (by decide) (by decide)]
    exact h
  rw [milli, List.length_append, List.length_replicate]
  omega

theorem natOf_milli (n : Nat) : Lib.natOf (milli n) = n := by
  rw [milli, Lib.natOf_append, show chr '0' = 48 from rfl, Lib.natOf_zeros, natOf_decimal, Nat.zero_mul, Nat.zero_add]

theorem value_digits (hds : ∀ d ∈ ds, Lib.isDigit d = true) (hne : ds ≠ []) :
    Lib.Json.Parse.value (n + 1) (Lib.Json.Parse.skipWs (ds ++ t)) =
      (Lib.Json.Parse.unsigned (ds ++ t)).map fun p => (.number p.1, p.2) := by
  obtain ⟨d, ds, rfl⟩ := List.exists_cons_of_ne_nil hne
  have hd : Lib.isDigit d = true := hds d List.mem_cons_self
  have hspace : Lib.Json.Parse.isSpace d = false := by
    rw [Bool.eq_false_iff]
    intro hs
    simp only [Lib.Json.Parse.isSpace, Bool.or_eq_true, decide_eq_true_eq] at hs
    rcases hs with ((rfl | rfl) | rfl) | rfl <;> exact absurd hd (by decide)
  have hminus : d ≠ Lib.Json.ascii '-' := by
    rintro rfl
    exact absurd hd (by decide)
  rw [List.cons_append, Lib.Json.Parse.skipWs, List.dropWhile_cons_of_neg (by simp [hspace]),
    Lib.Json.Parse.value_number (.inr hd), Lib.Json.Parse.number, if_neg hminus]

/-- **The text of a number** is parsed as what it says. -/
theorem value_printed (v : Printed) (hr : ∀ c ∈ r.head?, Lib.isDigit c = false ∧
    c ≠ Lib.Json.ascii '.' ∧ c ≠ Lib.Json.ascii 'e' ∧ c ≠ Lib.Json.ascii 'E') :
    Lib.Json.Parse.value (n + 1) (Lib.Json.Parse.skipWs (v.text ++ r)) = some (.number v.value, r) := by
  cases v with
  | count k =>
    rw [Printed.text, value_stdToString hr, Printed.value, Int.cast_natCast]
  | fixed q =>
    have hdigits : ∀ c ∈ decimal (thousandths q / 1000), Lib.isDigit c = true := fun c => mem_decimal
    have hmilli : ∀ c ∈ milli (thousandths q % 1000), Lib.isDigit c = true := fun c => mem_milli
    have hlen : (milli (thousandths q % 1000)).length = 3 := length_milli (Nat.mod_lt _ (by decide))
    have hnat :
        Lib.natOf (decimal (thousandths q / 1000) ++ milli (thousandths q % 1000)) = thousandths q := by
      rw [Lib.natOf_append, natOf_decimal, natOf_milli, hlen, Nat.mul_comm]
      exact Nat.div_add_mod (thousandths q) 1000
    have htext : (Printed.fixed q).text =
        decimal (thousandths q / 1000) ++ chr '.' :: milli (thousandths q % 1000) := by
      simp only [Printed.text, stdToString_natCast, milli]
    rw [htext, List.append_assoc, List.cons_append, value_digits hdigits (decimal_ne_nil _)]
    have hunsigned := Lib.Json.Parse.unsigned_frac (r := r) hdigits (decimal_ne_nil _) decimal_head hmilli
      (List.ne_nil_of_length_pos (by omega)) fun c hc => ⟨(hr c hc).1, (hr c hc).2.2⟩
    rw [hnat, hlen] at hunsigned
    exact (congrArg _ hunsigned).trans (by norm_num [Printed.value])

end Thousandths

/-! ## The object -/

/-- The members as they stand in the text. -/
def printedMembers (l : List (String × Printed)) : List (Bytes × Bytes) :=
  closing (l.map fun f => (bytes f.1, f.2.text))

section Object

variable {m : Metrics} {p : DebugMetrics} {activeSessions n : Nat} {debug : Bool} {l : List (String × Printed)}
  {f : String × Printed} {r : Bytes}

/-- The names of the members. -/
def memberNames (debug : Bool) : List String := (({} : Metrics).members {} 0 debug).map Prod.fst

theorem members_names (m : Metrics) (p : DebugMetrics) (activeSessions : Nat) (debug : Bool) :
    (m.members p activeSessions debug).map Prod.fst = memberNames debug := by
  cases debug <;> rfl

theorem memberNames_ok (debug : Bool) :
    (∀ k ∈ memberNames debug, jsonEscape (bytes k) = bytes k) ∧ ((memberNames debug).map bytes).Nodup := by
  cases debug with
  | false => exact ⟨by with_unfolding_all decide +kernel, by with_unfolding_all decide +kernel⟩
  | true => exact ⟨by with_unfolding_all decide +kernel, by with_unfolding_all decide +kernel⟩

theorem intercalate_printed (hne : l ≠ []) (hl : ∀ f ∈ l, jsonEscape (bytes f.1) = bytes f.1) :
    List.intercalate [chr ','] (l.map fun f => chr '"' :: bytes f.1 ++ bytes "\":" ++ f.2.text) ++ [chr '\x7d'] =
      fields (printedMembers l) := by
  have hcolon : bytes "\":" = [chr '"', chr ':'] := by with_unfolding_all decide
  induction l with
  | nil => exact absurd rfl hne
  | cons f l ih =>
    have hkey := hl f List.mem_cons_self
    cases l with
    | nil => simp [List.intercalate, printedMembers, closing, fields, hkey, hcolon]
    | cons g l =>
      have ih := ih (List.cons_ne_nil g l) fun h hh => hl h (List.mem_cons_of_mem f hh)
      have hprinted : printedMembers (f :: g :: l) =
          (bytes f.1, chr ':' :: (f.2.text ++ [chr ','])) :: printedMembers (g :: l) := rfl
      rw [hprinted, fields_cons, hkey, ← ih, hcolon]
      simp [List.intercalate]

/-- What the members say. -/
def Printed.members (l : List (String × Printed)) : List (Bytes × Lib.Json.Value) :=
  l.map fun f => (bytes f.1, .number f.2.value)

theorem fields_key {k g : Bytes} {t : List (Bytes × Bytes)} : fields ((k, chr ':' :: g) :: t) ++ r =
    Lib.Json.string (k.map escapeItem) ++ Lib.Json.ascii ':' :: (g ++ (fields t ++ r)) := by
  simp [fields_cons, string_escapeItems, ascii_eq]

theorem printed_cons (hne : l ≠ []) :
    ∃ t, fields (printedMembers l) = Lib.Json.ascii '"' :: t ∧ l.length ≤ t.length := by
  induction l with
  | nil => exact absurd rfl hne
  | cons f l ih =>
    cases l with
    | nil => exact ⟨_, fields_cons, by simp; omega⟩
    | cons g l =>
      obtain ⟨t, ht, hlen⟩ := ih (List.cons_ne_nil g l)
      refine ⟨_, fields_cons, ?_⟩
      change _ ≤ (_ ++ chr '"' :: (_ ++ fields (printedMembers (g :: l)))).length
      rw [ht]
      simp only [List.length_cons, List.length_append] at hlen ⊢
      omega

/-- **Members** are parsed one by one. -/
theorem members_printed (hne : l ≠ []) : Lib.Json.Parse.members (n + l.length + 1) (fields (printedMembers l) ++ r) =
    some (Printed.members l, r) := by
  have hend : ∀ c ∈ [chr ',', chr '\x7d'], Lib.isDigit c = false ∧ c ≠ Lib.Json.ascii '.' ∧
      c ≠ Lib.Json.ascii 'e' ∧ c ≠ Lib.Json.ascii 'E' := by decide +kernel
  induction l with
  | nil => exact absurd rfl hne
  | cons f l ih =>
    cases l with
    | nil =>
      rw [printedMembers, List.map_singleton, closing, List.cons_append, fields_key]
      refine Lib.Json.Parse.members_last (escapeItems_valid _) (decode_escapeItems _) ?_
      rw [List.append_assoc]
      exact value_printed f.2 fun c hc => hend c (by simp_all [fields])
    | cons g l =>
      have ih := ih (List.cons_ne_nil g l)
      have hprinted : printedMembers (f :: g :: l) =
          (bytes f.1, chr ':' :: (f.2.text ++ [chr ','])) :: printedMembers (g :: l) := rfl
      have hmore := Lib.Json.Parse.members_more (n := n + (g :: l).length + 1) (escapeItems_valid (bytes f.1))
        (decode_escapeItems (bytes f.1)) (t := f.2.text ++ (chr ',' :: (fields (printedMembers (g :: l)) ++ r)))
        (value_printed f.2 fun c hc => hend c (by simp_all))
      obtain ⟨t, ht, -⟩ := printed_cons (List.cons_ne_nil g l)
      have hskip : Lib.Json.Parse.skipWs (fields (printedMembers (g :: l)) ++ r) =
          fields (printedMembers (g :: l)) ++ r := by
        rw [ht]
        exact List.dropWhile_cons_of_neg (by decide)
      rw [hskip, ih] at hmore
      rw [hprinted, fields_key, List.append_assoc]
      exact hmore

/-- **The object** that members make. -/
theorem value_members (hne : l ≠ []) (hn : l.length < n) :
    Lib.Json.Parse.value (n + 1) (chr '\x7b' :: fields (printedMembers l) ++ r) =
      some (.object (Printed.members l), r) := by
  obtain ⟨t, ht, -⟩ := printed_cons hne
  have hmembers := members_printed (n := n - l.length - 1) (r := r) hne
  rw [show n - l.length - 1 + l.length + 1 = n by omega, ht] at hmembers
  rw [ht]
  exact Lib.Json.Parse.value_object.trans (congrArg (Option.map _) hmembers)

theorem toJson_eq : m.toJson p activeSessions debug =
    chr '\x7b' :: fields (printedMembers (m.members p activeSessions debug)) := by
  have hl : ∀ f ∈ m.members p activeSessions debug, jsonEscape (bytes f.1) = bytes f.1 := fun f hf => by
    refine (memberNames_ok debug).1 f.1 ?_
    rw [← members_names m p activeSessions debug]
    exact List.mem_map_of_mem hf
  rw [Metrics.toJson, List.cons_append, intercalate_printed (by simp [Metrics.members]) hl]

theorem value_toJson (hn : (m.toJson p activeSessions debug).length ≤ n) :
    Lib.Json.Parse.value (n + 1) (m.toJson p activeSessions debug ++ r) =
      some (.object (Printed.members (m.members p activeSessions debug)), r) := by
  have hne : m.members p activeSessions debug ≠ [] := by simp [Metrics.members]
  obtain ⟨t, ht, hlen⟩ := printed_cons hne
  rw [toJson_eq] at hn ⊢
  refine value_members hne ?_
  rw [ht, List.length_cons, List.length_cons] at hn
  omega

theorem parse_toJson : Lib.Json.parse (m.toJson p activeSessions debug) =
    some (.object (Printed.members (m.members p activeSessions debug))) := by
  have hvalue : Lib.Json.Parse.value ((m.toJson p activeSessions debug).length + 1)
      (m.toJson p activeSessions debug ++ []) =
      some (.object (Printed.members (m.members p activeSessions debug)), []) := value_toJson le_rfl
  have hskip : Lib.Json.Parse.skipWs (m.toJson p activeSessions debug) = m.toJson p activeSessions debug := by
    rw [toJson_eq]
    exact List.dropWhile_cons_of_neg (by decide)
  rw [List.append_nil] at hvalue
  rw [Lib.Json.parse, hskip, hvalue]
  rfl

/-- The reply around a snapshot. -/
theorem metricsPayload_members (json : Bytes) : metricsPayload json = chr '\x7b' ::
    (Lib.Json.string ((bytes "event").map escapeItem) ++ Lib.Json.ascii ':' ::
      (Lib.Json.string ((bytes "metrics").map escapeItem) ++ Lib.Json.ascii ',' ::
        (Lib.Json.string ((bytes "metrics").map escapeItem) ++ Lib.Json.ascii ':' ::
          (json ++ [Lib.Json.ascii '\x7d'])))) := by
  rw [metricsPayload_eq]
  simp [fields, string_escapeItems, ascii_eq]

theorem parse_metrics : Lib.Json.parse (metricsPayload (m.toJson p activeSessions debug)) =
    some (.object [(bytes "event", .string (bytes "metrics")),
      (bytes "metrics", .object (Printed.members (m.members p activeSessions debug)))]) := by
  have hskip : ∀ t : Bytes, Lib.Json.Parse.skipWs (chr '\x7b' :: t) = chr '\x7b' :: t := fun t =>
    List.dropWhile_cons_of_neg (by decide)
  obtain ⟨n, hn, hle⟩ : ∃ n, (metricsPayload (m.toJson p activeSessions debug)).length = n + 3 ∧
      (m.toJson p activeSessions debug).length ≤ n := by
    refine ⟨(metricsPayload (m.toJson p activeSessions debug)).length - 3, ?_⟩
    rw [metricsPayload_members]
    simp only [Lib.Json.string, List.length_cons, List.length_append]
    omega
  have hvalue : Lib.Json.Parse.value (n + 1) (Lib.Json.Parse.skipWs
      (m.toJson p activeSessions debug ++ [Lib.Json.ascii '\x7d'])) =
      some (.object (Printed.members (m.members p activeSessions debug)), [Lib.Json.ascii '\x7d']) := by
    rw [toJson_eq, List.cons_append, hskip, ← List.cons_append, ← toJson_eq]
    exact value_toJson hle
  have hlast := Lib.Json.Parse.members_last (escapeItems_valid (bytes "metrics")) (decode_escapeItems _) hvalue
  have hmore := Lib.Json.Parse.members_more (escapeItems_valid (bytes "event")) (decode_escapeItems _)
    (value_escaped (n := n + 1) (v := bytes "metrics") (r := Lib.Json.ascii ',' ::
      (Lib.Json.string ((bytes "metrics").map escapeItem) ++ Lib.Json.ascii ':' ::
        (m.toJson p activeSessions debug ++ [Lib.Json.ascii '\x7d']))))
  have hquote : ∀ t : Bytes, Lib.Json.Parse.skipWs (Lib.Json.ascii '"' :: t) = Lib.Json.ascii '"' :: t := fun t =>
    List.dropWhile_cons_of_neg (by decide)
  have hstring : ∀ (k t : Bytes), Lib.Json.Parse.skipWs (Lib.Json.string (k.map escapeItem) ++ t) =
      Lib.Json.string (k.map escapeItem) ++ t := fun k t => hquote _
  rw [hstring, hlast] at hmore
  have hobject := Lib.Json.Parse.value_object.trans (congrArg (Option.map _) hmore)
  rw [Lib.Json.parse, hn, metricsPayload_members, hskip]
  exact congrArg (Option.bind · _) hobject

/-! ## The snapshot -/

/-- **The snapshot of the counters is JSON**, whatever they are: an object with
one number for each name, every counter as it stands and every mean to the
nearest thousandth; and so is the reply around it. -/
theorem metrics_json (m : Metrics) (p : DebugMetrics) (activeSessions : Nat) (debug : Bool) :
    Lib.Json.parse (m.toJson p activeSessions debug) =
      some (.object (Printed.members (m.members p activeSessions debug))) ∧
    Lib.Json.parse (metricsPayload (m.toJson p activeSessions debug)) =
      some (.object [(bytes "event", .string (bytes "metrics")),
        (bytes "metrics", .object (Printed.members (m.members p activeSessions debug)))]) ∧
    (m.members p activeSessions debug).map Prod.fst = memberNames debug ∧ ((memberNames debug).map bytes).Nodup ∧
    ∀ f ∈ m.members p activeSessions debug, |f.2.value - f.2.exact| ≤ 1 / 2000 ∧
      ∀ n, f.2 = .count n → f.2.value = n := by
  exact ⟨parse_toJson, parse_metrics, members_names m p activeSessions debug, (memberNames_ok debug).2,
    fun f hf => ⟨f.2.near, fun n hn => by rw [hn, Printed.value]⟩⟩

end Object
end UmaServe

import HttpWire.Proofs.RoundTrip.Chunks
import Mathlib.Data.List.Induction

/-!
# What a numeral denotes

A numeral that is read denotes one number, and it is the number's own digits with zeros in front of
them. A number is therefore read off exactly these texts, and only below the bound.

- `ofDigits_eq`: digit values spell the digits of the number they denote.
- `decimal?_eq_some_iff`, `unsigned?_eq_some_iff`, `hexadecimal?_eq_some_iff`: the texts that are read,
  and what is read.
-/

set_option autoImplicit false

namespace HttpWire

open Text

namespace Text

/-! ## Digits -/

/-- The characters of digit values are the digits of the number that the values denote, with zeros in
front. -/
theorem ofDigits_eq {base : Nat} (hbase : 1 < base) {values : List Nat} (hne : values ≠ [])
    (hvalues : ∀ d ∈ values, d < base) :
    ∃ zeros, values.map Nat.digitChar =
      List.replicate zeros '0' ++ Nat.toDigits base (ofDigits base values) := by
  -- by induction on the number of digits, the last one taken off
  induction values using List.reverseRecOn with
  | nil => exact absurd rfl hne
  | append_singleton values d ih =>
      have hd : d < base := hvalues d (List.mem_append_right _ List.mem_cons_self)
      rw [List.map_append, List.map_cons, List.map_nil, ofDigits_concat]
      by_cases hnil : values = []
      · -- a single digit
        refine ⟨0, ?_⟩
        rw [hnil, ofDigits, List.foldl_nil, Nat.zero_mul, Nat.zero_add, Nat.toDigits_of_lt_base hd]
        rfl
      · obtain ⟨zeros, hzeros⟩ :=
          ih hnil fun e he => hvalues e (List.mem_append_left _ he)
        rw [hzeros]
        by_cases hzero : ofDigits base values = 0
        · -- so far there are zeros alone, and the last of them is the digit of zero
          refine ⟨zeros + 1, ?_⟩
          rw [hzero, Nat.zero_mul, Nat.zero_add, Nat.toDigits_of_lt_base hd,
            Nat.toDigits_of_lt_base (Nat.lt_of_succ_lt hbase), List.replicate_succ']
          rfl
        · refine ⟨zeros, ?_⟩
          rw [Nat.mul_comm, ← Nat.toDigits_append_toDigits hbase (Nat.pos_of_ne_zero hzero) hd,
            Nat.toDigits_of_lt_base hd, List.append_assoc]

/-! ## Decimal numerals -/

/-- Whether characters are the decimal digits of a number, with any number of leading zeros. -/
def IsDecimal (n : Nat) (cs : List Char) : Prop :=
  ∃ zeros : Nat, cs = List.replicate zeros '0' ++ Nat.toDigits 10 n

/-- The value of a decimal digit. -/
def digitValue (c : Char) : Nat :=
  c.toNat - '0'.toNat

theorem digitChar_digitValue {c : Char} (h : c.isDigit = true) :
    digitValue c < 10 ∧ Nat.digitChar (digitValue c) = c := by
  have hrange := toNat_of_isDigit h
  have hall : ∀ n < 58, 48 ≤ n → n - 48 < 10 ∧ Nat.digitChar (n - 48) = Char.ofNat n := by decide
  have hc := hall c.toNat (by omega) hrange.1
  rw [Char.ofNat_toNat] at hc
  exact hc

theorem ofDigitChars_eq (cs : List Char) :
    Nat.ofDigitChars 10 cs 0 = ofDigits 10 (cs.map digitValue) := by
  rw [ofDigits, List.foldl_map, Nat.ofDigitChars]
  congr 1
  funext n c
  rw [Nat.mul_comm n 10]
  rfl

/-- Digits denote the number whose digits they are. -/
theorem isDecimal_ofDigitChars {cs : List Char} (hne : cs ≠ [])
    (hdigit : ∀ c ∈ cs, c.isDigit = true) : IsDecimal (Nat.ofDigitChars 10 cs 0) cs := by
  have hvalues : ∀ d ∈ cs.map digitValue, d < 10 := by
    intro d hd
    obtain ⟨c, hc, rfl⟩ := List.mem_map.1 hd
    exact (digitChar_digitValue (hdigit c hc)).1
  have hchars : (cs.map digitValue).map Nat.digitChar = cs := by
    rw [List.map_map]
    calc cs.map (Nat.digitChar ∘ digitValue)
        = cs.map id := List.map_congr_left fun c hc => (digitChar_digitValue (hdigit c hc)).2
      _ = cs := List.map_id cs
  obtain ⟨zeros, hzeros⟩ := @ofDigits_eq 10 (by decide) _ (by simpa using hne) hvalues
  rw [hchars, ← ofDigitChars_eq] at hzeros
  exact ⟨zeros, hzeros⟩

namespace IsDecimal

variable {n : Nat} {cs : List Char}

theorem isDigit_of_mem (h : IsDecimal n cs) {c : Char} (hc : c ∈ cs) : c.isDigit = true := by
  obtain ⟨zeros, rfl⟩ := h
  rcases List.mem_append.1 hc with hc | hc
  · rw [List.eq_of_mem_replicate hc]
    rfl
  · exact Nat.isDigit_of_mem_toDigits (by decide) (by decide) hc

theorem ne_nil (h : IsDecimal n cs) : cs ≠ [] := by
  obtain ⟨zeros, rfl⟩ := h
  intro hnil
  have hpos : 0 < (Nat.toDigits 10 n).length := Nat.length_toDigits_pos
  rw [(List.append_eq_nil_iff.1 hnil).2] at hpos
  exact absurd hpos (Nat.lt_irrefl 0)

theorem ofDigitChars_eq (h : IsDecimal n cs) : Nat.ofDigitChars 10 cs 0 = n := by
  obtain ⟨zeros, rfl⟩ := h
  have hzeros : (List.replicate zeros '0').map digitValue = List.replicate zeros 0 := by
    rw [List.map_replicate]
    rfl
  rw [Text.ofDigitChars_eq, List.map_append, hzeros, ofDigits_zeros, ← Text.ofDigitChars_eq,
    Nat.ofDigitChars_ten_toDigits]

end IsDecimal

/-- A number below the bound is read off its digits and off nothing else. -/
theorem decimal?_eq_some_iff {bound n : Nat} {cs : List Char} :
    decimal? bound cs = some n ↔ IsDecimal n cs ∧ n < bound := by
  constructor
  · intro h
    have hlt := lt_of_decimal? h
    unfold decimal? at h
    split at h
    · cases h
    · rename_i hdigits
      obtain ⟨hne, hdigit⟩ : cs ≠ [] ∧ ∀ c ∈ cs, c.isDigit = true := by simpa using hdigits
      simp only at h
      split at h
      · cases h
        exact ⟨isDecimal_ofDigitChars hne hdigit, hlt⟩
      · cases h
  · rintro ⟨h, hn⟩
    have hne : cs.isEmpty = false := by simpa using h.ne_nil
    have hall : cs.all Char.isDigit = true := List.all_eq_true.2 fun c hc => h.isDigit_of_mem hc
    simp only [decimal?, hne, hall, h.ofDigitChars_eq, if_pos hn, Bool.not_true, Bool.or_self,
      Bool.false_eq_true, if_false]

/-- The number in decimal digits, with one plus sign at most before them. -/
inductive IsUnsigned (n : Nat) : List Char → Prop
  | digits {cs : List Char} (h : IsDecimal n cs) : IsUnsigned n cs
  | plus {cs : List Char} (h : IsDecimal n cs) : IsUnsigned n ('+' :: cs)

/-- A plus sign is no digit, so it is read as a sign where one may stand. -/
theorem unsigned?_eq_some_iff {bound n : Nat} {cs : List Char} :
    unsigned? bound cs = some n ↔ IsUnsigned n cs ∧ n < bound := by
  unfold unsigned?
  split
  · rename_i digits
    rw [decimal?_eq_some_iff]
    constructor
    · rintro ⟨h, hn⟩
      exact ⟨.plus h, hn⟩
    · rintro ⟨h, hn⟩
      cases h with
      | digits h => exact absurd (h.isDigit_of_mem List.mem_cons_self) (by decide)
      | plus h => exact ⟨h, hn⟩
  · rename_i hplus
    rw [decimal?_eq_some_iff]
    constructor
    · rintro ⟨h, hn⟩
      exact ⟨.digits h, hn⟩
    · rintro ⟨h, hn⟩
      cases h with
      | digits h => exact ⟨h, hn⟩
      | plus h => exact absurd rfl (hplus _)

/-! ## Hexadecimal numerals -/

theorem digitChar_hexDigit? {b : UInt8} {d : Nat} (h : hexDigit? (Char.ofUInt8 b) = some d) :
    d < 16 ∧ Nat.digitChar d = (Char.ofUInt8 b).toLower := by
  have hall := forall_byte
    (p := fun b => (hexDigit? (Char.ofUInt8 b)).all fun d =>
      decide (d < 16) && Nat.digitChar d == (Char.ofUInt8 b).toLower) (by decide +kernel) b
  rw [h] at hall
  simpa using hall

theorem map_digitChar_of_mapM {digits : Bytes} {values : List Nat}
    (h : (digits.map Char.ofUInt8).mapM hexDigit? = some values) :
    (∀ d ∈ values, d < 16) ∧
      values.map Nat.digitChar = digits.map fun b => (Char.ofUInt8 b).toLower := by
  induction digits generalizing values with
  | nil =>
      cases h
      exact ⟨nofun, rfl⟩
  | cons b digits ih =>
      simp only [List.map_cons, List.mapM_cons, Option.bind_eq_bind, Option.bind_eq_some_iff] at h
      obtain ⟨d, hd, values', hdigits, h⟩ := h
      cases h
      obtain ⟨hlt, hchar⟩ := digitChar_hexDigit? hd
      obtain ⟨hvalues, hchars⟩ := ih hdigits
      constructor
      · exact List.forall_mem_cons.2 ⟨hlt, hvalues⟩
      · rw [List.map_cons, List.map_cons, hchar, hchars]

/-- A number below the bound is read off its digits, of either case, and off nothing else. -/
theorem hexadecimal?_eq_some_iff {bound n : Nat} {digits : Bytes} :
    hexadecimal? bound (ofBytes digits).toList = some n ↔ IsHexadecimal n digits ∧ n < bound := by
  constructor
  · intro h
    rw [toList_ofBytes] at h
    unfold hexadecimal? at h
    split at h
    · cases h
    · rename_i hne
      split at h
      · cases h
      · rename_i values hvalues
        simp only at h
        split at h
        · cases h
          rename_i hn
          refine ⟨?_, hn⟩
          obtain ⟨hlt, hchars⟩ := map_digitChar_of_mapM hvalues
          have hvalues_ne : values ≠ [] := by
            rintro rfl
            rw [List.map_nil, eq_comm, List.map_eq_nil_iff] at hchars
            rw [hchars] at hne
            exact hne rfl
          obtain ⟨zeros, hzeros⟩ := ofDigits_eq (by decide) hvalues_ne hlt
          exact ⟨zeros, hchars.symm.trans hzeros⟩
        · cases h
  · rintro ⟨h, hn⟩
    exact h.hexadecimal?_eq hn

end Text

end HttpWire

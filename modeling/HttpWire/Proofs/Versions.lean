import HttpWire.Version

/-!
# Versions are read once and for all

A version may be written with white space around it, in lower case and with leading zeros. Reading
takes all of that away, so that a version that was read is read again as it is written.

- `Version.parts?_eq_some_iff`: the texts from which three parts are read; `Version.parse_eq_ok`:
  what is read of a version.
- `Version.parse_text`: a version that was read is its own reading.
-/

set_option autoImplicit false

namespace HttpWire

/-! ## Characters -/

namespace Text

theorem isSpace_of_ascii {c : Char} (hlow : 32 < c.toNat) (hhigh : c.toNat < 127) :
    isSpace c = false := by
  simp only [isSpace, Bool.or_eq_false_iff, Bool.and_eq_false_iff, decide_eq_false_iff_not,
    beq_eq_false_iff_ne]
  omega

theorem toUpper_eq_self {c : Char} (h : ¬(97 ≤ c.toNat ∧ c.toNat ≤ 122)) : c.toUpper = c := by
  unfold Char.toUpper
  rw [dif_neg]
  rw [UInt32.le_iff_toNat_le, UInt32.le_iff_toNat_le]
  exact h

theorem toNat_toUpper {c : Char} (h : 97 ≤ c.toNat ∧ c.toNat ≤ 122) :
    c.toUpper.toNat = c.toNat - 32 := by
  have hlower : 'a'.val ≤ c.val ∧ c.val ≤ 'z'.val := by
    rw [UInt32.le_iff_toNat_le, UInt32.le_iff_toNat_le]
    exact h
  unfold Char.toUpper
  rw [dif_pos hlower]
  change (c.val + ('A'.val - 'a'.val)).toNat = c.val.toNat - 32
  have hshift : ('A'.val - 'a'.val).toNat = 2 ^ 32 - 32 := rfl
  have hc : 97 ≤ c.val.toNat ∧ c.val.toNat ≤ 122 := h
  rw [UInt32.toNat_add, hshift]
  omega

theorem toUpper_toUpper (c : Char) : c.toUpper.toUpper = c.toUpper := by
  by_cases h : 97 ≤ c.toNat ∧ c.toNat ≤ 122
  · have hupper := toNat_toUpper h
    exact toUpper_eq_self (by omega)
  · rw [toUpper_eq_self h, toUpper_eq_self h]

theorem isSpace_toUpper (c : Char) : isSpace c.toUpper = isSpace c := by
  by_cases h : 97 ≤ c.toNat ∧ c.toNat ≤ 122
  · have hupper := toNat_toUpper h
    rw [isSpace_of_ascii (by omega) (by omega), isSpace_of_ascii (by omega) (by omega)]
  · rw [toUpper_eq_self h]

theorem toNat_toUpper_le (c : Char) : c.toUpper.toNat ≤ c.toNat := by
  by_cases h : 97 ≤ c.toNat ∧ c.toNat ≤ 122
  · rw [toNat_toUpper h]
    exact Nat.sub_le _ _
  · exact Nat.le_of_eq (by rw [toUpper_eq_self h])

theorem toNat_of_isDigit {c : Char} (h : c.isDigit = true) : 48 ≤ c.toNat ∧ c.toNat ≤ 57 := by
  simp only [Char.isDigit, Bool.and_eq_true, decide_eq_true_eq, UInt32.le_iff_toNat_le] at h
  exact h

theorem isDigit_of_mem_decimal {n : Nat} {c : Char} (h : c ∈ (decimal n).toList) :
    c.isDigit = true := by
  rw [decimal, String.toList_ofList] at h
  exact Nat.isDigit_of_mem_toDigits (by decide) (by decide) h

theorem lt_of_decimal? {bound n : Nat} {digits : List Char} (h : decimal? bound digits = some n) :
    n < bound := by
  simp only [decimal?] at h
  split at h
  · cases h
  · split at h
    · cases h
      assumption
    · cases h

end Text

namespace Version

open Text

/-! ## Parts -/

theorem splitFirst_eq_some_iff {mark : Char} {cs before after : List Char} :
    splitFirst mark cs = some (before, after) ↔ cs = before ++ mark :: after ∧ mark ∉ before := by
  constructor
  · intro h
    have hsplit := List.takeWhile_append_dropWhile (p := (· != mark)) (l := cs)
    have hhead := List.head?_dropWhile_not (· != mark) cs
    unfold splitFirst at h
    split at h
    · cases h
    · rename_i c rest hdrop
      cases h
      rw [hdrop] at hsplit hhead
      have hc : c = mark := by simpa using hhead
      rw [hc] at hsplit
      refine ⟨hsplit.symm, fun hmem => ?_⟩
      have hne := List.all_eq_true.1 List.all_takeWhile mark hmem
      simp at hne
  · rintro ⟨rfl, hmark⟩
    have hbefore : ∀ c ∈ before, (c != mark) = true := by
      intro c hc
      have hne : c ≠ mark := fun heq => hmark (heq ▸ hc)
      simpa using hne
    simp only [splitFirst, List.dropWhile_append_of_pos hbefore,
      List.takeWhile_append_of_pos hbefore]
    simp

theorem parts?_eq_some_iff {cs : List Char} {protocol : String} {major minor : Nat} :
    parts? cs = some (protocol, major, minor) ↔
      ∃ high low, cs = protocol.toList ++ '/' :: (high ++ '.' :: low) ∧
        '/' ∉ protocol.toList ∧ '.' ∉ high ∧ protocol ≠ "" ∧
        (∀ c ∈ protocol.toList, isForbidden c = false) ∧
        decimal? (bitBound 32) high = some major ∧ decimal? (bitBound 32) low = some minor := by
  constructor
  · intro h
    simp only [parts?, Option.bind_eq_bind, Option.bind_eq_some_iff] at h
    obtain ⟨⟨name, numbers⟩, hname, ⟨high, low⟩, hnumbers, h⟩ := h
    obtain ⟨rfl, hsolidus⟩ := splitFirst_eq_some_iff.1 hname
    obtain ⟨rfl, hpoint⟩ := splitFirst_eq_some_iff.1 hnumbers
    simp only at h
    split at h
    · cases h
    · rename_i hforbidden
      simp only [Bool.or_eq_true, not_or, Bool.not_eq_true, List.any_eq_false,
        List.isEmpty_eq_false_iff] at hforbidden
      simp only [Option.bind_eq_some_iff, Option.pure_def, Option.some.injEq, Prod.mk.injEq] at h
      obtain ⟨major', hmajor, minor', hminor, rfl, rfl, rfl⟩ := h
      refine ⟨high, low, ?_, ?_, hpoint, ?_, ?_, hmajor, hminor⟩
      · rw [String.toList_ofList]
      · rw [String.toList_ofList]
        exact hsolidus
      · intro hempty
        exact hforbidden.1 (String.ofList_eq_empty_iff.1 hempty)
      · intro c hc
        rw [String.toList_ofList] at hc
        simpa using hforbidden.2 c hc
  · rintro ⟨high, low, rfl, hsolidus, hpoint, hne, hforbidden, hmajor, hminor⟩
    have hname : splitFirst '/' (protocol.toList ++ '/' :: (high ++ '.' :: low)) =
        some (protocol.toList, high ++ '.' :: low) :=
      splitFirst_eq_some_iff.2 ⟨rfl, hsolidus⟩
    have hnumbers : splitFirst '.' (high ++ '.' :: low) = some (high, low) :=
      splitFirst_eq_some_iff.2 ⟨rfl, hpoint⟩
    have hallowed : (protocol.toList.isEmpty || protocol.toList.any isForbidden) = false := by
      rw [Bool.or_eq_false_iff, List.isEmpty_eq_false_iff, List.any_eq_false]
      refine ⟨fun hnil => hne (String.toList_eq_nil_iff.1 hnil), ?_⟩
      intro c hc
      rw [hforbidden c hc]
      exact Bool.false_ne_true
    simp only [parts?, hname, hnumbers, hallowed, hmajor, hminor, Option.bind_eq_bind,
      Option.bind_some, Bool.false_eq_true, if_false, Option.pure_def, String.ofList_toList]

/-! ## Readings -/

/-- What is read of a version are its parts, from the text in upper case. -/
theorem parse_eq_ok {raw : String} {version : Version} (h : parse raw = .ok version) :
    ∃ protocol major minor, version = ofParts protocol major minor ∧
      parts? ((trim isSpace raw.toList).map Char.toUpper) = some (protocol, major, minor) := by
  simp only [parse] at h
  split at h
  · cases h
  · split at h
    · cases h
    · rename_i protocol major minor hparts
      cases h
      exact ⟨protocol, major, minor, rfl, hparts⟩

theorem toList_text_ofParts (protocol : String) (major minor : Nat) :
    (ofParts protocol major minor).text.toList =
      protocol.toList ++ '/' :: ((decimal major).toList ++ '.' :: (decimal minor).toList) := by
  have hparts := parts_ofParts protocol major minor
  simp only [Prod.mk.injEq] at hparts
  simp only [text, hparts.1, hparts.2.1, hparts.2.2, String.toList_append, String.reduceToList,
    List.append_assoc, List.cons_append, List.nil_append]

/-- Digits and the marks between the parts are visible ASCII characters, and none of them is a
lower-case letter. -/
theorem range_of_mem_numbers {major minor : Nat} {c : Char}
    (h : c ∈ '/' :: ((decimal major).toList ++ '.' :: (decimal minor).toList)) :
    46 ≤ c.toNat ∧ c.toNat ≤ 57 := by
  rw [List.mem_cons, List.mem_append, List.mem_cons] at h
  rcases h with rfl | hmajor | rfl | hminor
  · decide
  · have hdigit := toNat_of_isDigit (isDigit_of_mem_decimal hmajor)
    omega
  · decide
  · have hdigit := toNat_of_isDigit (isDigit_of_mem_decimal hminor)
    omega

/-- What is written of a version has no white space at its ends: the protocol begins where a text
begun that was trimmed, and the last number ends on a digit. -/
theorem trim_text {raw : String} {version : Version} (h : parse raw = .ok version) :
    trim isSpace version.text.toList = version.text.toList := by
  obtain ⟨protocol, major, minor, rfl, hparts⟩ := parse_eq_ok h
  obtain ⟨high, low, hcs, -, -, hne, -⟩ := parts?_eq_some_iff.1 hparts
  rw [toList_text_ofParts]
  refine trim_of_ends ?_ ?_
  · obtain ⟨hfirst, -⟩ := trim_ends isSpace raw.toList
    obtain ⟨c, rest, hprotocol⟩ :=
      List.exists_cons_of_ne_nil fun hnil => hne (String.toList_eq_nil_iff.1 hnil)
    rw [hprotocol] at hcs ⊢
    cases htrim : trim isSpace raw.toList with
    | nil =>
        rw [htrim] at hcs
        cases hcs
    | cons d later =>
        rw [htrim] at hcs hfirst
        simp only [List.map_cons, List.cons_append, List.cons.injEq] at hcs
        simp only [List.cons_append, List.head?_cons, Option.mem_def, Option.some.injEq,
          forall_eq']
        rw [← hcs.1, isSpace_toUpper]
        exact hfirst d rfl
  · intro c hc
    rw [List.getLast?_append, List.getLast?_cons, Option.some_or, ← List.getLast?_cons] at hc
    have hrange := range_of_mem_numbers (List.mem_of_getLast? hc)
    exact isSpace_of_ascii (by omega) (by omega)

theorem parse_text {raw : String} {version : Version} (h : parse raw = .ok version) :
    parse version.text = .ok version := by
  have htrim := trim_text h
  obtain ⟨protocol, major, minor, rfl, hparts⟩ := parse_eq_ok h
  obtain ⟨high, low, hcs, hsolidus, hpoint, hne, hforbidden, hmajor, hminor⟩ :=
    parts?_eq_some_iff.1 hparts
  have hupper : (ofParts protocol major minor).text.toList.map Char.toUpper =
      (ofParts protocol major minor).text.toList := by
    conv => rhs; rw [← List.map_id (ofParts protocol major minor).text.toList]
    refine List.map_congr_left fun c hc => ?_
    rw [toList_text_ofParts, List.mem_append] at hc
    rcases hc with hprotocol | hnumbers
    · have hmem : c ∈ (trim isSpace raw.toList).map Char.toUpper := by
        rw [hcs]
        exact List.mem_append_left _ hprotocol
      obtain ⟨d, -, rfl⟩ := List.mem_map.1 hmem
      exact toUpper_toUpper d
    · have hrange := range_of_mem_numbers hnumbers
      exact toUpper_eq_self (by omega)
  have hpoint' : '.' ∉ (decimal major).toList := by
    intro hmem
    have hdigit := toNat_of_isDigit (isDigit_of_mem_decimal hmem)
    exact absurd hdigit.1 (by decide)
  have hread : parts? (ofParts protocol major minor).text.toList = some (protocol, major, minor) :=
    parts?_eq_some_iff.2 ⟨(decimal major).toList, (decimal minor).toList, toList_text_ofParts _ _ _,
      hsolidus, hpoint', hne, hforbidden, decimal?_decimal (lt_of_decimal? hmajor),
      decimal?_decimal (lt_of_decimal? hminor)⟩
  have hnonempty : (ofParts protocol major minor).text.toList.isEmpty = false := by
    rw [toList_text_ofParts]
    simp
  simp only [parse, htrim, hupper, hnonempty, Bool.false_eq_true, if_false, hread]

end Version

end HttpWire

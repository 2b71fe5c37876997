import Mathlib.Logic.Relation
import HttpWire.Proofs.ListFields
import HttpWire.Proofs.VersionGrammar

/-!
# One version, many spellings

A peer may write a version in letters of either case, with white space around it and with zeros in front
of its numbers. All spellings are read as one version, which is written in one way, so that no spelling
hides one of the two versions of HTTP/1.x from a rule that asks for it.

- `Version.Respelled`: one way to write a version differently; `Version.SameSpelling`: any number of them.
- `Version.Respelled.spelled_iff`: it keeps the parts that are spelled; `Version.SameSpelling.parse_iff`:
  the version that is read.
- `Version.recognise_eq_parse`: the two usual versions may be looked up before anything is taken apart.
- `Version.parse_stable`: writing a version, the two of HTTP/1.x, and other spellings.
-/

set_option autoImplicit false

namespace HttpWire

open Text

/-! ## Zeros in front of a number -/

namespace Text

theorem isDecimal_zeros_iff {n : Nat} {cs : List Char} (zeros : Nat) (hne : cs ≠ []) :
    IsDecimal n (List.replicate zeros '0' ++ cs) ↔ IsDecimal n cs := by
  have hmore : ∀ {m : Nat}, IsDecimal m cs → IsDecimal m (List.replicate zeros '0' ++ cs) := by
    rintro m ⟨others, rfl⟩
    refine ⟨zeros + others, ?_⟩
    rw [← List.append_assoc, List.replicate_append_replicate]
  constructor
  · intro h
    have hdigits : IsDecimal (Nat.ofDigitChars 10 cs 0) cs :=
      isDecimal_ofDigitChars hne fun c hc => h.isDigit_of_mem (List.mem_append_right _ hc)
    have heq : Nat.ofDigitChars 10 cs 0 = n :=
      (hmore hdigits).ofDigitChars_eq.symm.trans h.ofDigitChars_eq
    rw [heq] at hdigits
    exact hdigits
  · exact hmore

theorem trim_append_cons {α : Type} {p : α → Bool} {x : α} (hx : p x = false) (xs ys : List α) :
    trim p (xs ++ x :: ys) = xs.dropWhile p ++ dropTrailing p (x :: ys) := by
  rw [← dropWhile_dropTrailing, dropTrailing_append_of_ne_nil _ (dropTrailing_cons_ne_nil _ hx)]
  obtain ⟨y, rest, hrest⟩ := List.exists_cons_of_ne_nil (dropTrailing_cons_ne_nil ys hx)
  obtain ⟨rfl, -⟩ := List.cons_prefix_cons.1 (hrest ▸ dropTrailing_isPrefix p (x :: ys))
  rw [hrest, List.dropWhile_append]
  split
  · rename_i hall
    rw [List.isEmpty_iff.1 hall, List.dropWhile_cons_of_neg (by simp [hx]), List.nil_append]
  · rfl

end Text

namespace Version

variable {raw other : String} {protocol : String} {major minor : Nat} {version : Version}

/-! ## Other spellings -/

/-- One way to write a version differently. -/
inductive Respelled : String → String → Prop
  /-- Letters are in another case. -/
  | recased {raw other : String}
      (h : other.toList.map Char.toUpper = raw.toList.map Char.toUpper) : Respelled raw other
  /-- White space stands around it. -/
  | spaced {raw : String} {before after : List Char} (hbefore : ∀ c ∈ before, isSpace c = true)
      (hafter : ∀ c ∈ after, isSpace c = true) :
      Respelled raw (String.ofList (before ++ (raw.toList ++ after)))
  /-- Zeros stand in front of its numbers, each of which begins with a digit. -/
  | padded {before high low : List Char} {first second : Char} (zeros zeros' : Nat)
      (hsolidus : '/' ∉ before) (hpoint : '.' ∉ high) (hfirst : first.isDigit = true)
      (hsecond : second.isDigit = true) :
      Respelled (String.ofList (before ++ '/' :: (first :: high ++ '.' :: (second :: low))))
        (String.ofList (before ++ '/' :: (List.replicate zeros '0' ++ (first :: high) ++
          '.' :: (List.replicate zeros' '0' ++ (second :: low)))))

/-- The same version in other spellings: any number of ways to write it differently, each taken forwards
or backwards. -/
def SameSpelling : String → String → Prop :=
  Relation.EqvGen Respelled

/-- Upper case and the white space around a text may be taken in either order. -/
theorem letters_eq (raw : String) : letters raw = trim isSpace (raw.toList.map Char.toUpper) := by
  rw [letters, trim_map isSpace_toUpper]

theorem spellNumbers_iff {high low : List Char} (hpoint : '.' ∉ high) :
    SpellNumbers (high ++ '.' :: low) major minor ↔
      (IsDecimal major high ∧ major < bitBound 32) ∧ IsDecimal minor low ∧ minor < bitBound 32 := by
  constructor
  · rintro ⟨high', low', hcs, hmajor, hminor⟩
    obtain ⟨rfl, rfl⟩ := split_unique hpoint (hmajor.1.not_mem rfl) hcs
    exact ⟨hmajor, hminor⟩
  · rintro ⟨hmajor, hminor⟩
    exact ⟨high, low, rfl, hmajor, hminor⟩

/-- A mark is no letter, so it stands in upper case where it stood. -/
theorem not_mem_map_toUpper {mark : Char} {cs : List Char} (hmark : mark.toNat < 65) (h : mark ∉ cs) :
    mark ∉ cs.map Char.toUpper := by
  intro hmem
  obtain ⟨c, hc, rfl⟩ := List.mem_map.1 hmem
  by_cases hlower : 97 ≤ c.toNat ∧ c.toNat ≤ 122
  · rw [toNat_toUpper hlower] at hmark
    omega
  · rw [toUpper_eq_self hlower] at h
    exact h hc

/-- A text with a solidus and a point behind it spells what stands before, between and behind these marks,
if something other than white space stands behind. -/
theorem spelled_letters_iff {before high low : List Char} (hsolidus : '/' ∉ before) (hpoint : '.' ∉ high)
    (hlow : dropTrailing isSpace (low.map Char.toUpper) ≠ []) :
    Spelled (letters (String.ofList (before ++ '/' :: (high ++ '.' :: low)))) protocol major minor ↔
      (before.map Char.toUpper).dropWhile isSpace = protocol.toList ∧ protocol ≠ "" ∧
        (∀ c ∈ protocol.toList, 32 < c.toNat ∧ c.toNat ≠ 127) ∧
        (IsDecimal major (high.map Char.toUpper) ∧ major < bitBound 32) ∧
        IsDecimal minor (dropTrailing isSpace (low.map Char.toUpper)) ∧ minor < bitBound 32 := by
  -- the marks stay where they are: neither is a letter or white space
  have hletters : letters (String.ofList (before ++ '/' :: (high ++ '.' :: low))) =
      (before.map Char.toUpper).dropWhile isSpace ++
        '/' :: (high.map Char.toUpper ++ '.' :: dropTrailing isSpace (low.map Char.toUpper)) := by
    have hbehind : '/' :: (high.map Char.toUpper ++ '.' :: low.map Char.toUpper) =
        ('/' :: (high.map Char.toUpper ++ ['.'])) ++ low.map Char.toUpper := by simp
    rw [letters_eq, String.toList_ofList, List.map_append, List.map_cons, List.map_append, List.map_cons,
      show '/'.toUpper = '/' from rfl, show '.'.toUpper = '.' from rfl, trim_append_cons rfl, hbehind,
      dropTrailing_append_of_ne_nil _ hlow]
    simp
  have hsolidus' : '/' ∉ (before.map Char.toUpper).dropWhile isSpace := by
    intro hmem
    exact not_mem_map_toUpper (by decide) hsolidus ((List.dropWhile_suffix _).subset hmem)
  rw [hletters, Version.spelled_iff hsolidus', spellNumbers_iff (not_mem_map_toUpper (by decide) hpoint)]

theorem letters_spaced {before after : List Char} (hbefore : ∀ c ∈ before, isSpace c = true)
    (hafter : ∀ c ∈ after, isSpace c = true) :
    letters (String.ofList (before ++ (raw.toList ++ after))) = letters raw := by
  rw [letters, letters, String.toList_ofList, trim_append_of_pos hbefore, ← dropWhile_dropTrailing,
    dropTrailing_append_of_pos _ hafter, dropWhile_dropTrailing]

theorem map_toUpper_zeros (zeros : Nat) :
    (List.replicate zeros '0').map Char.toUpper = List.replicate zeros '0' := by
  rw [List.map_replicate]
  rfl

/-- Zeros in front of the numbers change no part that is spelled. -/
theorem spelled_padded_iff {before high low : List Char} {first second : Char} (zeros zeros' : Nat)
    (hsolidus : '/' ∉ before) (hpoint : '.' ∉ high) (hfirst : first.isDigit = true)
    (hsecond : second.isDigit = true) :
    Spelled (letters (String.ofList (before ++ '/' :: (List.replicate zeros '0' ++ (first :: high) ++
        '.' :: (List.replicate zeros' '0' ++ (second :: low)))))) protocol major minor ↔
      Spelled (letters (String.ofList (before ++ '/' :: (first :: high ++ '.' :: (second :: low)))))
        protocol major minor := by
  have hdigit := toNat_of_isDigit hsecond
  have hlow : dropTrailing isSpace ((second :: low).map Char.toUpper) ≠ [] := by
    rw [List.map_cons, toUpper_eq_self (by omega)]
    exact dropTrailing_cons_ne_nil _ (isSpace_of_ascii (by omega) (by omega))
  have hlow' : dropTrailing isSpace ((List.replicate zeros' '0' ++ second :: low).map Char.toUpper) =
      List.replicate zeros' '0' ++ dropTrailing isSpace ((second :: low).map Char.toUpper) := by
    rw [List.map_append, map_toUpper_zeros, dropTrailing_append_of_ne_nil _ hlow]
  have hhigh : '.' ∉ first :: high := by
    rw [List.mem_cons, not_or]
    refine ⟨?_, hpoint⟩
    rintro rfl
    cases hfirst
  have hhigh' : '.' ∉ List.replicate zeros '0' ++ first :: high := by
    rw [List.mem_append, not_or]
    exact ⟨fun hmem => absurd (List.eq_of_mem_replicate hmem) (by decide), hhigh⟩
  rw [spelled_letters_iff hsolidus hhigh hlow, spelled_letters_iff hsolidus hhigh', hlow',
    List.map_append, map_toUpper_zeros, isDecimal_zeros_iff _ (by simp), isDecimal_zeros_iff _ hlow]
  rw [hlow']
  exact List.append_ne_nil_of_right_ne_nil _ hlow

theorem Respelled.spelled_iff (h : Respelled raw other) :
    Spelled (letters other) protocol major minor ↔ Spelled (letters raw) protocol major minor := by
  cases h with
  | recased h => rw [letters_eq, letters_eq, h]
  | spaced hbefore hafter => rw [letters_spaced hbefore hafter]
  | padded zeros zeros' hsolidus hpoint hfirst hsecond =>
      exact spelled_padded_iff zeros zeros' hsolidus hpoint hfirst hsecond

theorem SameSpelling.parse_iff (h : SameSpelling raw other) :
    parse other = .ok version ↔ parse raw = .ok version := by
  rw [parse_eq_ok_iff, parse_eq_ok_iff]
  apply and_congr_left'
  -- by the number of ways to write it differently
  induction h with
  | rel raw other hstep => exact hstep.spelled_iff
  | refl raw => exact Iff.rfl
  | symm raw other _ ih => exact ih.symm
  | trans raw between other _ _ ih ih' => exact ih'.trans ih

/-! ## The two versions of HTTP/1.x -/

/-- Reads a version, the two of HTTP/1.x by their exact form alone. -/
def recognise (raw : String) : Except Fault Version :=
  if raw = "HTTP/1.1" then .ok .http11
  else if raw = "HTTP/1.0" then .ok .http10
  else parse raw

/-- Looking up the two versions first makes no difference. -/
theorem recognise_eq_parse (raw : String) : recognise raw = parse raw := by
  unfold recognise
  split
  · rename_i heleven
    rw [heleven]
    decide +kernel
  · split
    · rename_i hten
      rw [hten]
      decide +kernel
    · rfl

/-- Of the versions that are read, the two of HTTP/1.x are those that are written as these. -/
theorem eq_http_iff_text (h : parse raw = .ok version) :
    (version = .http10 ↔ version.text = "HTTP/1.0") ∧
      (version = .http11 ↔ version.text = "HTTP/1.1") := by
  have htext := parse_text h
  have hten : parse "HTTP/1.0" = .ok .http10 := by decide +kernel
  have heleven : parse "HTTP/1.1" = .ok .http11 := by decide +kernel
  refine ⟨⟨?_, ?_⟩, ⟨?_, ?_⟩⟩
  · rintro rfl
    decide +kernel
  · intro hform
    rw [hform, hten] at htext
    cases htext
    rfl
  · rintro rfl
    decide +kernel
  · intro hform
    rw [hform, heleven] at htext
    cases htext
    rfl

/-- Connections are closed after messages of HTTP/1.0 and kept open after all others. -/
theorem keepsAlive_eq_false_iff : version.keepsAlive = false ↔ version = .http10 := by
  cases version with
  | http10 => simp [keepsAlive]
  | http11 => simp [keepsAlive]
  | other protocol major minor => simp [keepsAlive]

/-- What is read does not depend on how it is spelled.

A version that was read is read again from what is written of it. It is one of the two versions of
HTTP/1.x exactly if it is written as that version, and a connection is closed after its message exactly if
it is written as HTTP/1.0, so no other version passes for one of them. And it is read from every other
spelling, whether or not the two versions are looked up first. -/
theorem parse_stable {raw : String} {version : Version} (h : parse raw = .ok version) :
    parse version.text = .ok version ∧
    (version = .http10 ↔ version.text = "HTTP/1.0") ∧
    (version = .http11 ↔ version.text = "HTTP/1.1") ∧
    (version.keepsAlive = false ↔ version.text = "HTTP/1.0") ∧
    ∀ other, SameSpelling raw other →
      parse other = .ok version ∧ recognise other = .ok version := by
  obtain ⟨hten, heleven⟩ := eq_http_iff_text h
  refine ⟨parse_text h, hten, heleven, keepsAlive_eq_false_iff.trans hten, ?_⟩
  intro other hother
  have hparse : parse other = .ok version := hother.parse_iff.2 h
  refine ⟨hparse, ?_⟩
  rw [recognise_eq_parse]
  exact hparse

/-- Letters in lower case, zeros and white space hide no HTTP/1.1. -/
theorem parse_stable_padded :
    let raw := "\u00a0htTP/01.1 "
    let other := "HTTP/1.000001"
    parse raw = .ok .http11 ∧ SameSpelling raw other ∧
      parse other = .ok .http11 ∧ recognise other = .ok .http11 := by
  intro raw other
  have hraw : parse raw = .ok .http11 := by decide +kernel
  have hsame : SameSpelling raw other := by
    apply Relation.EqvGen.trans _ "htTP/01.1"
    · exact .symm _ _ (.rel _ _ (@Respelled.spaced "htTP/01.1" ['\u00a0'] [' '] (by decide) (by decide)))
    apply Relation.EqvGen.trans _ "htTP/1.000001"
    · apply Relation.EqvGen.trans _ "htTP/1.1"
      · exact .symm _ _ (.rel _ _ (@Respelled.padded "htTP".toList [] [] '1' '1' 1 0 (by decide +kernel)
          (by decide) rfl rfl))
      · exact .rel _ _ (@Respelled.padded "htTP".toList [] [] '1' '1' 0 5 (by decide +kernel)
          (by decide) rfl rfl)
    · exact .rel _ _ (.recased (by decide +kernel))
  obtain ⟨-, -, -, -, hall⟩ := parse_stable hraw
  exact ⟨hraw, hsame, hall other hsame⟩

end Version

end HttpWire

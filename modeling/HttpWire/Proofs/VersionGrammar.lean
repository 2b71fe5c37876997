import HttpWire.Proofs.ListFields
import HttpWire.Proofs.StartLines

/-!
# Which texts are versions

A version is spelled by a protocol, a solidus, and two numbers in ASCII digits with a point between them.
It is read from its text in upper case and without the white space around it; every other text is refused.

The protocol is free of ASCII controls and of the space. It is not free of the other controls, U+0080 to
U+009F, nor of the other white space, such as U+00A0: a method with such a control is refused, a protocol
with one is kept.

- `Version.Spelled`: the characters that spell given parts; `Version.IsCanonical`: the versions that are
  read at all.
- `Version.parse_eq_ok_iff`: the texts from which a version is read.
- `Version.parse_by_grammar`: both answers of the reading.
- `Version.control_in_protocol`: protocols that hold a control or white space beyond ASCII.
-/

set_option autoImplicit false

namespace HttpWire

open Text

theorem Text.split_unique {mark : Char} {before before' after after' : List Char}
    (hbefore : mark ∉ before) (hbefore' : mark ∉ before')
    (h : before ++ mark :: after = before' ++ mark :: after') :
    before = before' ∧ after = after' := by
  have hsplit : Version.splitFirst mark (before ++ mark :: after) = some (before, after) :=
    Version.splitFirst_eq_some_iff.2 ⟨rfl, hbefore⟩
  have hsplit' : Version.splitFirst mark (before ++ mark :: after) = some (before', after') :=
    Version.splitFirst_eq_some_iff.2 ⟨h, hbefore'⟩
  simpa using hsplit.symm.trans hsplit'

theorem Text.IsDecimal.not_mem {n : Nat} {cs : List Char} (h : IsDecimal n cs) {c : Char}
    (hc : c.isDigit = false) : c ∉ cs := by
  intro hmem
  rw [h.isDigit_of_mem hmem] at hc
  cases hc

namespace Version

variable {raw protocol : String} {major minor : Nat} {version : Version} {cs : List Char}

/-! ## Spellings -/

/-- The characters from which a version is read: its text without the white space around it, in upper
case. -/
def letters (raw : String) : List Char :=
  (trim isSpace raw.toList).map Char.toUpper

/-- Characters that spell two numbers below 2^32, each of them in ASCII digits, with a point between
them. -/
def SpellNumbers (cs : List Char) (major minor : Nat) : Prop :=
  ∃ high low, cs = high ++ '.' :: low ∧ (IsDecimal major high ∧ major < bitBound 32) ∧
    IsDecimal minor low ∧ minor < bitBound 32

/-- Characters that spell a protocol and two numbers, with a solidus behind the protocol. The protocol is
not empty and holds no solidus, no ASCII control and no space. -/
inductive Spelled : List Char → String → Nat → Nat → Prop
  | mk {protocol : String} {numbers : List Char} {major minor : Nat} (hprotocol : protocol ≠ "")
      (hsolidus : '/' ∉ protocol.toList)
      (hvisible : ∀ c ∈ protocol.toList, 32 < c.toNat ∧ c.toNat ≠ 127)
      (hnumbers : SpellNumbers numbers major minor) :
      Spelled (protocol.toList ++ '/' :: numbers) protocol major minor

/-- The characters behind the first solidus spell the numbers. -/
theorem spelled_iff {before numbers : List Char} (hbefore : '/' ∉ before) :
    Spelled (before ++ '/' :: numbers) protocol major minor ↔
      before = protocol.toList ∧ protocol ≠ "" ∧
        (∀ c ∈ protocol.toList, 32 < c.toNat ∧ c.toNat ≠ 127) ∧ SpellNumbers numbers major minor := by
  constructor
  · intro h
    generalize hcs : before ++ '/' :: numbers = cs at h
    cases h with
    | mk hprotocol hsolidus hvisible hnumbers =>
        obtain ⟨rfl, rfl⟩ := split_unique hbefore hsolidus hcs
        exact ⟨rfl, hprotocol, hvisible, hnumbers⟩
  · rintro ⟨rfl, hprotocol, hvisible, hnumbers⟩
    exact .mk hprotocol hbefore hvisible hnumbers

theorem isForbidden_eq_false_iff {c : Char} :
    isForbidden c = false ↔ 32 < c.toNat ∧ c.toNat ≠ 127 := by
  rw [isForbidden, Bool.or_eq_false_iff, decide_eq_false_iff_not, Nat.not_le, beq_eq_false_iff_ne]

theorem parts?_eq_some_iff_spelled :
    parts? cs = some (protocol, major, minor) ↔ Spelled cs protocol major minor := by
  rw [parts?_eq_some_iff]
  constructor
  · rintro ⟨high, low, rfl, hsolidus, -, hprotocol, hforbidden, hmajor, hminor⟩
    refine .mk hprotocol hsolidus ?_
      ⟨high, low, rfl, decimal?_eq_some_iff.1 hmajor, decimal?_eq_some_iff.1 hminor⟩
    exact fun c hc => isForbidden_eq_false_iff.1 (hforbidden c hc)
  · rintro ⟨hprotocol, hsolidus, hvisible, high, low, rfl, hmajor, hminor⟩
    -- the first point behind the solidus is the one between the numbers
    have hpoint : '.' ∉ high := hmajor.1.not_mem rfl
    refine ⟨high, low, rfl, hsolidus, hpoint, hprotocol, ?_, decimal?_eq_some_iff.2 hmajor,
      decimal?_eq_some_iff.2 hminor⟩
    exact fun c hc => isForbidden_eq_false_iff.2 (hvisible c hc)

theorem not_spelled_nil : ¬ Spelled [] protocol major minor := by
  intro h
  generalize hcs : ([] : List Char) = cs at h
  cases h with
  | mk => exact List.append_ne_nil_of_right_ne_nil _ (List.cons_ne_nil _ _) hcs.symm

/-! ## Versions in their own form -/

/-- A version that is not one of the two of HTTP/1.x under another form. -/
def IsCanonical (version : Version) : Prop :=
  version ≠ .other "HTTP" 1 0 ∧ version ≠ .other "HTTP" 1 1

theorem isCanonical_ofParts (protocol : String) (major minor : Nat) :
    (ofParts protocol major minor).IsCanonical := by
  unfold ofParts
  split
  · exact ⟨nofun, nofun⟩
  · rename_i hten
    split
    · exact ⟨nofun, nofun⟩
    · rename_i heleven
      constructor
      · rintro ⟨⟩
        exact hten ⟨rfl, rfl, rfl⟩
      · rintro ⟨⟩
        exact heleven ⟨rfl, rfl, rfl⟩

/-- A version in its own form consists of its parts. -/
theorem IsCanonical.ofParts_eq (h : version.IsCanonical) :
    ofParts version.protocol version.major version.minor = version := by
  cases version with
  | http10 => rfl
  | http11 => rfl
  | other protocol major minor =>
      obtain ⟨hten, heleven⟩ := h
      change ofParts protocol major minor = .other protocol major minor
      unfold ofParts
      rw [if_neg, if_neg]
      · rintro ⟨rfl, rfl, rfl⟩
        exact heleven rfl
      · rintro ⟨rfl, rfl, rfl⟩
        exact hten rfl

/-- A version has given parts and its own form exactly if it is assembled from them. -/
theorem eq_ofParts_iff : version = ofParts protocol major minor ↔
    (version.protocol, version.major, version.minor) = (protocol, major, minor) ∧
      version.IsCanonical := by
  constructor
  · rintro rfl
    exact ⟨parts_ofParts protocol major minor, isCanonical_ofParts protocol major minor⟩
  · rintro ⟨hparts, hcanonical⟩
    cases hparts
    exact hcanonical.ofParts_eq.symm

/-! ## Reading by the grammar -/

/-- A version is read exactly from the texts that spell its parts, and in its own form. -/
theorem parse_eq_ok_iff : parse raw = .ok version ↔
    Spelled (letters raw) version.protocol version.major version.minor ∧ version.IsCanonical := by
  rw [← parts?_eq_some_iff_spelled]
  constructor
  · intro h
    obtain ⟨protocol, major, minor, hversion, hparts⟩ := parse_eq_ok h
    obtain ⟨heq, hcanonical⟩ := eq_ofParts_iff.1 hversion
    cases heq
    exact ⟨hparts, hcanonical⟩
  · rintro ⟨hparts, hcanonical⟩
    have hne : (letters raw).isEmpty = false := by
      rw [List.isEmpty_eq_false_iff]
      intro hnil
      rw [hnil, parts?_eq_some_iff_spelled] at hparts
      exact not_spelled_nil hparts
    unfold letters at hparts hne
    simp only [parse, hne, hparts, Bool.false_eq_true, if_false, hcanonical.ofParts_eq]

theorem exists_parse_eq_ok_iff : (∃ version, parse raw = .ok version) ↔
    ∃ protocol major minor, Spelled (letters raw) protocol major minor := by
  constructor
  · rintro ⟨version, hversion⟩
    exact ⟨_, _, _, (parse_eq_ok_iff.1 hversion).1⟩
  · rintro ⟨protocol, major, minor, hspelled⟩
    have hparts := parts_ofParts protocol major minor
    simp only [Prod.mk.injEq] at hparts
    obtain ⟨hprotocol, hmajor, hminor⟩ := hparts
    refine ⟨ofParts protocol major minor, ?_⟩
    apply parse_eq_ok_iff.2
    refine ⟨?_, isCanonical_ofParts protocol major minor⟩
    rw [hprotocol, hmajor, hminor]
    exact hspelled

/-- A text that spells no version is refused, as one without text if nothing but white space is there. -/
theorem parse_of_not_spelled
    (h : ¬ ∃ protocol major minor, Spelled (letters raw) protocol major minor) :
    parse raw = .error (if letters raw = [] then .emptyVersion else .invalidVersion raw) := by
  have hparts : parts? (letters raw) = none := by
    rw [Option.eq_none_iff_forall_ne_some]
    rintro ⟨protocol, major, minor⟩ hsome
    exact h ⟨protocol, major, minor, parts?_eq_some_iff_spelled.1 hsome⟩
  unfold letters at hparts ⊢
  simp only [parse, hparts, List.isEmpty_iff]
  split <;> rfl

/-- A refusal is one of a text that spells no version. -/
theorem parse_eq_error_iff {fault : Fault} : parse raw = .error fault ↔
    (¬ ∃ protocol major minor, Spelled (letters raw) protocol major minor) ∧
      fault = if letters raw = [] then .emptyVersion else .invalidVersion raw := by
  constructor
  · intro hfault
    have hnot : ¬ ∃ protocol major minor, Spelled (letters raw) protocol major minor := by
      intro hspelled
      obtain ⟨version, hversion⟩ := exists_parse_eq_ok_iff.2 hspelled
      rw [hversion] at hfault
      cases hfault
    rw [parse_of_not_spelled hnot] at hfault
    cases hfault
    exact ⟨hnot, rfl⟩
  · rintro ⟨hnot, rfl⟩
    exact parse_of_not_spelled hnot

/-- What is read of a text, for every text.

A version is read exactly if the text, without the white space around it and with ASCII letters in upper
case, is a protocol, a solidus, and two numbers below 2^32 in ASCII digits with a point between them. The
protocol is not empty and holds no solidus, no ASCII control and no space. What is read has these three
parts, and is the version of HTTP/1.x that they spell if they spell one. Every other text is refused as no
version, with the text as it was written if it has any. -/
theorem parse_by_grammar (raw : String) :
    (∀ version, parse raw = .ok version ↔
      Spelled (letters raw) version.protocol version.major version.minor ∧ version.IsCanonical) ∧
    ((∃ version, parse raw = .ok version) ↔
      ∃ protocol major minor, Spelled (letters raw) protocol major minor) ∧
    (∀ fault, parse raw = .error fault ↔
      (¬ ∃ protocol major minor, Spelled (letters raw) protocol major minor) ∧
        fault = if letters raw = [] then .emptyVersion else .invalidVersion raw) :=
  ⟨fun _ => parse_eq_ok_iff, exists_parse_eq_ok_iff, fun _ => parse_eq_error_iff⟩

/-- The solidus and the numbers hold neither a control nor white space. -/
theorem not_mem_numbers {numbers : List Char} {c : Char}
    (h : SpellNumbers numbers major minor) (hc : isControl c = true ∨ isSpace c = true) :
    c ∉ '/' :: numbers := by
  have hvisible : ∀ {d : Char}, 32 < d.toNat → d.toNat < 127 → d ≠ c := by
    rintro d hlow hhigh rfl
    rcases hc with hcontrol | hspace
    · simp only [isControl, Bool.or_eq_true, Bool.and_eq_true, decide_eq_true_eq] at hcontrol
      omega
    · rw [isSpace_of_ascii hlow hhigh] at hspace
      cases hspace
  have hdigits : ∀ {n : Nat} {digits : List Char}, IsDecimal n digits → c ∉ digits := by
    intro n digits hdigits hmem
    have hrange := toNat_of_isDigit (hdigits.isDigit_of_mem hmem)
    exact hvisible (by omega) (by omega) rfl
  obtain ⟨high, low, rfl, ⟨hmajor, -⟩, hminor, -⟩ := h
  rw [List.mem_cons, List.mem_append, List.mem_cons]
  rintro (hsolidus | hhigh | hpoint | hlow)
  · exact hvisible (d := '/') (by decide) (by decide) hsolidus.symm
  · exact hdigits hmajor hhigh
  · exact hvisible (d := '.') (by decide) (by decide) hpoint.symm
  · exact hdigits hminor hlow

/-- A protocol may hold the control U+0085, which is white space as well, and the no-break space. No
reading of these texts as a protocol and two numbers leaves them out of the protocol. A method with the
same control is refused. -/
theorem control_in_protocol :
    parse "A\u0085B/1.1" = .ok (.other "A\u0085B" 1 1) ∧
    parse "A\u00a0B/1.1" = .ok (.other "A\u00a0B" 1 1) ∧
      (∀ protocol numbers major minor, SpellNumbers numbers major minor →
        (letters "A\u0085B/1.1" = protocol ++ '/' :: numbers →
          ∃ c ∈ protocol, isControl c = true ∧ isSpace c = true) ∧
        (letters "A\u00a0B/1.1" = protocol ++ '/' :: numbers →
          ∃ c ∈ protocol, isSpace c = true)) ∧
      StartLine.read .response (toBytes "A\u0085B/1.1 200 OK") =
        .ok (some (.status (.other "A\u0085B" 1 1) 200 "OK")) ∧
      StartLine.read .request (toBytes "A\u0085B / HTTP/1.1") =
        .error (.invalidMethod "A\u0085B") := by
  refine ⟨by decide +kernel, by decide +kernel, ?_, by decide +kernel, by decide +kernel⟩
  intro protocol numbers major minor hnumbers
  -- the second character stands in the protocol, since nothing behind it can be it
  have hsecond : ∀ {raw : String} {c : Char}, letters raw = protocol ++ '/' :: numbers →
      c ∈ letters raw → isSpace c = true → c ∈ protocol := by
    intro raw c hletters hc hspace
    rw [hletters, List.mem_append] at hc
    exact hc.resolve_right (not_mem_numbers hnumbers (.inr hspace))
  constructor
  · intro hletters
    have hmem : '\u0085' ∈ letters "A\u0085B/1.1" := by decide +kernel
    exact ⟨'\u0085', hsecond hletters hmem (by decide), by decide, by decide⟩
  · intro hletters
    have hmem : '\u00a0' ∈ letters "A\u00a0B/1.1" := by decide +kernel
    exact ⟨'\u00a0', hsecond hletters hmem (by decide), by decide⟩

end Version

end HttpWire

import HttpWire.Proofs.Folds.Parts
import HttpWire.Proofs.Numerals

/-!
# The sizes of chunks

A size is meant to be what is left of its line without the extension and without the blanks and
controls around it. `Chunked.sizeText` is that text. The reader does not strip it: it skips spaces and
controls, and takes what comes up to a semicolon, a blank or a control. The two differ in two ways. Text
behind a gap is ignored, where it should spoil the size, and a DEL in front of the digits spoils the
size, where it should be stripped.

- `Chunked.digits_eq`: what the reader takes is the beginning of the stripped text, up to a gap.
- `Chunked.readSize_exact`: the lines that give a size, and the size each of them gives.
- `Chunked.text_after_gap_ignored`: a line of each kind on which the two differ.
-/

set_option autoImplicit false

namespace HttpWire

open Text

namespace Text

variable {α : Type}

/-- It does not matter whether a list is first cut behind or in front if the elements that are dropped
in front do not cut it. -/
theorem takeWhile_dropWhile {p q : α → Bool} (h : ∀ x, p x = true → q x = true) (xs : List α) :
    (xs.dropWhile p).takeWhile q = (xs.takeWhile q).dropWhile p := by
  induction xs with
  | nil => rfl
  | cons x xs ih =>
      cases hp : p x with
      | true =>
          rw [List.dropWhile_cons_of_pos hp, List.takeWhile_cons_of_pos (h x hp),
            List.dropWhile_cons_of_pos hp]
          exact ih
      | false =>
          have hneg : ¬ p x = true := by simp [hp]
          rw [List.dropWhile_cons_of_neg hneg]
          cases hq : q x with
          | true => rw [List.takeWhile_cons_of_pos hq, List.dropWhile_cons_of_neg hneg]
          | false =>
              rw [List.takeWhile_cons_of_neg (by simp [hq])]
              rfl

/-- A larger class drops no more from the front of a list if the smaller one stops outside it. -/
theorem dropWhile_eq_of_head {p q : α → Bool} (h : ∀ x, p x = true → q x = true) {xs : List α}
    (hhead : ∀ x ∈ (xs.dropWhile p).head?, q x = false) : xs.dropWhile q = xs.dropWhile p := by
  have hfront : ∀ x ∈ xs.takeWhile p, q x = true := fun x hx =>
    h x (List.all_eq_true.1 List.all_takeWhile x hx)
  calc xs.dropWhile q
      = (xs.takeWhile p ++ xs.dropWhile p).dropWhile q := by rw [List.takeWhile_append_dropWhile]
    _ = (xs.dropWhile p).dropWhile q := List.dropWhile_append_of_pos hfront
    _ = xs.dropWhile p := dropWhile_of_head hhead

theorem takeWhile_dropTrailing (p : α → Bool) (xs : List α) :
    (dropTrailing p xs).takeWhile (!p ·) = xs.takeWhile (!p ·) := by
  obtain ⟨dropped, hsplit, hdropped⟩ := dropTrailing_split p xs
  have hnone : dropped.takeWhile (!p ·) = [] := by
    cases dropped with
    | nil => rfl
    | cons x dropped =>
        apply List.takeWhile_cons_of_neg
        simp [hdropped x List.mem_cons_self]
  conv_rhs => rw [hsplit, List.takeWhile_append]
  split
  · rename_i hlength
    rw [hnone, List.append_nil]
    exact (List.takeWhile_prefix _).eq_of_length hlength
  · rfl

end Text

namespace Chunked

variable {line : Bytes} {n : Nat}

/-! ## The text of a size -/

/-- The last of the controls, which stands apart from the others, above all visible characters. -/
def del : UInt8 := 127

/-- Whether a byte may surround a size. -/
def isGap (b : UInt8) : Bool :=
  isBlank b || isAsciiControl b

/-- What is left of a line without its extension, and then without the blanks and controls around it. -/
def sizeText (line : Bytes) : Bytes :=
  trim isGap (line.takeWhile (· != semicolon))

theorem isGap_of_le {b : UInt8} (h : b ≤ sp) : isGap b = true ∧ (b != semicolon) = true := by
  have hall := forall_byte (p := fun b => !decide (b ≤ sp) || (isGap b && b != semicolon))
    (by decide +kernel) b
  simpa [h] using hall

/-- The reader skips all that may surround a size, but for one byte. -/
theorem eq_del_of_isGap {b : UInt8} (h : isGap b = true) (hle : ¬ b ≤ sp) : b = del := by
  have hall := forall_byte (p := fun b => !isGap b || decide (b ≤ sp) || b == del)
    (by decide +kernel) b
  simpa [h, hle] using hall

/-- Unless that byte comes first, the reader takes what it should, up to a gap. -/
theorem digits_eq (h : (line.dropWhile (· ≤ sp)).head? ≠ some del) :
    (line.dropWhile (· ≤ sp)).takeWhile (!endsSize ·) = (sizeText line).takeWhile (!isGap ·) := by
  have hends : (!endsSize ·) = fun b => decide ((!isGap b) = true ∧ (b != semicolon) = true) := by
    funext b
    rw [Bool.decide_and, Bool.decide_eq_true, Bool.decide_eq_true, endsSize, isGap, Bool.or_assoc,
      Bool.not_or, Bool.and_comm]
    rfl
  have hcut := takeWhile_dropWhile (p := (· ≤ sp)) (q := (· != semicolon))
    (fun b hb => (isGap_of_le (by simpa using hb)).2) line
  have hhead : ∀ b ∈ ((line.takeWhile (· != semicolon)).dropWhile (· ≤ sp)).head?,
      isGap b = false := by
    intro b hb
    rw [← hcut, List.head?_takeWhile, Option.mem_def, Option.filter_eq_some_iff] at hb
    have hfirst := List.head?_dropWhile_not (fun b : UInt8 => decide (b ≤ sp)) line
    rw [hb.1] at hfirst h
    cases hgap : isGap b with
    | false => rfl
    | true => exact absurd (congrArg some (eq_del_of_isGap hgap (by simpa using hfirst))) h
  calc (line.dropWhile (· ≤ sp)).takeWhile (!endsSize ·)
      = ((line.dropWhile (· ≤ sp)).takeWhile (· != semicolon)).takeWhile (!isGap ·) := by
        rw [hends, List.takeWhile_takeWhile]
    _ = ((line.takeWhile (· != semicolon)).dropWhile (· ≤ sp)).takeWhile (!isGap ·) := by
        rw [hcut]
    _ = ((line.takeWhile (· != semicolon)).dropWhile isGap).takeWhile (!isGap ·) := by
        rw [dropWhile_eq_of_head (fun b hb => (isGap_of_le (by simpa using hb)).1) hhead]
    _ = (sizeText line).takeWhile (!isGap ·) := by
        rw [sizeText, trim, takeWhile_dropTrailing]

/-! ## Reading a size -/

theorem isHexadecimal_takeWhile_iff {text : Bytes} :
    IsHexadecimal n (text.takeWhile (!isGap ·)) ↔
      ∃ digits behind, text = digits ++ behind ∧ IsHexadecimal n digits ∧
        ∀ b ∈ behind.head?, isGap b = true := by
  constructor
  · intro h
    refine ⟨_, _, List.takeWhile_append_dropWhile.symm, h, ?_⟩
    intro b hb
    have hhead := List.head?_dropWhile_not (fun b => !isGap b) text
    rw [Option.mem_def.1 hb] at hhead
    simpa using hhead
  · rintro ⟨digits, behind, rfl, h, hbehind⟩
    have hdigits : ∀ b ∈ digits, (!isGap b) = true := by
      intro b hb
      have hends := (not_endsSize_of_hexDigit? (h.isSome_of_mem b hb)).1
      rw [endsSize, Bool.or_assoc, Bool.or_eq_false_iff] at hends
      rw [isGap, hends.2]
      rfl
    have hnone : behind.takeWhile (!isGap ·) = [] := by
      cases behind with
      | nil => rfl
      | cons b behind =>
          apply List.takeWhile_cons_of_neg
          simp [hbehind b rfl]
    rw [List.takeWhile_append_of_pos hdigits, hnone, List.append_nil]
    exact h

/-- A line gives the number that the bytes taken from it denote, and no number otherwise. -/
theorem readSize_eq_ok_iff : readSize line = .ok n ↔
    IsHexadecimal n ((line.dropWhile (· ≤ sp)).takeWhile (!endsSize ·)) ∧ n < bitBound 64 := by
  rw [← hexadecimal?_eq_some_iff]
  simp only [readSize]
  split
  · rename_i hnone
    simp only [hnone, reduceCtorEq]
  · rename_i size hsome
    rw [hsome, Except.ok.injEq, Option.some.injEq]

/-- A line that begins with a DEL, or with one behind spaces and controls, gives no size. -/
theorem readSize_ne_ok_of_del (h : (line.dropWhile (· ≤ sp)).head? = some del) :
    readSize line ≠ .ok n := by
  intro hok
  obtain ⟨rest, hrest⟩ := List.head?_eq_some_iff.1 h
  have hne := (readSize_eq_ok_iff.1 hok).1.ne_nil
  rw [hrest] at hne
  exact hne (List.takeWhile_cons_of_neg (by decide))

/-- A line gives a size below 2^64 exactly if no DEL comes before the text of the size, and that text
begins with the digits of the size, of either case and with any leading zeros, and nothing but a gap
comes next. What stands behind the gap does not matter. Every other line is refused as a whole. -/
theorem readSize_exact (line : Bytes) :
    (∀ n, readSize line = .ok n ↔
      n < bitBound 64 ∧ (line.dropWhile (· ≤ sp)).head? ≠ some del ∧
        ∃ digits behind, sizeText line = digits ++ behind ∧ IsHexadecimal n digits ∧
          ∀ b ∈ behind.head?, isGap b = true) ∧
      ((∃ n, readSize line = .ok n) ∨
        readSize line = .error (.malformedChunkSize (ofBytes line))) := by
  constructor
  · intro n
    rw [← isHexadecimal_takeWhile_iff]
    -- a DEL in front is the one place where skipping and stripping part
    by_cases hdel : (line.dropWhile (· ≤ sp)).head? = some del
    · exact iff_of_false (readSize_ne_ok_of_del hdel) fun h => h.2.1 hdel
    · rw [readSize_eq_ok_iff, digits_eq hdel]
      exact ⟨fun h => ⟨h.2, hdel, h.1⟩, fun h => ⟨h.2.2, h.1⟩⟩
  · simp only [readSize]
    split
    · exact .inr rfl
    · exact .inl ⟨_, rfl⟩

/-- The text behind the gap makes the first line no number, and yet it gives one; the second line gives
none, although its text is one. -/
theorem text_after_gap_ignored :
    let junk := toBytes "5 junk"
    let padded := del :: toBytes "5"
    readSize junk = .ok 5 ∧ (∀ n, ¬ IsHexadecimal n (sizeText junk)) ∧
      readSize padded = .error (.malformedChunkSize (ofBytes padded)) ∧
      IsHexadecimal 5 (sizeText padded) := by
  intro junk padded
  refine ⟨by decide +kernel, ?_, by decide +kernel, 0, by decide +kernel⟩
  intro n h
  have hblank := h.isSome_of_mem sp (by decide +kernel)
  exact absurd hblank (by decide)

end Chunked

end HttpWire

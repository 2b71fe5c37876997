import HttpWire.FieldBlock

/-!
# What stands at the spans of a field

A field line is split by four searches that each start where the one before stopped. This module
says what the resulting spans hold in terms of the bytes of the line alone, and that their ends
stand in order, so that nothing else has to look at positions.

- `FieldSpans.name_ofLine`, `FieldSpans.value_ofLine`: the bytes of a name and of a value.
- `FieldSpans.InOrder`: the ends of the two spans, in order up to a position; `ofLine_inOrder` and
  `extend_inOrder` say that splitting and extending a field keep them so.
-/

set_option autoImplicit false

namespace HttpWire

open Text

/-! ## Trimming -/

namespace Text

variable {α : Type}

theorem dropTrailing_append_of_ne_nil {p : α → Bool} (xs : List α) {ys : List α}
    (h : dropTrailing p ys ≠ []) : dropTrailing p (xs ++ ys) = xs ++ dropTrailing p ys := by
  unfold dropTrailing at h ⊢
  rw [List.reverse_append, List.dropWhile_append]
  split
  · rename_i hempty
    rw [List.isEmpty_iff] at hempty
    rw [hempty] at h
    exact absurd rfl h
  · rw [List.reverse_append, List.reverse_reverse]

/-- A list that begins outside the class keeps an element when its end is trimmed. -/
theorem dropTrailing_cons_ne_nil {p : α → Bool} {x : α} (xs : List α) (hx : p x = false) :
    dropTrailing p (x :: xs) ≠ [] := by
  unfold dropTrailing
  rw [List.reverse_cons, List.dropWhile_append]
  split
  · simp [hx]
  · simp

end Text

/-! ## Cutting a span in two -/

namespace Span

variable {buffer more : Bytes}

theorem length_bytes_le (span : Span) (buffer : Bytes) :
    (span.bytes buffer).length ≤ span.length :=
  List.length_take_le _ _

theorem bytes_upTo (span : Span) (buffer : Bytes) {n : Nat} (h : n ≤ span.length) :
    (⟨span.start, span.start + n⟩ : Span).bytes buffer = (span.bytes buffer).take n := by
  simp only [bytes, length, List.take_take] at h ⊢
  congr 1
  omega

theorem bytes_from (span : Span) (buffer : Bytes) (n : Nat) :
    (⟨span.start + n, span.stop⟩ : Span).bytes buffer = (span.bytes buffer).drop n := by
  simp only [bytes, length, List.drop_take, List.drop_drop]
  congr 1
  omega

theorem start_le_find (p : UInt8 → Bool) (buffer : Bytes) (span : Span) :
    span.start ≤ find p buffer span :=
  Nat.le_add_right _ _

theorem find_le_stop (p : UInt8 → Bool) (buffer : Bytes) {span : Span}
    (h : span.start ≤ span.stop) : find p buffer span ≤ span.stop := by
  have htake := (List.takeWhile_prefix (l := span.bytes buffer) fun b => !p b).length_le
  have hlen := length_bytes_le span buffer
  simp only [find, length] at hlen ⊢
  omega

theorem bytes_upTo_find (p : UInt8 → Bool) (buffer : Bytes) (span : Span) :
    (⟨span.start, find p buffer span⟩ : Span).bytes buffer =
      (span.bytes buffer).takeWhile fun b => !p b := by
  have htake := List.takeWhile_prefix (l := span.bytes buffer) fun b => !p b
  rw [find, bytes_upTo _ _ (Nat.le_trans htake.length_le (length_bytes_le span buffer))]
  exact (List.prefix_iff_eq_take.1 htake).symm

theorem bytes_from_find (p : UInt8 → Bool) (buffer : Bytes) (span : Span) :
    (⟨find p buffer span, span.stop⟩ : Span).bytes buffer =
      (span.bytes buffer).dropWhile fun b => !p b := by
  have hsplit := List.takeWhile_append_dropWhile (p := fun b => !p b) (l := span.bytes buffer)
  calc (⟨find p buffer span, span.stop⟩ : Span).bytes buffer
      = (span.bytes buffer).drop ((span.bytes buffer).takeWhile fun b => !p b).length := by
        rw [find, bytes_from]
    _ = (span.bytes buffer).dropWhile fun b => !p b := by
        conv => lhs; arg 2; rw [← hsplit]
        exact List.drop_left

theorem bytes_from_text (buffer : Bytes) (span : Span) :
    (⟨find (!isBlank ·) buffer span, span.stop⟩ : Span).bytes buffer =
      (span.bytes buffer).dropWhile isBlank := by
  have hfind := bytes_from_find (!isBlank ·) buffer span
  simp only [Bool.not_not] at hfind
  exact hfind

theorem start_le_textEnd (buffer : Bytes) (span : Span) : span.start ≤ textEnd buffer span :=
  Nat.le_add_right _ _

theorem textEnd_le_stop (buffer : Bytes) (span : Span) (h : span.start ≤ span.stop) :
    textEnd buffer span ≤ span.stop := by
  have hdrop := (dropTrailing_isPrefix isBlank (span.bytes buffer)).length_le
  have hlen := length_bytes_le span buffer
  simp only [textEnd, length] at hlen ⊢
  omega

theorem bytes_upTo_textEnd (buffer : Bytes) (span : Span) :
    (⟨span.start, textEnd buffer span⟩ : Span).bytes buffer =
      dropTrailing isBlank (span.bytes buffer) := by
  have hdrop := dropTrailing_isPrefix isBlank (span.bytes buffer)
  rw [textEnd, bytes_upTo _ _ (Nat.le_trans hdrop.length_le (length_bytes_le span buffer))]
  exact (List.prefix_iff_eq_take.1 hdrop).symm

/-- Where the text of a span ends is where the text of its rest ends, if the rest holds any. -/
theorem textEnd_from {span : Span} {n : Nat} (hle : n ≤ (span.bytes buffer).length)
    (h : dropTrailing isBlank ((span.bytes buffer).drop n) ≠ []) :
    textEnd buffer ⟨span.start + n, span.stop⟩ = textEnd buffer span := by
  have hsplit : dropTrailing isBlank (span.bytes buffer) =
      (span.bytes buffer).take n ++ dropTrailing isBlank ((span.bytes buffer).drop n) := by
    rw [← dropTrailing_append_of_ne_nil _ h, List.take_append_drop]
  simp only [textEnd, bytes_from, hsplit, List.length_append, List.length_take]
  omega

/-- A search for text that stops before the end of a span has found text. -/
theorem bytes_from_find_text (span : Span) (h : span.stop ≤ buffer.length)
    (hfound : find (!isBlank ·) buffer span < span.stop) :
    ∃ b rest, isBlank b = false ∧
      (⟨find (!isBlank ·) buffer span, span.stop⟩ : Span).bytes buffer = b :: rest := by
  have hwithin : (⟨find (!isBlank ·) buffer span, span.stop⟩ : Span).Within buffer :=
    ⟨Nat.le_of_lt hfound, h⟩
  have hlength := length_bytes hwithin
  have hhead := List.head?_dropWhile_not isBlank (span.bytes buffer)
  rw [bytes_from_text] at hlength ⊢
  cases hrest : (span.bytes buffer).dropWhile isBlank with
  | nil =>
      rw [hrest] at hlength
      simp only [length, List.length_nil] at hlength
      omega
  | cons b rest =>
      rw [hrest] at hhead
      exact ⟨b, rest, by simpa using hhead, rfl⟩

/-- Where the text of a span ends is where the text of its rest ends, if the rest begins with
text. -/
theorem textEnd_from_find {span : Span} (h : span.Within buffer) (middle : Nat)
    (hmiddle : span.start ≤ middle)
    (hfound : find (!isBlank ·) buffer ⟨middle, span.stop⟩ < span.stop) :
    textEnd buffer span =
      textEnd buffer ⟨find (!isBlank ·) buffer ⟨middle, span.stop⟩, span.stop⟩ := by
  obtain ⟨b, rest, hb, hbytes⟩ := bytes_from_find_text ⟨middle, span.stop⟩ h.2 hfound
  have hstart := start_le_find (!isBlank ·) buffer ⟨middle, span.stop⟩
  generalize find (!isBlank ·) buffer ⟨middle, span.stop⟩ = found at hfound hbytes hstart ⊢
  simp only at hstart
  obtain ⟨n, rfl⟩ : ∃ n, found = span.start + n := ⟨found - span.start, by omega⟩
  have hlength := length_bytes h
  simp only [length] at hlength
  rw [bytes_from] at hbytes
  refine (textEnd_from (by omega) ?_).symm
  rw [hbytes]
  exact dropTrailing_cons_ne_nil rest hb

/-- The text of the rest of a span, if there is any, without the blanks around it. -/
theorem bytes_text {span : Span} (h : span.Within buffer) (middle : Nat)
    (hmiddle : span.start ≤ middle)
    (hfound : find (!isBlank ·) buffer ⟨middle, span.stop⟩ < span.stop) :
    (⟨find (!isBlank ·) buffer ⟨middle, span.stop⟩, textEnd buffer span⟩ : Span).bytes buffer =
      trim isBlank ((⟨middle, span.stop⟩ : Span).bytes buffer) := by
  rw [textEnd_from_find h middle hmiddle hfound, trim, ← bytes_from_text]
  exact bytes_upTo_textEnd buffer _

/-! ## Spans of a longer buffer -/

theorem bytes_append (span : Span) (h : span.stop ≤ buffer.length) (more : Bytes) :
    span.bytes (buffer ++ more) = span.bytes buffer := by
  by_cases hstart : span.start ≤ buffer.length
  · rw [bytes, List.drop_append_of_le_length hstart, List.take_append_of_le_length, bytes]
    simp only [length, List.length_drop]
    omega
  · have hlength : span.length = 0 := by
      simp only [length]
      omega
    simp only [bytes, hlength, List.take_zero]

theorem find_append (p : UInt8 → Bool) (span : Span) (h : span.stop ≤ buffer.length)
    (more : Bytes) : find p (buffer ++ more) span = find p buffer span := by
  simp only [find, bytes_append span h]

theorem textEnd_append (span : Span) (h : span.stop ≤ buffer.length) (more : Bytes) :
    textEnd (buffer ++ more) span = textEnd buffer span := by
  simp only [textEnd, bytes_append span h]

end Span

/-! ## The spans of a field -/

namespace FieldSpans

/-- Whether a byte ends a field name. -/
def endsName (b : UInt8) : Bool :=
  b == colon || isBlank b

/-- The name on a field line. -/
def nameText (text : Bytes) : Bytes :=
  (text.dropWhile isBlank).takeWhile (!endsName ·)

/-- What follows the first colon after the name on a field line. -/
def afterColon (text : Bytes) : Bytes :=
  (((text.dropWhile isBlank).dropWhile (!endsName ·)).dropWhile (!· == colon)).drop 1

section Positions

variable (buffer : Bytes) (line : Line)

/-- Where the name begins. -/
def nameStart : Nat :=
  Span.find (!isBlank ·) buffer line.toSpan

/-- Where the name ends. -/
def nameStop : Nat :=
  Span.find endsName buffer ⟨nameStart buffer line, line.stop⟩

/-- Where the colon stands. -/
def colonAt : Nat :=
  Span.find (· == colon) buffer ⟨nameStop buffer line, line.stop⟩

/-- Where the value may begin. -/
def valueFrom : Nat :=
  min (colonAt buffer line + 1) line.stop

/-- Where the text of the value begins. -/
def valueStart : Nat :=
  Span.find (!isBlank ·) buffer ⟨valueFrom buffer line, line.stop⟩

theorem ofLine_eq : ofLine buffer line =
    { name := ⟨nameStart buffer line, nameStop buffer line⟩
      value :=
        if valueStart buffer line = line.stop then ⟨line.stop, line.stop⟩
        else ⟨valueStart buffer line, Span.textEnd buffer line.toSpan⟩ } := rfl

variable {buffer line}

/-- The five positions stand in order inside the line. -/
theorem positions_le (buffer : Bytes) (h : line.start ≤ line.stop) :
    line.start ≤ nameStart buffer line ∧ nameStart buffer line ≤ nameStop buffer line ∧
      nameStop buffer line ≤ valueFrom buffer line ∧
      valueFrom buffer line ≤ valueStart buffer line ∧ valueStart buffer line ≤ line.stop := by
  have h₁ : nameStart buffer line ≤ line.stop := Span.find_le_stop _ _ h
  have h₂ : nameStop buffer line ≤ line.stop := Span.find_le_stop _ _ h₁
  have h₃ : nameStop buffer line ≤ colonAt buffer line :=
    Span.start_le_find (· == colon) buffer ⟨nameStop buffer line, line.stop⟩
  have h₄ : valueFrom buffer line ≤ line.stop := Nat.min_le_right _ _
  have h₅ : valueFrom buffer line ≤ valueStart buffer line :=
    Span.start_le_find (!isBlank ·) buffer ⟨valueFrom buffer line, line.stop⟩
  refine ⟨Span.start_le_find _ _ _, ?_, ?_, h₅, Span.find_le_stop _ _ h₄⟩
  · exact Span.start_le_find endsName buffer ⟨nameStart buffer line, line.stop⟩
  · simp only [valueFrom]
    omega

theorem bytes_from_nameStart (buffer : Bytes) (line : Line) :
    (⟨nameStart buffer line, line.stop⟩ : Span).bytes buffer =
      (line.bytes buffer).dropWhile isBlank :=
  Span.bytes_from_text buffer line.toSpan

theorem bytes_from_nameStop (buffer : Bytes) (line : Line) :
    (⟨nameStop buffer line, line.stop⟩ : Span).bytes buffer =
      ((line.bytes buffer).dropWhile isBlank).dropWhile (!endsName ·) := by
  rw [← bytes_from_nameStart]
  exact Span.bytes_from_find endsName buffer ⟨nameStart buffer line, line.stop⟩

theorem bytes_from_colonAt (buffer : Bytes) (line : Line) :
    (⟨colonAt buffer line, line.stop⟩ : Span).bytes buffer =
      (((line.bytes buffer).dropWhile isBlank).dropWhile (!endsName ·)).dropWhile
        (!· == colon) := by
  rw [← bytes_from_nameStop]
  exact Span.bytes_from_find (· == colon) buffer ⟨nameStop buffer line, line.stop⟩

theorem bytes_from_valueFrom (buffer : Bytes) (line : Line) :
    (⟨valueFrom buffer line, line.stop⟩ : Span).bytes buffer =
      afterColon (line.bytes buffer) := by
  rw [afterColon, ← bytes_from_colonAt, ← Span.bytes_from ⟨colonAt buffer line, line.stop⟩]
  by_cases hcolon : colonAt buffer line < line.stop
  · rw [valueFrom, Nat.min_eq_left hcolon]
  · have hlength : line.stop - (colonAt buffer line + 1) = 0 := by omega
    rw [valueFrom, Nat.min_eq_right (by omega)]
    simp only [Span.bytes, Span.length, hlength, Nat.sub_self, List.take_zero]

theorem bytes_from_valueStart (buffer : Bytes) (line : Line) :
    (⟨valueStart buffer line, line.stop⟩ : Span).bytes buffer =
      (afterColon (line.bytes buffer)).dropWhile isBlank := by
  rw [← bytes_from_valueFrom]
  exact Span.bytes_from_text buffer ⟨valueFrom buffer line, line.stop⟩

theorem textEnd_line (h : line.Within buffer) (hvalue : valueStart buffer line ≠ line.stop) :
    Span.textEnd buffer line.toSpan =
      Span.textEnd buffer ⟨valueStart buffer line, line.stop⟩ := by
  obtain ⟨h₁, h₂, h₃, h₄, h₅⟩ := positions_le buffer h.1
  exact Span.textEnd_from_find h (valueFrom buffer line) (by omega)
    (Nat.lt_of_le_of_ne h₅ hvalue)

end Positions

theorem name_ofLine (buffer : Bytes) (line : Line) :
    (ofLine buffer line).name.bytes buffer = nameText (line.bytes buffer) := by
  rw [ofLine_eq, nameText, ← bytes_from_nameStart]
  exact Span.bytes_upTo_find endsName buffer ⟨nameStart buffer line, line.stop⟩

theorem value_ofLine {buffer : Bytes} {line : Line} (h : line.Within buffer) :
    (ofLine buffer line).value.bytes buffer = trim isBlank (afterColon (line.bytes buffer)) := by
  obtain ⟨h₁, h₂, h₃, h₄, h₅⟩ := positions_le buffer h.1
  rw [ofLine_eq]
  by_cases hvalue : valueStart buffer line = line.stop
  · rw [trim, ← bytes_from_valueStart]
    simp only [hvalue, if_true, Span.bytes, Span.length, Nat.sub_self, List.take_zero,
      dropTrailing_nil]
  · simp only [if_neg hvalue]
    rw [← bytes_from_valueFrom]
    exact Span.bytes_text h (valueFrom buffer line) (by omega) (Nat.lt_of_le_of_ne h₅ hvalue)

/-! ## The order of the ends -/

/-- The name stands before the value, and the value before a position. -/
structure InOrder (spans : FieldSpans) (position : Nat) : Prop where
  name : spans.name.start ≤ spans.name.stop
  between : spans.name.stop ≤ spans.value.start
  value : spans.value.start ≤ spans.value.stop
  before : spans.value.stop ≤ position

theorem InOrder.mono {spans : FieldSpans} {position later : Nat} (h : spans.InOrder position)
    (hle : position ≤ later) : spans.InOrder later :=
  ⟨h.name, h.between, h.value, Nat.le_trans h.before hle⟩

/-- The spans of a field line stand in order inside the line. -/
theorem ofLine_inOrder {buffer : Bytes} {line : Line} (h : line.Within buffer) :
    (ofLine buffer line).InOrder line.stop := by
  obtain ⟨h₁, h₂, h₃, h₄, h₅⟩ := positions_le buffer h.1
  rw [ofLine_eq]
  by_cases hvalue : valueStart buffer line = line.stop
  · simp only [if_pos hvalue]
    exact ⟨h₂, Nat.le_trans h₃ (Nat.le_trans h₄ h₅), Nat.le_refl _, Nat.le_refl _⟩
  · have hend := textEnd_line h hvalue
    have hstart := Span.start_le_textEnd buffer ⟨valueStart buffer line, line.stop⟩
    have hstop := Span.textEnd_le_stop buffer line.toSpan h.1
    simp only [if_neg hvalue]
    exact ⟨h₂, Nat.le_trans h₃ h₄, by rw [hend]; exact hstart, hstop⟩

theorem extend_inOrder {buffer : Bytes} {line : Line} {spans : FieldSpans}
    (h : line.Within buffer) (hspans : spans.InOrder line.start) :
    (extend buffer spans line).InOrder line.stop := by
  obtain ⟨hname, hbetween, hvalue, hbefore⟩ := hspans
  have hline := h.1
  simp only [extend]
  split
  · split
    · rename_i hfound
      have hstart := Span.start_le_find (!isBlank ·) buffer line.toSpan
      have hend := Span.textEnd_from_find h line.start (Nat.le_refl _) hfound
      have htext := Span.start_le_textEnd buffer
        ⟨Span.find (!isBlank ·) buffer line.toSpan, line.stop⟩
      have hstop := Span.textEnd_le_stop buffer line.toSpan h.1
      refine ⟨hname, ?_, ?_, hstop⟩
      · simp only
        omega
      · rw [hend]
        exact htext
    · exact ⟨hname, hbetween, hvalue, Nat.le_trans hbefore hline⟩
  · have hstart := Span.start_le_textEnd buffer ⟨spans.value.stop, line.stop⟩
    have hstop := Span.textEnd_le_stop buffer ⟨spans.value.stop, line.stop⟩
      (Nat.le_trans hbefore hline)
    exact ⟨hname, hbetween, Nat.le_trans hvalue hstart, hstop⟩

end FieldSpans

end HttpWire

import HttpWire.Proofs.Moves
import HttpWire.Proofs.Spans

/-!
# The line at the front of some bytes

A line is a text without line ends and the mark that ends it. `Line.Front` splits any bytes into the
two and what follows, or finds that the mark is not certain yet; `Line.scan` reads off that split
which of its answers it gives.

- `Line.EndMark`: an end mark, with the bytes that make it certain.
- `Line.front`: all bytes begin in one of two ways.
- `Line.scan_found_front`, `Line.scan_incomplete_front`, `Line.scan_tooLong_front`: each answer of the
  search, in terms of the bytes from the start of the line on.
-/

set_option autoImplicit false

namespace HttpWire.Line

open Text

/-! ## End marks -/

/-- An end mark that is certain in view of the bytes after it. -/
inductive EndMark : Bytes → Bytes → Prop
  | ofLf (rest : Bytes) : EndMark [lf] rest
  | ofCrLf (rest : Bytes) : EndMark [cr, lf] rest
  /-- A CR alone ends a line if another byte than LF has come after it. -/
  | ofCr {c : UInt8} (hc : c ≠ lf) (rest : Bytes) : EndMark [cr] (c :: rest)

namespace EndMark

variable {mark rest : Bytes}

/-- A mark that is certain stays so. -/
theorem append (h : EndMark mark rest) (more : Bytes) : EndMark mark (rest ++ more) := by
  cases h with
  | ofLf => exact .ofLf _
  | ofCrLf => exact .ofCrLf _
  | ofCr hc rest => exact .ofCr hc _

theorem endMark?_eq (h : EndMark mark rest) : endMark? (mark ++ rest) = some mark.length := by
  cases h with
  | ofLf => cases rest <;> rfl
  | ofCrLf => rfl
  | ofCr hc rest => simp [endMark?, hc]

theorem isLineEnd (h : EndMark mark rest) : ∀ b ∈ mark, Text.isLineEnd b = true := by
  cases h with
  | ofLf => simp [Text.isLineEnd]
  | ofCrLf => simp [Text.isLineEnd]
  | ofCr hc rest => simp [Text.isLineEnd]

theorem takeWhile_eq (h : EndMark mark rest) :
    (mark ++ rest).takeWhile (fun b => !Text.isLineEnd b) = [] := by
  cases h <;> rfl

theorem ne_nil (h : EndMark mark rest) : mark ≠ [] := by
  cases h <;> nofun

end EndMark

/-! ## Fronts -/

/-- How bytes begin: with a text that has no end yet, or with a line. -/
inductive Front : Bytes → Prop
  | unended {text tail : Bytes} (htext : ∀ b ∈ text, isLineEnd b = false)
      (htail : tail = [] ∨ tail = [cr]) : Front (text ++ tail)
  | ended {text mark rest : Bytes} (htext : ∀ b ∈ text, isLineEnd b = false)
      (hmark : EndMark mark rest) : Front (text ++ (mark ++ rest))

/-- All bytes begin in one of the two ways. -/
theorem front (bytes : Bytes) : Front bytes := by
  rcases Phase.dropWhile_split (fun b => !isLineEnd b) bytes with
    ⟨-, hall⟩ | ⟨text, b, rest, -, rfl, hall, hb⟩
  · rw [← List.append_nil bytes]
    exact .unended (by simpa using hall) (.inl rfl)
  · have htext : ∀ b ∈ text, isLineEnd b = false := by simpa using hall
    simp only [isLineEnd, Bool.not_eq_eq_eq_not, Bool.not_false, Bool.or_eq_true, beq_iff_eq] at hb
    rcases hb with rfl | rfl
    · -- a CR is told apart by the byte after it
      cases rest with
      | nil => exact .unended htext (.inr rfl)
      | cons c rest =>
          by_cases hc : c = lf
          · subst hc
            exact .ended htext (.ofCrLf rest)
          · exact .ended htext (.ofCr hc rest)
    · exact .ended htext (.ofLf rest)

/-! ## The search for a line -/

variable {limit charged start : Nat} {buffer text tail : Bytes}

theorem scan_text_at (htext : ∀ b ∈ text, isLineEnd b = false)
    (htail : tail.takeWhile (fun b => !isLineEnd b) = []) (hdrop : buffer.drop start = text ++ tail) :
    scan limit charged buffer start =
      if limit < charged + text.length then .tooLong
      else
        match endMark? tail with
        | none => .incomplete
        | some mark => .found ⟨⟨start, start + text.length⟩, start + text.length + mark⟩ := by
  have htake : (text ++ tail).takeWhile (fun b => !isLineEnd b) = text := by
    rw [List.takeWhile_append_of_pos (by simpa using htext), htail, List.append_nil]
  by_cases hlimit : limit < charged + text.length
  · simp only [scan, hdrop, htake, if_pos hlimit]
  · cases hmark : endMark? tail with
    | none => simp only [scan, hdrop, htake, List.drop_left, if_neg hlimit, hmark]
    | some mark => simp only [scan, hdrop, htake, List.drop_left, if_neg hlimit, hmark]

/-- The line at a position from which on a text and a mark stand. -/
def ofText (start : Nat) (text mark : Bytes) : Line :=
  ⟨⟨start, start + text.length⟩, start + text.length + mark.length⟩

theorem scan_unended (htext : ∀ b ∈ text, isLineEnd b = false) (htail : tail = [] ∨ tail = [cr])
    (hdrop : buffer.drop start = text ++ tail) :
    scan limit charged buffer start =
      if limit < charged + text.length then .tooLong else .incomplete := by
  rcases htail with rfl | rfl
  · rw [scan_text_at htext rfl hdrop]
    rfl
  · rw [scan_text_at htext rfl hdrop]
    rfl

theorem scan_ended {mark rest : Bytes} (htext : ∀ b ∈ text, isLineEnd b = false)
    (hmark : EndMark mark rest) (hdrop : buffer.drop start = text ++ (mark ++ rest)) :
    scan limit charged buffer start =
      if limit < charged + text.length then .tooLong else .found (ofText start text mark) := by
  rw [scan_text_at htext hmark.takeWhile_eq hdrop, hmark.endMark?_eq]
  rfl

/-- A line that is found is a text and its mark, within the budget. -/
theorem scan_found_front {line : Line} (h : scan limit charged buffer start = .found line) :
    ∃ text mark rest, buffer.drop start = text ++ (mark ++ rest) ∧
      (∀ b ∈ text, isLineEnd b = false) ∧ EndMark mark rest ∧ line = ofText start text mark ∧
      charged + text.length ≤ limit := by
  generalize hdrop : buffer.drop start = bytes
  cases front bytes with
  | unended htext htail =>
      rw [scan_unended htext htail hdrop] at h
      split at h <;> cases h
  | @ended text mark rest htext hmark =>
      rw [scan_ended htext hmark hdrop] at h
      split at h
      · cases h
      · cases h
        exact ⟨text, mark, rest, rfl, htext, hmark, rfl, Nat.not_lt.1 ‹_›⟩

/-- A line that is incomplete is a text within the budget, with a CR at most after it. -/
theorem scan_incomplete_front (h : scan limit charged buffer start = .incomplete) :
    ∃ text tail, buffer.drop start = text ++ tail ∧ (∀ b ∈ text, isLineEnd b = false) ∧
      (tail = [] ∨ tail = [cr]) ∧ charged + text.length ≤ limit := by
  generalize hdrop : buffer.drop start = bytes
  cases front bytes with
  | @unended text tail htext htail =>
      rw [scan_unended htext htail hdrop] at h
      split at h
      · cases h
      · exact ⟨text, tail, rfl, htext, htail, Nat.not_lt.1 ‹_›⟩
  | ended htext hmark =>
      rw [scan_ended htext hmark hdrop] at h
      split at h <;> cases h

/-- A line that is too long is a text that is over the budget, ended or not. -/
theorem scan_tooLong_front (h : scan limit charged buffer start = .tooLong) :
    ∃ text tail, buffer.drop start = text ++ tail ∧ (∀ b ∈ text, isLineEnd b = false) ∧
      limit < charged + text.length := by
  generalize hdrop : buffer.drop start = bytes
  cases front bytes with
  | @unended text tail htext htail =>
      rw [scan_unended htext htail hdrop] at h
      split at h
      · exact ⟨text, tail, rfl, htext, ‹_›⟩
      · cases h
  | @ended text mark rest htext hmark =>
      rw [scan_ended htext hmark hdrop] at h
      split at h
      · exact ⟨text, mark ++ rest, rfl, htext, ‹_›⟩
      · cases h

theorem scan_of_lt (htext : ∀ b ∈ text, isLineEnd b = false) (hlimit : limit < charged + text.length)
    (hdrop : buffer.drop start = text ++ tail) :
    scan limit charged buffer start = .tooLong := by
  have hle : text.length ≤ ((text ++ tail).takeWhile fun b => !isLineEnd b).length := by
    rw [List.takeWhile_append_of_pos (by simpa using htext), List.length_append]
    exact Nat.le_add_right _ _
  simp only [scan, hdrop]
  rw [if_pos (by omega)]

/-! ## A line inside its buffer -/

section OfText

variable {mark rest : Bytes} (hdrop : buffer.drop start = text ++ (mark ++ rest))

include hdrop

theorem bytes_ofText : (ofText start text mark).bytes buffer = text := by
  simp only [ofText, Span.bytes, Span.length, hdrop, Nat.add_sub_cancel_left, List.take_left]

theorem drop_ofText : buffer.drop (ofText start text mark).next = rest := by
  rw [ofText, Nat.add_assoc, ← List.drop_drop, hdrop, ← List.append_assoc, ← List.length_append,
    List.drop_left]

theorem take_ofText :
    buffer.take (ofText start text mark).next = buffer.take start ++ (text ++ mark) := by
  rw [ofText, Nat.add_assoc, List.take_add, hdrop, ← List.append_assoc, ← List.length_append,
    List.take_left]

end OfText

end HttpWire.Line

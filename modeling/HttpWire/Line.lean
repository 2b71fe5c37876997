import HttpWire.Text.Blank

/-!
# Lines of a growing buffer

Lines end on LF, on CR LF, or on a CR that is followed by anything else. A buffer grows while its
connection is open, so a line is reported only when its end is certain: a CR that is the last byte
so far may still be the first half of CR LF.

- `Span`: a run of positions in a buffer, and the bytes there.
- `Line.scan`: looks for the line that starts at a position, within a budget of bytes.
- `Line.scan_found`: a line that is found lies inside the buffer and makes the position advance.
-/

set_option autoImplicit false

namespace HttpWire

open Text

/-! ## Spans -/

/-- The positions from `start` up to, but without, `stop`. -/
structure Span where
  start : Nat
  stop : Nat
  deriving Repr, DecidableEq

namespace Span

/-- The number of positions. -/
def length (span : Span) : Nat :=
  span.stop - span.start

/-- Whether there is no position. -/
def isEmpty (span : Span) : Bool :=
  span.stop ≤ span.start

/-- The bytes of a buffer at the positions of a span. -/
def bytes (span : Span) (buffer : Bytes) : Bytes :=
  (buffer.drop span.start).take span.length

/-- A span whose ends are in order and inside the buffer. -/
def Within (span : Span) (buffer : Bytes) : Prop :=
  span.start ≤ span.stop ∧ span.stop ≤ buffer.length

/-- The first position of a byte of the class `p`, or the end of the span if there is none. -/
def find (p : UInt8 → Bool) (buffer : Bytes) (span : Span) : Nat :=
  span.start + ((span.bytes buffer).takeWhile fun b => !p b).length

/-- The position after the last byte that is not blank, or the start of the span if all are. -/
def textEnd (buffer : Bytes) (span : Span) : Nat :=
  span.start + (dropTrailing isBlank (span.bytes buffer)).length

theorem length_bytes {span : Span} {buffer : Bytes} (h : span.Within buffer) :
    (span.bytes buffer).length = span.length := by
  obtain ⟨h₁, h₂⟩ := h
  simp only [bytes, List.length_take, List.length_drop, length]
  omega

end Span

/-! ## Lines -/

/-- A line of a buffer: the span of its bytes, and the position after its end mark. -/
structure Line extends Span where
  next : Nat
  deriving Repr, DecidableEq

/-- What the search for a line finds. -/
inductive Line.Scan where
  /-- A line whose end is certain. -/
  | found (line : Line)
  /-- The buffer ends before the line does. -/
  | incomplete
  /-- The line goes over the budget. -/
  | tooLong
  deriving Repr, DecidableEq

namespace Line

/-- The number of bytes in an end mark at the front of a list, if the mark is complete. -/
def endMark? : Bytes → Option Nat
  | [] => none
  -- a CR at the end of the buffer may still be followed by its LF
  | [b] => if b == cr then none else some 1
  | b :: c :: _ => if b == cr && c == lf then some 2 else some 1

/-- Looks for the line that starts at a position. The bytes before the next line end, or before
the end of the buffer, are charged against the limit on top of what was charged before; end marks
are free. -/
def scan (limit charged : Nat) (buffer : Bytes) (start : Nat) : Scan :=
  let tail := buffer.drop start
  let text := tail.takeWhile fun b => !isLineEnd b
  -- a line that is over the budget is refused before its end is seen
  if limit < charged + text.length then .tooLong
  else
    match endMark? (tail.drop text.length) with
    | none => .incomplete
    | some mark =>
        .found { start, stop := start + text.length, next := start + text.length + mark }

theorem endMark?_bounds {bytes : Bytes} {mark : Nat} (h : endMark? bytes = some mark) :
    0 < mark ∧ mark ≤ bytes.length := by
  match bytes with
  | [] => simp [endMark?] at h
  | [b] =>
      simp only [endMark?] at h
      split at h
      · simp at h
      · simp only [Option.some.injEq] at h
        subst h
        exact ⟨by decide, by simp⟩
  | b :: c :: rest =>
      simp only [endMark?] at h
      split at h <;> simp only [Option.some.injEq] at h <;> subst h <;>
        exact ⟨by decide, by simp⟩

/-- A line that is found starts where it was looked for, ends inside the buffer, leaves something
of its own behind the start and keeps to the limit. -/
theorem scan_found {limit charged : Nat} {buffer : Bytes} {start : Nat} {line : Line}
    (h : scan limit charged buffer start = .found line) :
    line.start = start ∧ line.start ≤ line.stop ∧ line.stop < line.next
      ∧ line.next ≤ buffer.length ∧ charged + line.length ≤ limit := by
  simp only [scan] at h
  split at h
  · simp at h
  · rename_i hlimit
    split at h
    · simp at h
    · rename_i mark hmark
      obtain ⟨hpos, hle⟩ := endMark?_bounds hmark
      simp only [Scan.found.injEq] at h
      subst h
      have htake : ((buffer.drop start).takeWhile fun b => !isLineEnd b).length
          ≤ (buffer.drop start).length :=
        (List.takeWhile_prefix _).length_le
      simp only [List.length_drop] at hle htake
      simp only [Span.length]
      refine ⟨trivial, ?_, ?_, ?_, ?_⟩ <;> omega

end Line

end HttpWire

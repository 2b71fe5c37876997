import HttpWire.Proofs.History

/-!
# The ends of an open value

While a field is open, its value is a pair of positions. A line that opens a field trims the value,
and a line that continues it moves the second position only if it brings text. So a value that is
not empty begins and ends on a byte that is not blank, however many lines it has.

- `FieldSpans.Trimmed`: what holds of such a value; `ofLine_trimmed` and `extend_trimmed` say that
  both kinds of lines see to it.
- `Walk.trimmed`: it holds of every field that is open in a history of a connection.
-/

set_option autoImplicit false

namespace HttpWire

open Text

/-! ## Spans -/

theorem Span.bytes_join (buffer : Bytes) {start middle stop : Nat} (h₁ : start ≤ middle)
    (h₂ : middle ≤ stop) :
    (⟨start, stop⟩ : Span).bytes buffer =
      (⟨start, middle⟩ : Span).bytes buffer ++ (⟨middle, stop⟩ : Span).bytes buffer := by
  have hupto := Span.bytes_upTo ⟨start, stop⟩ buffer (show middle - start ≤ stop - start by omega)
  have hfrom := Span.bytes_from ⟨start, stop⟩ buffer (middle - start)
  rw [show (⟨start, stop⟩ : Span).start + (middle - start) = middle from by simp only; omega]
    at hupto hfrom
  rw [hupto, hfrom, List.take_append_drop]

/-! ## Fields -/

namespace FieldSpans

variable {buffer : Bytes} {line : Line} {spans : FieldSpans}

/-- A value that begins and ends on a byte that is not blank, unless it is empty. -/
structure Trimmed (spans : FieldSpans) (buffer : Bytes) : Prop where
  first : ∀ b ∈ (spans.value.bytes buffer).head?, isBlank b = false
  last : ∀ b ∈ (spans.value.bytes buffer).getLast?, isBlank b = false

theorem trimmed_of_bytes {text : Bytes} (h : spans.value.bytes buffer = trim isBlank text) :
    spans.Trimmed buffer := by
  obtain ⟨hfirst, hlast⟩ := trim_ends isBlank text
  rw [← h] at hfirst hlast
  exact ⟨hfirst, hlast⟩

/-- The bytes at the two ends of a value that is not empty. -/
theorem Trimmed.ends (h : spans.Trimmed buffer) (hwithin : spans.value.Within buffer)
    (hlt : spans.value.start < spans.value.stop) :
    (∃ b, buffer[spans.value.start]? = some b ∧ isBlank b = false) ∧
      ∃ b, buffer[spans.value.stop - 1]? = some b ∧ isBlank b = false := by
  have hstop := hwithin.2
  have hget : ∀ {n : Nat}, n < spans.value.length →
      (spans.value.bytes buffer)[n]? = buffer[spans.value.start + n]? := by
    intro n hn
    rw [Span.bytes, List.getElem?_take_of_lt hn, List.getElem?_drop]
  have hlength : spans.value.length = spans.value.stop - spans.value.start := rfl
  constructor
  · have hfirst := h.first
    rw [List.head?_eq_getElem?, hget (by omega), Nat.add_zero,
      List.getElem?_eq_getElem (by omega)] at hfirst
    exact ⟨_, List.getElem?_eq_getElem (by omega), hfirst _ rfl⟩
  · have hlast := h.last
    rw [List.getLast?_eq_getElem?, Span.length_bytes hwithin, hget (by omega),
      show spans.value.start + (spans.value.length - 1) = spans.value.stop - 1 by omega,
      List.getElem?_eq_getElem (by omega)] at hlast
    exact ⟨_, List.getElem?_eq_getElem (by omega), hlast _ rfl⟩

theorem Trimmed.append (h : spans.Trimmed buffer) (hstop : spans.value.stop ≤ buffer.length)
    (more : Bytes) : spans.Trimmed (buffer ++ more) := by
  have hbytes := Span.bytes_append spans.value hstop more
  constructor
  · rw [hbytes]
    exact h.first
  · rw [hbytes]
    exact h.last

theorem ofLine_trimmed (h : line.Within buffer) : (ofLine buffer line).Trimmed buffer :=
  trimmed_of_bytes (value_ofLine h)

theorem extend_trimmed (hline : line.Within buffer) (hspans : spans.InOrder line.start)
    (h : spans.Trimmed buffer) : (extend buffer spans line).Trimmed buffer := by
  simp only [extend]
  split
  · split
    · -- the value is the text of the line
      rename_i hempty hfound
      exact trimmed_of_bytes (Span.bytes_text hline line.start (Nat.le_refl _) hfound)
    · exact h
  · -- the text of the line, if it has any, comes after a value that is not empty
    rename_i hempty
    have hlt : spans.value.start < spans.value.stop := by simpa [Span.isEmpty] using hempty
    have hle := Span.start_le_textEnd buffer ⟨spans.value.stop, line.stop⟩
    have hwithin : spans.value.Within buffer :=
      ⟨hspans.value, Nat.le_trans hspans.before (Nat.le_trans hline.1 hline.2)⟩
    have hlength := Span.length_bytes hwithin
    have hne : spans.value.bytes buffer ≠ [] := by
      intro hnil
      rw [hnil] at hlength
      simp only [Span.length, List.length_nil] at hlength
      omega
    have hjoin := Span.bytes_join buffer hspans.value hle
    have htext := Span.bytes_upTo_textEnd buffer ⟨spans.value.stop, line.stop⟩
    simp only at htext
    rw [htext] at hjoin
    obtain ⟨hfirst, hlast⟩ := h
    constructor
    · intro b hb
      simp only at hb
      rw [hjoin, List.head?_append, List.head?_eq_some_head hne] at hb
      rw [List.head?_eq_some_head hne] at hfirst
      exact hfirst b hb
    · intro b hb
      simp only at hb
      rw [hjoin, List.getLast?_append] at hb
      cases htext : (dropTrailing isBlank
          ((⟨spans.value.stop, line.stop⟩ : Span).bytes buffer)).getLast? with
      | none =>
          rw [htext] at hb
          exact hlast b hb
      | some c =>
          rw [htext] at hb
          cases hb
          exact getLast_dropTrailing isBlank _ b htext

end FieldSpans

/-! ## Blocks -/

namespace FieldBlock

variable {limit : Nat} {strict : Bool} {buffer : Bytes}

/-- A block whose open field has a trimmed value. -/
def Trimmed (block : FieldBlock) (buffer : Bytes) : Prop :=
  ∀ spans ∈ block.pending, spans.Trimmed buffer

theorem trimmed_of_pending_eq_none {block : FieldBlock} (h : block.pending = none)
    (buffer : Bytes) : block.Trimmed buffer := by
  intro spans hspans
  rw [h] at hspans
  cases hspans

/-- Reading keeps the value of an open field trimmed. -/
theorem read_trimmed {block later : FieldBlock} (hwithin : block.Within buffer)
    (h : block.Trimmed buffer)
    (hread : (read limit strict buffer block).2 = .incomplete later) : later.Trimmed buffer := by
  fun_induction read limit strict buffer block with
  | case1 => cases hread
  | case2 block hline =>
      cases hread
      exact h
  | case3 => cases hread
  | case4 => cases hread
  | case5 block line hline charged done spans htake further ih =>
      obtain ⟨hspan, hpending⟩ := hwithin.found hline
      refine ih (hwithin.next hline htake charged) ?_ hread
      rintro spans' ⟨⟩
      apply takeLine_opened htake
      · intro old hold
        exact FieldSpans.extend_trimmed hspan (hpending old hold) (h old hold)
      · exact FieldSpans.ofLine_trimmed hspan

theorem Trimmed.append {block : FieldBlock} (h : block.Trimmed buffer)
    (hwithin : block.Within buffer) (more : Bytes) : block.Trimmed (buffer ++ more) := by
  intro spans hspans
  exact (h spans hspans).append
    (Nat.le_trans (hwithin.pending spans hspans).before hwithin.position) more

end FieldBlock

/-! ## Phases -/

namespace Phase

variable {direction : Direction} {limits : Limits}

/-- A phase whose open field, if it has one, has a trimmed value. -/
def Trimmed : Phase → Bytes → Prop
  | header _ _ block, buffer => block.Trimmed buffer
  | trailer _ _ block, buffer => block.Trimmed buffer
  | idle, _ => True
  | startLine, _ => True
  | fixed _ _ _, _ => True
  | untilClose, _ => True
  | chunkSize _, _ => True
  | chunkData _ _, _ => True
  | chunkEnd _, _ => True
  | refused, _ => True
  | raw, _ => True

theorem trimmed_afterMessage (switches : Bool) (buffer : Bytes) :
    (afterMessage switches).Trimmed buffer := by
  cases switches <;> trivial

theorem Trimmed.append {phase : Phase} {buffer : Bytes} (h : phase.Trimmed buffer)
    (hsound : phase.Sound buffer) (more : Bytes) : phase.Trimmed (buffer ++ more) := by
  cases phase with
  | header first fields block => exact FieldBlock.Trimmed.append h hsound more
  | trailer switches fields block => exact FieldBlock.Trimmed.append h hsound more
  | _ => trivial

theorem Move.trimmed {phase : Phase} {buffer : Bytes} {next : Step}
    (hmove : Move direction limits phase buffer next) (hsound : phase.Sound buffer)
    (h : phase.Trimmed buffer) : next.phase.Trimmed next.rest := by
  cases hmove with
  | started hline hread => exact FieldBlock.trimmed_of_pending_eq_none rfl _
  | headerIncomplete hread => exact FieldBlock.read_trimmed hsound h (congrArg Prod.snd hread)
  | bodiless hread hhead hlength hempty => exact trimmed_afterMessage _ _
  | fixedEnds hdata hnext hremaining => exact trimmed_afterMessage _ _
  | lastChunk hline hsize => exact FieldBlock.trimmed_of_pending_eq_none rfl _
  | trailerIncomplete hread => exact FieldBlock.read_trimmed hsound h (congrArg Prod.snd hread)
  | trailerEnds hread => exact trimmed_afterMessage _ _
  | _ => trivial

end Phase

/-- The value of a field that is open in a walk is trimmed. -/
theorem Walk.trimmed {direction : Direction} {limits : Limits} {input rest : Bytes}
    {record : List Entry} {phase : Phase} (h : Walk direction limits input record phase rest) :
    phase.Trimmed rest := by
  induction h with
  | start => trivial
  | receive walk bytes ih => exact ih.append walk.sound bytes
  | forget walk ih => trivial
  | step walk ih => exact (Phase.step_move direction limits _ _).trimmed walk.sound ih
  | ended walk hclose ih => exact ih
  | closed walk hclose hrest ih => trivial

end HttpWire

import HttpWire.Proofs.Folds.Parts
import HttpWire.Proofs.Rewriting

/-!
# How a block of fields is laid out

The lines of a block fall into groups: each field has a line that opens it, and the lines after it
that begin with a space or a tab continue it. An empty line closes the block. Reading a block gives
the fields of its groups, up to the first one that does not pass the checks.

- `WrittenField`: a group of lines; `WrittenField.field` is the field that is read off it.
- `FieldSpans.Spells`: spans at which the name and the value of a group stand;
  `ofLine_spells` and `extend_spells` say that the two kinds of lines see to it.
- `FieldBlock.Written`: a block and its groups.
- `FieldBlock.Written.read_eq`: what reading a block gives; `FieldBlock.exists_written`: every block
  that is read to its end has groups.
-/

set_option autoImplicit false

namespace HttpWire

open Text

/-! ## Lines one after the other -/

namespace TextLine

/-- Lines with text that stand one after the other before `rest`, each behind a mark that what
follows makes certain. -/
inductive Stand : List TextLine → Bytes → Prop
  | nil {rest : Bytes} : Stand [] rest
  | cons {line : TextLine} {lines : List TextLine} {rest : Bytes}
      (text : ∀ b ∈ line.text, isLineEnd b = false) (ne : line.text ≠ [])
      (mark : Line.EndMark line.mark (lines.flatMap bytes ++ rest)) (later : Stand lines rest) :
      Stand (line :: lines) rest

namespace Stand

variable {lines more : List TextLine} {rest : Bytes}

theorem closed (h : Stand lines rest) : ∀ line ∈ lines, line.Closed := by
  induction h with
  | nil => exact List.forall_mem_nil _
  | cons text ne mark later ih =>
      exact List.forall_mem_cons.2 ⟨⟨text, mark.isLineEnd, mark.ne_nil⟩, ih⟩

/-- Lines that stand in two parts. -/
theorem append_iff : Stand (lines ++ more) rest ↔
    Stand lines (more.flatMap bytes ++ rest) ∧ Stand more rest := by
  induction lines with
  | nil => exact ⟨fun h => ⟨.nil, h⟩, And.right⟩
  | cons line lines ih =>
      have hbytes : (lines ++ more).flatMap bytes ++ rest =
          lines.flatMap bytes ++ (more.flatMap bytes ++ rest) := by
        rw [List.flatMap_append, List.append_assoc]
      constructor
      · intro h
        cases h with
        | cons text ne mark later =>
            obtain ⟨hlines, hmore⟩ := ih.1 later
            exact ⟨.cons text ne (hbytes ▸ mark) hlines, hmore⟩
      · rintro ⟨h, hmore⟩
        cases h with
        | cons text ne mark later =>
            exact .cons text ne (hbytes ▸ mark) (ih.2 ⟨later, hmore⟩)

end Stand

/-- A line of which the mark is free is charged for its text. -/
theorem Closed.weight_bytes {line : TextLine} (h : line.Closed) :
    weight line.bytes = line.text.length := by
  have hmark : weight line.mark = 0 := by
    rw [weight, List.countP_eq_zero]
    intro b hb
    simp [h.mark b hb]
  rw [bytes, weight_append, weight_text h.text, hmark, Nat.add_zero]

end TextLine

/-! ## Fields and their lines -/

/-- A field as it is written: the line that opens it, and the lines that continue it. -/
structure WrittenField where
  opening : TextLine
  folds : List TextLine
  deriving Repr, DecidableEq

namespace WrittenField

/-- The lines of a field. -/
def lines (written : WrittenField) : List TextLine :=
  written.opening :: written.folds

/-- The bytes of a field. -/
def bytes (written : WrittenField) : Bytes :=
  written.lines.flatMap TextLine.bytes

/-- The name on the line that opens a field. -/
def name (written : WrittenField) : Bytes :=
  FieldSpans.nameText written.opening.text

/-- The parts of the value: what follows the colon on the first line, and the text of each line after
it. -/
def parts (written : WrittenField) : List Bytes :=
  FieldSpans.afterColon written.opening.text :: written.folds.map TextLine.text

/-- The value of a field, on one line. -/
def value (written : WrittenField) : Bytes :=
  joinParts written.parts

/-- The field that is read, if it passes the checks. -/
def field (strict : Bool) (written : WrittenField) : Except Fault Field :=
  Field.check strict written.name written.value

/-- A field that one more line continues. -/
def continuedBy (written : WrittenField) (line : TextLine) : WrittenField :=
  { written with folds := written.folds ++ [line] }

/-- The lines of a value: the first one begins after the colon. -/
def valueLines (written : WrittenField) : List TextLine :=
  ⟨FieldSpans.afterColon written.opening.text, written.opening.mark⟩ :: written.folds

/-- The bytes of some fields are those of their lines. -/
theorem flatMap_bytes (written : List WrittenField) :
    written.flatMap bytes = (written.flatMap lines).flatMap TextLine.bytes :=
  List.flatMap_assoc.symm

theorem map_text_valueLines (written : WrittenField) :
    written.valueLines.map TextLine.text = written.parts := rfl

theorem valueLines_continuedBy (written : WrittenField) (line : TextLine) :
    (written.continuedBy line).valueLines.flatMap TextLine.bytes =
      written.valueLines.flatMap TextLine.bytes ++ line.bytes := by
  simp only [valueLines, continuedBy, List.flatMap_cons, List.flatMap_append, List.flatMap_nil,
    List.append_nil, List.append_assoc]

theorem closed_valueLines {written : WrittenField} (h : ∀ line ∈ written.lines, line.Closed) :
    ∀ line ∈ written.valueLines, line.Closed := by
  obtain ⟨hopening, hfolds⟩ := List.forall_mem_cons.1 h
  refine List.forall_mem_cons.2 ⟨⟨?_, hopening.mark, hopening.marked⟩, hfolds⟩
  intro b hb
  have hsuffix := (((List.drop_suffix 1 _).trans (List.dropWhile_suffix (!· == colon))).trans
    (List.dropWhile_suffix (!FieldSpans.endsName ·))).trans
      (List.dropWhile_suffix (l := written.opening.text) isBlank)
  exact hopening.text b (hsuffix.subset hb)

end WrittenField

/-! ## Spans of a written field -/

namespace Span

variable {buffer : Bytes}

/-- A span at which only blanks stand. -/
def Blank (span : Span) (buffer : Bytes) : Prop :=
  ∀ b ∈ span.bytes buffer, isBlank b = true

/-- Two spans of blanks that meet. -/
theorem Blank.join {start middle stop : Nat} (hfront : Blank ⟨start, middle⟩ buffer)
    (hback : Blank ⟨middle, stop⟩ buffer) (h₁ : start ≤ middle) (h₂ : middle ≤ stop) :
    Blank ⟨start, stop⟩ buffer := by
  unfold Blank
  rw [bytes_join buffer h₁ h₂]
  exact List.forall_mem_append.2 ⟨hfront, hback⟩

theorem blank_upTo_text (buffer : Bytes) (span : Span) :
    Blank ⟨span.start, find (!isBlank ·) buffer span⟩ buffer := by
  intro b hb
  rw [bytes_upTo_find] at hb
  simpa using List.all_eq_true.1 List.all_takeWhile b hb

theorem blank_from_textEnd (buffer : Bytes) (span : Span) :
    Blank ⟨textEnd buffer span, span.stop⟩ buffer := by
  obtain ⟨dropped, hsplit, hdropped⟩ := dropTrailing_split isBlank (span.bytes buffer)
  have hleft : (span.bytes buffer).drop (dropTrailing isBlank (span.bytes buffer)).length =
      dropped := by
    conv => lhs; arg 2; rw [hsplit]
    exact List.drop_left
  intro b hb
  rw [textEnd, bytes_from, hleft] at hb
  exact hdropped b hb

end Span

namespace Line

variable {buffer text mark rest : Bytes} {start : Nat}

theorem ofText_within (hdrop : buffer.drop start = text ++ (mark ++ rest)) (hmark : mark ≠ []) :
    (ofText start text mark).Within buffer := by
  have hlength := congrArg List.length hdrop
  have hpos := List.length_pos_iff.2 hmark
  simp only [List.length_drop, List.length_append] at hlength
  refine ⟨Nat.le_add_right _ _, ?_⟩
  simp only [ofText]
  omega

theorem bytes_mark (hdrop : buffer.drop start = text ++ (mark ++ rest)) :
    (⟨(ofText start text mark).stop, (ofText start text mark).next⟩ : Span).bytes buffer =
      mark := by
  simp only [ofText, Span.bytes, Span.length, Nat.add_sub_cancel_left]
  rw [← List.drop_drop, hdrop, List.drop_left, List.take_left]

theorem blank_mark (hdrop : buffer.drop start = text ++ (mark ++ rest))
    (hmark : EndMark mark rest) :
    Span.Blank ⟨(ofText start text mark).stop, (ofText start text mark).next⟩ buffer := by
  intro b hb
  rw [bytes_mark hdrop] at hb
  exact isBlank_of_isLineEnd (hmark.isLineEnd b hb)

theorem bytes_line (hdrop : buffer.drop start = text ++ (mark ++ rest)) :
    (⟨start, (ofText start text mark).next⟩ : Span).bytes buffer = text ++ mark := by
  have hstop : start ≤ (ofText start text mark).stop := Nat.le_add_right _ _
  have hnext : (ofText start text mark).stop ≤ (ofText start text mark).next :=
    Nat.le_add_right _ _
  rw [Span.bytes_join buffer hstop hnext, bytes_mark hdrop]
  exact congrArg (· ++ mark) (bytes_ofText hdrop)

end Line

namespace FieldSpans

/-- Spans at which the name and the value of a written field stand, of which everything up to a
position has been taken. The value begins and ends on text: only blanks stand between the colon and
the value, and between the value and the position. -/
structure Spells (spans : FieldSpans) (written : WrittenField) (buffer : Bytes) (position : Nat) :
    Prop where
  inOrder : spans.InOrder position
  name : spans.name.bytes buffer = written.name
  trimmed : spans.Trimmed buffer
  before : ∃ first, first ≤ spans.value.start ∧
    written.valueLines.flatMap TextLine.bytes = (⟨first, position⟩ : Span).bytes buffer ∧
    Span.Blank ⟨first, spans.value.start⟩ buffer
  after : Span.Blank ⟨spans.value.stop, position⟩ buffer

/-- The field that stands at such spans. -/
theorem Spells.field_eq {spans : FieldSpans} {written : WrittenField} {buffer : Bytes}
    {position : Nat} (h : spans.Spells written buffer position)
    (hclosed : ∀ line ∈ written.lines, line.Closed) (strict : Bool) :
    spans.field strict buffer = written.field strict := by
  obtain ⟨first, hle, hbytes, hlead⟩ := h.before
  have hvalue : trim isBlank (written.valueLines.flatMap TextLine.bytes) =
      spans.value.bytes buffer := by
    rw [hbytes, Span.bytes_join buffer hle (Nat.le_trans h.inOrder.value h.inOrder.before),
      Span.bytes_join buffer h.inOrder.value h.inOrder.before]
    exact trim_between hlead h.after (trim_of_ends h.trimmed.first h.trimmed.last)
  rw [FieldSpans.field, h.name, ← hvalue,
    TextLine.unfold_lines (WrittenField.closed_valueLines hclosed),
    WrittenField.map_text_valueLines]
  rfl

variable {buffer text mark rest : Bytes} {start : Nat}

theorem ofLine_spells (hdrop : buffer.drop start = text ++ (mark ++ rest))
    (hmark : Line.EndMark mark rest) :
    (ofLine buffer (.ofText start text mark)).Spells ⟨⟨text, mark⟩, []⟩ buffer
      (Line.ofText start text mark).next := by
  have hwithin := Line.ofText_within hdrop hmark.ne_nil
  have hbytes := Line.bytes_ofText hdrop
  have hend := Line.bytes_mark hdrop
  have hblank := Line.blank_mark hdrop hmark
  have hnext : (Line.ofText start text mark).stop ≤ (Line.ofText start text mark).next :=
    Nat.le_add_right _ _
  generalize Line.ofText start text mark = line at hwithin hbytes hend hblank hnext ⊢
  obtain ⟨h₁, h₂, h₃, h₄, h₅⟩ := positions_le buffer hwithin.1
  have hstart : (ofLine buffer line).value.start = valueStart buffer line := by
    rw [ofLine_eq]
    split
    · exact Eq.symm ‹_›
    · rfl
  refine ⟨(ofLine_inOrder hwithin).mono hnext, ?_, ofLine_trimmed hwithin,
    ⟨valueFrom buffer line, ?_, ?_, ?_⟩, ?_⟩
  · rw [name_ofLine, hbytes]
    rfl
  · rw [hstart]
    exact h₄
  · rw [Span.bytes_join buffer (Nat.le_trans h₄ h₅) hnext, bytes_from_valueFrom, hbytes, hend]
    simp only [WrittenField.valueLines, List.flatMap_cons, List.flatMap_nil, TextLine.bytes,
      List.append_nil]
  · rw [hstart]
    exact Span.blank_upTo_text buffer ⟨valueFrom buffer line, line.stop⟩
  · rw [ofLine_eq]
    split
    · exact hblank
    · exact (Span.blank_from_textEnd buffer line.toSpan).join hblank
        (Span.textEnd_le_stop buffer line.toSpan hwithin.1) hnext

theorem extend_spells {spans : FieldSpans} {written : WrittenField}
    (h : spans.Spells written buffer start) (hdrop : buffer.drop start = text ++ (mark ++ rest))
    (hmark : Line.EndMark mark rest) :
    (extend buffer spans (.ofText start text mark)).Spells (written.continuedBy ⟨text, mark⟩) buffer
      (Line.ofText start text mark).next := by
  obtain ⟨hinOrder, hname, htrimmed, ⟨first, hle, hlines, hlead⟩, htail⟩ := h
  have hwithin := Line.ofText_within hdrop hmark.ne_nil
  have hwhole := Line.bytes_line hdrop
  have hblank := Line.blank_mark hdrop hmark
  have hstart : (Line.ofText start text mark).start = start := rfl
  have hnext : (Line.ofText start text mark).stop ≤ (Line.ofText start text mark).next :=
    Nat.le_add_right _ _
  generalize Line.ofText start text mark = line at hwithin hwhole hblank hstart hnext ⊢
  subst hstart
  have hline := hwithin.1
  have hcontent : (written.continuedBy ⟨text, mark⟩).valueLines.flatMap TextLine.bytes =
      (⟨first, line.next⟩ : Span).bytes buffer := by
    have hfirst := Nat.le_trans hle (Nat.le_trans hinOrder.value hinOrder.before)
    rw [WrittenField.valueLines_continuedBy, hlines,
      Span.bytes_join buffer hfirst (Nat.le_trans hline hnext), hwhole]
    rfl
  have hblanks : first ≤ (extend buffer spans line).value.start ∧
      Span.Blank ⟨first, (extend buffer spans line).value.start⟩ buffer ∧
      Span.Blank ⟨(extend buffer spans line).value.stop, line.next⟩ buffer := by
    have hempty : spans.value.isEmpty = true → spans.value.stop = spans.value.start := by
      intro h
      exact Nat.le_antisymm (of_decide_eq_true h) hinOrder.value
    have hlead' := Span.blank_upTo_text buffer line.toSpan
    have hfound := Span.start_le_find (!isBlank ·) buffer line.toSpan
    simp only [extend]
    split
    · rename_i hvalue
      have hsame := hempty hvalue
      rw [← hsame] at hle hlead
      split
      · -- the value begins on this line
        refine ⟨Nat.le_trans hle (Nat.le_trans hinOrder.before hfound), ?_, ?_⟩
        · exact hlead.join (htail.join hlead' hinOrder.before hfound) hle
            (Nat.le_trans hinOrder.before hfound)
        · exact (Span.blank_from_textEnd buffer line.toSpan).join hblank
            (Span.textEnd_le_stop buffer line.toSpan hline) hnext
      · -- the line is blank
        rename_i hnone
        have hall : Span.find (!isBlank ·) buffer line.toSpan = line.stop :=
          Nat.le_antisymm (Span.find_le_stop _ _ hline) (Nat.not_lt.1 hnone)
        rw [hall] at hlead'
        refine ⟨hsame ▸ hle, hsame ▸ hlead, ?_⟩
        exact htail.join (hlead'.join hblank hline hnext) hinOrder.before
          (Nat.le_trans hline hnext)
    · -- the value goes on as far as the text of this line does
      have hstop := Nat.le_trans hinOrder.before hline
      exact ⟨hle, hlead, (Span.blank_from_textEnd buffer ⟨spans.value.stop, line.stop⟩).join hblank
        (Span.textEnd_le_stop buffer ⟨spans.value.stop, line.stop⟩ hstop) hnext⟩
  refine ⟨(extend_inOrder hwithin hinOrder).mono hnext, ?_,
    extend_trimmed hwithin hinOrder htrimmed, ⟨first, hblanks.1, hcontent, hblanks.2.1⟩,
    hblanks.2.2⟩
  rw [name_extend]
  exact hname

end FieldSpans

/-! ## Reading line by line -/

namespace FieldBlock

variable {limit : Nat} {strict : Bool} {buffer rest : Bytes} {block : FieldBlock}

/-- A block in which a written field is open, or none. -/
inductive Holds (buffer : Bytes) : FieldBlock → Option WrittenField → Prop
  | outside {charged position : Nat} : Holds buffer ⟨charged, position, none⟩ none
  | inside {charged position : Nat} {spans : FieldSpans} {written : WrittenField}
      (spells : spans.Spells written buffer position)
      (closed : ∀ line ∈ written.lines, line.Closed) :
      Holds buffer ⟨charged, position, some spans⟩ (some written)

/-- A block of which some more bytes have been taken. -/
def behind (block : FieldBlock) (bytes : Bytes) (pending : Option FieldSpans) : FieldBlock :=
  ⟨block.charged + weight bytes, block.position + bytes.length, pending⟩

theorem behind_behind (block : FieldBlock) (xs ys : Bytes) (pending pending' : Option FieldSpans) :
    (block.behind xs pending).behind ys pending' = block.behind (xs ++ ys) pending' := by
  simp only [behind, weight_append, List.length_append, Nat.add_assoc]

theorem drop_behind {bytes : Bytes} (hdrop : buffer.drop block.position = bytes ++ rest)
    (pending : Option FieldSpans) :
    buffer.drop (block.behind bytes pending).position = rest := by
  rw [behind, ← List.drop_drop, hdrop, List.drop_left]

/-- What reading gives if some fields are complete before it: they are handed on, up to one that does
not pass the checks. -/
def handOn (strict : Bool) : List WrittenField → List Field × Outcome → List Field × Outcome
  | [], further => further
  | written :: more, further =>
      match written.field strict with
      | .error cause => ([], .refused cause)
      | .ok field =>
          let later := handOn strict more further
          (field :: later.1, later.2)

theorem handOn_append (strict : Bool) (xs ys : List WrittenField)
    (further : List Field × Outcome) :
    handOn strict (xs ++ ys) further = handOn strict xs (handOn strict ys further) := by
  induction xs with
  | nil => rfl
  | cons written xs ih => rw [List.cons_append, handOn, handOn, ih]

/-- Fields that pass the checks are all handed on. -/
theorem handOn_ok {written : List WrittenField} {fields : List Field}
    (h : written.map (WrittenField.field strict) = fields.map .ok) (further : List Field × Outcome) :
    handOn strict written further = (fields ++ further.1, further.2) := by
  induction written generalizing fields with
  | nil =>
      obtain rfl := List.map_eq_nil_iff.1 h.symm
      rfl
  | cons first written ih =>
      cases fields with
      | nil => cases h
      | cons field fields =>
          obtain ⟨hfirst, hwritten⟩ := List.cons.inj h
          rw [handOn, hfirst, ih hwritten]
          rfl

/-- A block is closed only if all its fields have passed the checks. -/
theorem of_handOn_complete {written : List WrittenField} {fields : List Field}
    {next charged next' charged' : Nat}
    (h : handOn strict written ([], .complete next charged) = (fields, .complete next' charged')) :
    written.map (WrittenField.field strict) = fields.map .ok := by
  induction written generalizing fields with
  | nil =>
      cases h
      rfl
  | cons first written ih =>
      rw [handOn] at h
      split at h
      · cases h
      · rename_i field hfield
        obtain ⟨rfl, houtcome⟩ := Prod.mk.inj h
        rw [List.map_cons, List.map_cons, hfield, ih (Prod.ext rfl houtcome)]

/-- Either all fields pass the checks, or one does not, and nothing behind it is looked at. -/
theorem handOn_cases (strict : Bool) (written : List WrittenField) :
    (∃ fields : List Field, written.map (WrittenField.field strict) = fields.map .ok) ∨
      ∃ fields cause, cause.inField = true ∧
        ∀ further, handOn strict written further = (fields, Outcome.refused cause) := by
  -- by induction on the fields: the first one at fault decides, with those before it handed on
  induction written with
  | nil => exact .inl ⟨[], rfl⟩
  | cons first written ih =>
      cases hfirst : first.field strict with
      | error cause =>
          refine .inr ⟨[], cause, Field.inField_of_check hfirst, ?_⟩
          intro further
          rw [handOn, hfirst]
      | ok field =>
          rcases ih with ⟨fields, hfields⟩ | ⟨fields, cause, hcause, hall⟩
          · refine .inl ⟨field :: fields, ?_⟩
            rw [List.map_cons, List.map_cons, hfirst, hfields]
          · refine .inr ⟨field :: fields, cause, hcause, ?_⟩
            intro further
            rw [handOn, hfirst, hall]

/-- What a line that continues nothing does: it completes the field that is open, and opens another
one unless it is empty. -/
theorem takeLine_opening {pending : Option FieldSpans} {line : Line}
    (h : pending = none ∨ continues buffer line = false) :
    takeLine strict buffer pending line = (pendingField strict buffer pending).map fun done =>
      (done, if line.isEmpty then none else some (.ofLine buffer line)) := by
  cases pending with
  | none => rfl
  | some spans =>
      have hcontinues : continues buffer line = false := h.resolve_left nofun
      simp only [takeLine, hcontinues, Bool.false_eq_true, if_false, pendingField]
      cases spans.field strict buffer with
      | error cause => rfl
      | ok field => rfl

section Lines

variable {line : TextLine} {mark : Bytes} {held : Option WrittenField}

theorem read_line (htext : ∀ b ∈ line.text, isLineEnd b = false)
    (hmark : Line.EndMark line.mark rest)
    (hdrop : buffer.drop block.position = line.text ++ (line.mark ++ rest))
    (hle : block.charged + weight line.bytes ≤ limit) :
    read limit strict buffer block =
      match takeLine strict buffer block.pending
          (.ofText block.position line.text line.mark) with
      | .error cause => ([], .refused cause)
      | .ok (done, none) => (done.toList, .complete (block.position + line.bytes.length)
          (block.charged + weight line.bytes))
      | .ok (done, some spans) =>
          let further := read limit strict buffer (block.behind line.bytes (some spans))
          (done.toList ++ further.1, further.2) := by
  have hclosed : line.Closed := ⟨htext, hmark.isLineEnd, hmark.ne_nil⟩
  rw [hclosed.weight_bytes] at hle
  have hscan : Line.scan limit block.charged buffer block.position =
      .found (.ofText block.position line.text line.mark) := by
    rw [Line.scan_ended htext hmark hdrop, if_neg (Nat.not_lt.2 hle)]
  have hnext : (Line.ofText block.position line.text line.mark).next =
      block.position + line.bytes.length := by
    rw [TextLine.bytes, List.length_append, ← Nat.add_assoc, Line.ofText]
  have hlength : (Line.ofText block.position line.text line.mark).length = line.text.length :=
    Nat.add_sub_cancel_left _ _
  rw [read_found hscan, hnext, hlength, hclosed.weight_bytes]
  rcases takeLine strict buffer block.pending (.ofText block.position line.text line.mark) with
    cause | ⟨done, opened⟩
  · rfl
  · cases opened with
    | none => rfl
    | some spans => simp only [behind, hclosed.weight_bytes]

/-- A line that begins with a space or a tab continues the field that is open. -/
theorem Holds.fold {written : WrittenField} (h : Holds buffer block (some written))
    (htext : ∀ b ∈ line.text, isLineEnd b = false) (hmark : Line.EndMark line.mark rest)
    (hcontinues : line.continues = true)
    (hdrop : buffer.drop block.position = line.bytes ++ rest)
    (hle : block.charged + weight line.bytes ≤ limit) :
    ∃ spans, Holds buffer (block.behind line.bytes (some spans)) (some (written.continuedBy line)) ∧
      read limit strict buffer block =
        read limit strict buffer (block.behind line.bytes (some spans)) := by
  rw [TextLine.bytes, List.append_assoc] at hdrop
  cases h with
  | @inside charged position spans written spells closed =>
      have hfold : continues buffer (.ofText position line.text line.mark) = true := by
        rw [continues, Line.bytes_ofText hdrop]
        exact hcontinues
      refine ⟨spans.extend buffer (.ofText position line.text line.mark), ?_, ?_⟩
      · have hspells := FieldSpans.extend_spells spells hdrop hmark
        rw [Line.ofText, Nat.add_assoc, ← List.length_append] at hspells
        refine .inside hspells ?_
        intro line' hline
        rw [WrittenField.lines, WrittenField.continuedBy, ← List.cons_append, List.mem_append,
          List.mem_singleton] at hline
        rcases hline with hold | rfl
        · exact closed line' hold
        · exact ⟨htext, hmark.isLineEnd, hmark.ne_nil⟩
      · rw [read_line htext hmark hdrop hle]
        simp only [takeLine, hfold, if_true]
        rfl

theorem Holds.pendingField_eq (h : Holds buffer block held) :
    pendingField strict buffer block.pending =
      held.elim (.ok none) fun written => (written.field strict).map some := by
  cases h with
  | outside => rfl
  | inside spells closed =>
      rw [pendingField, spells.field_eq closed]
      rfl

/-- Any other line completes the field that is open. If it is empty it closes the block, and otherwise
it opens another field. -/
theorem Holds.read_other (h : Holds buffer block held)
    (htext : ∀ b ∈ line.text, isLineEnd b = false) (hmark : Line.EndMark line.mark rest)
    (hcontinues : held = none ∨ line.continues = false)
    (hdrop : buffer.drop block.position = line.text ++ (line.mark ++ rest))
    (hle : block.charged + weight line.bytes ≤ limit) :
    read limit strict buffer block = handOn strict held.toList
      (if line.text.isEmpty then ([], .complete (block.position + line.bytes.length)
          (block.charged + weight line.bytes))
        else read limit strict buffer (block.behind line.bytes
          (some (.ofLine buffer (.ofText block.position line.text line.mark))))) := by
  have hopening : block.pending = none ∨
      continues buffer (.ofText block.position line.text line.mark) = false := by
    rw [continues, Line.bytes_ofText hdrop]
    exact hcontinues.imp (fun hnone => by cases h <;> first | rfl | cases hnone) id
  have hempty : (Line.ofText block.position line.text line.mark).isEmpty = line.text.isEmpty :=
    isEmpty_of_length (Nat.add_sub_cancel_left _ _)
  rw [read_line htext hmark hdrop hle, takeLine_opening hopening, h.pendingField_eq, hempty]
  cases held with
  | none => cases line.text.isEmpty <;> rfl
  | some written =>
      simp only [Option.elim_some, Option.toList_some, handOn]
      cases written.field strict with
      | error cause => rfl
      | ok field => cases line.text.isEmpty <;> rfl

theorem Holds.opening (h : Holds buffer block held)
    (htext : ∀ b ∈ line.text, isLineEnd b = false) (hne : line.text ≠ [])
    (hmark : Line.EndMark line.mark rest) (hcontinues : held = none ∨ line.continues = false)
    (hdrop : buffer.drop block.position = line.bytes ++ rest)
    (hle : block.charged + weight line.bytes ≤ limit) :
    ∃ spans, Holds buffer (block.behind line.bytes (some spans)) (some ⟨line, []⟩) ∧
      read limit strict buffer block = handOn strict held.toList
        (read limit strict buffer (block.behind line.bytes (some spans))) := by
  rw [TextLine.bytes, List.append_assoc] at hdrop
  refine ⟨.ofLine buffer (.ofText block.position line.text line.mark), ?_, ?_⟩
  · have hspells := FieldSpans.ofLine_spells hdrop hmark
    rw [Line.ofText, Nat.add_assoc, ← List.length_append] at hspells
    exact .inside hspells (List.forall_mem_singleton.2 ⟨htext, hmark.isLineEnd, hmark.ne_nil⟩)
  · rw [h.read_other htext hmark hcontinues hdrop hle, if_neg]
    simpa using hne

theorem Holds.closing (h : Holds buffer block held) (hmark : Line.EndMark mark rest)
    (hdrop : buffer.drop block.position = mark ++ rest) (hle : block.charged ≤ limit) :
    read limit strict buffer block = handOn strict held.toList
      ([], .complete (block.position + mark.length) block.charged) := by
  have hread := @Holds.read_other limit strict buffer rest block ⟨[], mark⟩ held h nofun hmark
    (.inr rfl) hdrop
  simp only [TextLine.bytes, List.nil_append, hmark.weight_eq, Nat.add_zero, List.isEmpty_nil,
    if_true] at hread
  exact hread hle

/-- Lines that begin with a space or a tab, however many, continue the field that is open. -/
theorem Holds.folds {opening : TextLine} {taken folds : List TextLine}
    (h : Holds buffer block (some ⟨opening, taken⟩)) (hstand : TextLine.Stand folds rest)
    (hcontinues : ∀ line ∈ folds, line.continues = true)
    (hdrop : buffer.drop block.position = folds.flatMap TextLine.bytes ++ rest)
    (hle : block.charged + weight (folds.flatMap TextLine.bytes) ≤ limit) :
    ∃ spans, Holds buffer (block.behind (folds.flatMap TextLine.bytes) (some spans))
        (some ⟨opening, taken ++ folds⟩) ∧
      read limit strict buffer block = read limit strict buffer
        (block.behind (folds.flatMap TextLine.bytes) (some spans)) := by
  induction folds generalizing block taken with
  | nil =>
      rw [List.append_nil]
      cases h with
      | @inside charged position spans _ spells closed => exact ⟨spans, .inside spells closed, rfl⟩
  | cons line folds ih =>
      obtain ⟨hline, hfolds⟩ := List.forall_mem_cons.1 hcontinues
      rw [List.flatMap_cons, weight_append, ← Nat.add_assoc] at hle
      rw [List.flatMap_cons, List.append_assoc] at hdrop
      cases hstand with
      | cons text ne mark later =>
          obtain ⟨spans, hholds, hread⟩ :=
            h.fold text mark hline hdrop (Nat.le_trans (Nat.le_add_right _ _) hle)
          obtain ⟨spans', hholds', hread'⟩ := ih hholds later hfolds (drop_behind hdrop _) hle
          rw [behind_behind] at hholds' hread'
          refine ⟨spans', ?_, hread.trans hread'⟩
          rw [← List.append_cons] at hholds'
          exact hholds'

end Lines

/-! ## Fields one after the other -/

/-- Fields as their lines tell them apart: a line that begins with a space or a tab continues a
field. Only the first line of a block opens a field whatever it begins with. -/
structure Apart (written : List WrittenField) : Prop where
  folds : ∀ field ∈ written, ∀ line ∈ field.folds, line.continues = true
  openings : ∀ field ∈ written.tail, field.opening.continues = false

variable {base : Nat} {written : List WrittenField} {mark : Bytes}

/-- All lines can be told apart in this way. -/
theorem exists_apart (lines : List TextLine) :
    ∃ written : List WrittenField, written.flatMap WrittenField.lines = lines ∧ Apart written := by
  induction lines with
  | nil => exact ⟨[], rfl, List.forall_mem_nil _, List.forall_mem_nil _⟩
  | cons line lines ih =>
      obtain ⟨written, rfl, hfolds, hopenings⟩ := ih
      cases written with
      | nil => exact ⟨[⟨line, []⟩], rfl, by simp, List.forall_mem_nil _⟩
      | cons first written =>
          obtain ⟨hfirst, hothers⟩ := List.forall_mem_cons.1 hfolds
          cases hcontinues : first.opening.continues with
          | true =>
              refine ⟨⟨line, first.lines⟩ :: written, rfl, ?_, hopenings⟩
              exact List.forall_mem_cons.2 ⟨List.forall_mem_cons.2 ⟨hcontinues, hfirst⟩, hothers⟩
          | false =>
              refine ⟨⟨line, []⟩ :: first :: written, rfl, ?_, ?_⟩
              · exact List.forall_mem_cons.2 ⟨List.forall_mem_nil _, hfolds⟩
              · exact List.forall_mem_cons.2 ⟨hcontinues, hopenings⟩

/-- One more field: the one before it is handed on. -/
theorem Holds.field {held : Option WrittenField} {field : WrittenField}
    (h : Holds buffer block held) (hstand : TextLine.Stand field.lines rest)
    (hcontinues : held = none ∨ field.opening.continues = false)
    (hfolds : ∀ line ∈ field.folds, line.continues = true)
    (hdrop : buffer.drop block.position = field.bytes ++ rest)
    (hle : block.charged + weight field.bytes ≤ limit) :
    ∃ spans, Holds buffer (block.behind field.bytes (some spans)) (some field) ∧
      read limit strict buffer block = handOn strict held.toList
        (read limit strict buffer (block.behind field.bytes (some spans))) := by
  have hbytes : field.bytes = field.opening.bytes ++ field.folds.flatMap TextLine.bytes := rfl
  rw [hbytes, List.append_assoc] at hdrop
  rw [hbytes, weight_append, ← Nat.add_assoc] at hle
  cases hstand with
  | cons text ne mark later =>
      obtain ⟨spans, hholds, hread⟩ := @Holds.opening limit strict _ _ _ _ _ h text ne mark hcontinues
        hdrop (Nat.le_trans (Nat.le_add_right _ _) hle)
      obtain ⟨spans', hholds', hread'⟩ :=
        @Holds.folds limit strict _ _ _ _ _ _ hholds later hfolds (drop_behind hdrop _) hle
      rw [behind_behind] at hholds' hread'
      exact ⟨spans', hholds', by rw [hread, hread', ← hbytes]⟩

/-- Reading takes fields one after the other. Each is handed on when the next one is opened, and so
the last one stays open. -/
theorem Holds.fields {held : Option WrittenField} {init : List WrittenField} {last : WrittenField}
    (h : Holds buffer block held) (hapart : Apart (held.toList ++ written))
    (hstand : TextLine.Stand (written.flatMap WrittenField.lines) rest)
    (hdrop : buffer.drop block.position = written.flatMap WrittenField.bytes ++ rest)
    (hle : block.charged + weight (written.flatMap WrittenField.bytes) ≤ limit)
    (hall : held.toList ++ written = init ++ [last]) :
    ∃ spans, Holds buffer (block.behind (written.flatMap WrittenField.bytes) (some spans))
        (some last) ∧
      read limit strict buffer block = handOn strict init
        (read limit strict buffer
          (block.behind (written.flatMap WrittenField.bytes) (some spans))) := by
  induction written generalizing block held init with
  | nil =>
      rw [List.append_nil] at hall
      cases h with
      | outside => simp at hall
      | @inside charged position spans _ spells closed =>
          obtain ⟨rfl, rfl⟩ : init = [] ∧ last = _ := by
            simpa [List.singleton_eq_append_iff] using hall
          exact ⟨spans, .inside spells closed, rfl⟩
  | cons field written ih =>
      rw [List.flatMap_cons] at hstand
      obtain ⟨hfield, hlater⟩ := TextLine.Stand.append_iff.1 hstand
      rw [← WrittenField.flatMap_bytes] at hfield
      rw [List.flatMap_cons, List.append_assoc] at hdrop
      rw [List.flatMap_cons, weight_append, ← Nat.add_assoc] at hle
      -- the field becomes the open one, and the others are read after it
      have hcontinues : held = none ∨ field.opening.continues = false := by
        cases held with
        | none => exact .inl rfl
        | some open' => exact .inr (hapart.openings field List.mem_cons_self)
      have hfolds := hapart.folds field (List.mem_append_right _ List.mem_cons_self)
      have hrest : Apart ((some field).toList ++ written) := by
        refine ⟨fun other hother => hapart.folds other (List.mem_append_right _ hother), ?_⟩
        intro other hother
        cases held with
        | none => exact hapart.openings other hother
        | some open' => exact hapart.openings other (List.mem_cons_of_mem _ hother)
      obtain ⟨init', last', hcons⟩ :=
        (List.eq_nil_or_concat (field :: written)).resolve_left (List.cons_ne_nil _ _)
      rw [List.concat_eq_append] at hcons
      rw [hcons, ← List.append_assoc] at hall
      obtain ⟨rfl, hlast⟩ := List.append_inj' hall rfl
      obtain rfl := (List.cons.inj hlast).1
      obtain ⟨spans, hholds, hread⟩ := @Holds.field limit strict _ _ _ _ _ h hfield hcontinues hfolds
        hdrop (Nat.le_trans (Nat.le_add_right _ _) hle)
      obtain ⟨spans', hholds', hread'⟩ := ih hholds hrest hlater (drop_behind hdrop _) hle hcons
      rw [behind_behind] at hholds' hread'
      refine ⟨spans', hholds', ?_⟩
      rw [hread, hread', handOn_append, List.flatMap_cons]

/-- The fields at the beginning of a block: all but the last are handed on, and that one is open. -/
theorem read_fields {init : List WrittenField} {last : WrittenField} (strict : Bool)
    (hapart : Apart (init ++ [last])) {bytes : Bytes}
    (hbytes : (init ++ [last]).flatMap WrittenField.bytes = bytes)
    (hstand : TextLine.Stand ((init ++ [last]).flatMap WrittenField.lines) rest)
    (hle : base + weight bytes ≤ limit) :
    ∃ spans, Holds (bytes ++ rest) ⟨base + weight bytes, bytes.length, some spans⟩ (some last) ∧
      read limit strict (bytes ++ rest) { charged := base } =
        handOn strict init
          (read limit strict (bytes ++ rest) ⟨base + weight bytes, bytes.length, some spans⟩) := by
  have hstart : Holds (bytes ++ rest) { charged := base } none := .outside
  rw [← hbytes] at hle
  obtain ⟨spans, hholds, hread⟩ := @Holds.fields limit strict _ _ _ (init ++ [last]) none init last
    hstart hapart hstand (by rw [List.drop_zero, hbytes]) hle rfl
  simp only [behind, hbytes, Nat.zero_add] at hholds hread
  exact ⟨spans, hholds, hread⟩

/-- A block as it is written: fields, and an empty line before `rest`. -/
structure Written (written : List WrittenField) (mark rest : Bytes) : Prop where
  apart : Apart written
  stand : TextLine.Stand (written.flatMap WrittenField.lines) (mark ++ rest)
  closing : Line.EndMark mark rest

/-- A block within the limit gives its fields, up to one that does not pass the checks. -/
theorem Written.read_eq (h : Written written mark rest)
    (hle : base + weight (written.flatMap WrittenField.bytes ++ mark) ≤ limit) (strict : Bool) :
    read limit strict (written.flatMap WrittenField.bytes ++ (mark ++ rest)) { charged := base } =
      handOn strict written
        ([], .complete (written.flatMap WrittenField.bytes ++ mark).length
          (base + weight (written.flatMap WrittenField.bytes ++ mark))) := by
  have hweight : weight (written.flatMap WrittenField.bytes ++ mark) =
      weight (written.flatMap WrittenField.bytes) := by
    rw [weight_append, h.closing.weight_eq, Nat.add_zero]
  rw [hweight] at hle ⊢
  rcases List.eq_nil_or_concat written with rfl | ⟨init, last, hlast⟩
  · have hstart : Holds (mark ++ rest) { charged := base } none := .outside
    have hclosing := @Holds.closing limit strict _ _ _ _ _ hstart h.closing List.drop_zero hle
    simp only [Nat.zero_add] at hclosing
    exact hclosing
  · obtain rfl : written = init ++ [last] := hlast.trans List.concat_eq_append
    obtain ⟨spans, hholds, hread⟩ := read_fields strict h.apart rfl h.stand hle
    have hclosing := @Holds.closing limit strict _ _ _ _ _ hholds h.closing List.drop_left hle
    rw [hread, hclosing, handOn_append, List.length_append]
    rfl

/-- A block that is read to its end consists of lines with text and an empty line. -/
theorem lines_of_complete {next charged : Nat}
    (hread : (read limit strict buffer block).2 = .complete next charged) :
    ∃ lines mark, buffer.drop block.position =
        lines.flatMap TextLine.bytes ++ (mark ++ buffer.drop next) ∧
      TextLine.Stand lines (mark ++ buffer.drop next) ∧ Line.EndMark mark (buffer.drop next) := by
  fun_induction read limit strict buffer block with
  | case1 => cases hread
  | case2 => cases hread
  | case3 => cases hread
  | case4 block line hline charged' done htake =>
      simp only [Outcome.complete.injEq] at hread
      obtain ⟨rfl, rfl⟩ := hread
      have hempty := isEmpty_of_takeLine htake
      obtain ⟨text, mark, rest, hdrop, htext, hmark, rfl, -⟩ := Line.scan_found_front hline
      have hstop : block.position + text.length ≤ block.position := of_decide_eq_true hempty
      obtain rfl : text = [] := List.length_eq_zero_iff.1 (by omega)
      have hrest := Line.drop_ofText hdrop
      rw [← hrest] at hdrop hmark
      exact ⟨[], mark, hdrop, .nil, hmark⟩
  | case5 block line hline charged' done spans htake further ih =>
      obtain ⟨lines, mark, hlater, hstand, hclosing⟩ := ih hread
      have hpos := length_pos_of_takeLine htake
      obtain ⟨text, mark', rest, hdrop, htext, hmark, rfl, -⟩ := Line.scan_found_front hline
      have hne : text ≠ [] := by
        rintro rfl
        exact absurd hpos (by simp [Line.ofText, Span.length])
      have hrest := Line.drop_ofText hdrop
      rw [← hrest, hlater] at hdrop
      rw [← hrest, hlater] at hmark
      refine ⟨⟨text, mark'⟩ :: lines, mark, ?_, .cons htext hne hmark hstand, hclosing⟩
      rw [hdrop, List.flatMap_cons, TextLine.bytes, List.append_assoc, List.append_assoc]

/-- A block that is read to its end consists of fields that pass the checks, and these are handed
on. -/
theorem exists_written {bytes : Bytes} {fields : List Field} {charged : Nat}
    (hread : read limit strict (bytes ++ rest) { charged := base } =
      (fields, .complete bytes.length charged)) :
    ∃ written mark, bytes = written.flatMap WrittenField.bytes ++ mark ∧
      Written written mark rest ∧ written.map (WrittenField.field strict) = fields.map .ok := by
  have houtcome := congrArg Prod.snd hread
  obtain ⟨lines, mark, hdrop, hstand, hclosing⟩ := lines_of_complete houtcome
  obtain ⟨written, rfl, hapart⟩ := exists_apart lines
  rw [List.drop_left] at hdrop hstand hclosing
  rw [List.drop_zero, ← WrittenField.flatMap_bytes, ← List.append_assoc] at hdrop
  have hbytes := List.append_cancel_right hdrop
  have hwritten : Written written mark rest := ⟨hapart, hstand, hclosing⟩
  refine ⟨written, mark, hbytes, hwritten, ?_⟩
  have hcharged := ((Taken.start base (bytes ++ rest)).complete houtcome).1
  have hle := charged_le_of_complete houtcome
  rw [hcharged, List.take_left, hbytes] at hle
  have hall := hwritten.read_eq hle strict
  rw [← List.append_assoc, ← hbytes, hread] at hall
  exact of_handOn_complete hall.symm

end FieldBlock

end HttpWire

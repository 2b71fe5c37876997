import HttpWire.Proofs.Accepted

/-!
# Controls in fields

A strict reader looks for controls in the value that it has made of a field, and not in the bytes of
its lines. Some controls are blank, and those that are trimmed away with other blanks around a part of
the value are never looked at. Any other control after the colon, a tab aside, has the message refused.

- `WrittenField.ControlsAtEdges`: all controls after the colon are among those that are trimmed away.
- `WrittenField.field_ok_controls`, `FieldBlock.Written.refused`: a field with another control does not
  pass the checks, and the block that holds it is refused.
- `AcceptedControls`, `Connection.RefusesFields`: the two halves of what follows for a reader;
  `acceptedControls` and `Connection.refusesFields_after` prove them.
- `Connection.controls_refused`: this is so in whatever pieces a block comes.
-/

set_option autoImplicit false

namespace HttpWire

open Text

variable {direction : Direction} {limits : Limits} {input : Bytes}

/-! ## Controls of a field -/

/-- A control that is blank, line ends and tabs aside: the vertical tab, the form feed, and the four
separators from U+001C to U+001F. -/
def Text.isBlankControl (b : UInt8) : Bool :=
  b == 11 || b == 12 || (28 ≤ b && b ≤ 31)

/-- Of the bytes that end no line, these are the controls which are both forbidden and blank. -/
theorem Text.isBlankControl_of {b : UInt8} (hforbidden : isForbiddenInValue b = true)
    (hblank : isBlank b = true) (hline : isLineEnd b = false) : isBlankControl b = true := by
  have hall := forall_byte (p := fun b =>
    !(isForbiddenInValue b && isBlank b && !isLineEnd b) || isBlankControl b) (by decide +kernel) b
  simpa [hforbidden, hblank, hline] using hall

/-- The tab is the only fold among the controls, and it may stand in a value. -/
theorem Text.isFold_of_isForbidden {b : UInt8} (h : isForbiddenInValue b = true) :
    isFold b = false := by
  have hall := forall_byte (p := fun b => !isForbiddenInValue b || !isFold b) (by decide +kernel) b
  simpa [h] using hall

namespace WrittenField

variable {written : WrittenField}

/-- Every control after the colon of a field, tabs aside, is a blank one. In its line, only blanks
stand before it, up to the colon or to the beginning of the line; or else only blanks follow it, up to
the end of the field. -/
def ControlsAtEdges (written : WrittenField) : Prop :=
  ∀ earlier before c after later, written.parts = earlier ++ (before ++ c :: after) :: later →
    isForbiddenInValue c = true → isBlankControl c = true ∧
      ((∀ b ∈ before, isBlank b = true) ∨
        (∀ b ∈ after, isBlank b = true) ∧ ∀ part ∈ later, ∀ b ∈ part, isBlank b = true)

/-- No part of a value holds a line end. -/
theorem isLineEnd_of_mem_parts (h : ∀ line ∈ written.lines, line.Closed) {part : Bytes}
    (hpart : part ∈ written.parts) {b : UInt8} (hb : b ∈ part) : isLineEnd b = false := by
  rw [← map_text_valueLines, List.mem_map] at hpart
  obtain ⟨line, hline, rfl⟩ := hpart
  exact (closed_valueLines h line hline).text b hb

theorem field_ok_controls (hclosed : ∀ line ∈ written.lines, line.Closed) {field : Field}
    (h : written.field true = .ok field) : written.ControlsAtEdges := by
  intro earlier before c after later hparts hforbidden
  obtain ⟨-, -, hvalue, -⟩ := Field.of_check h
  have hlost : c ∉ joinParts (earlier ++ (before ++ c :: after) :: later) := by
    intro hmem
    rw [← hparts] at hmem
    rw [hvalue c hmem] at hforbidden
    cases hforbidden
  obtain ⟨hblank, hedge⟩ := edge_of_not_mem_joinParts (isFold_of_isForbidden hforbidden) hlost
  have hpart : before ++ c :: after ∈ written.parts := by
    rw [hparts]
    exact List.mem_append_right _ List.mem_cons_self
  have hline : isLineEnd c = false :=
    isLineEnd_of_mem_parts hclosed hpart (List.mem_append_right _ List.mem_cons_self)
  exact ⟨isBlankControl_of hforbidden hblank hline, hedge⟩

end WrittenField

/-! ## Blocks with controls -/

namespace FieldBlock

variable {written : List WrittenField} {mark rest : Bytes}

theorem Written.closed (h : Written written mark rest) {field : WrittenField}
    (hfield : field ∈ written) : ∀ line ∈ field.lines, line.Closed := by
  intro line hline
  exact h.stand.closed line (List.mem_flatMap.2 ⟨field, hfield, hline⟩)

/-- Fields that pass the checks have their controls at the edges only. -/
theorem Written.controls (h : Written written mark rest) {fields : List Field}
    (hfields : written.map (WrittenField.field true) = fields.map .ok) :
    ∀ field ∈ written, field.ControlsAtEdges := by
  intro field hmem
  have hread : field.field true ∈ fields.map .ok := by
    rw [← hfields]
    exact List.mem_map_of_mem hmem
  obtain ⟨read, -, hok⟩ := List.mem_map.1 hread
  exact WrittenField.field_ok_controls (h.closed hmem) hok.symm

theorem extent_lines {lines : List TextLine} (h : TextLine.Stand lines (mark ++ rest))
    (hclosing : Line.EndMark mark rest) :
    extent (lines.flatMap TextLine.bytes ++ (mark ++ rest)) =
      lines.flatMap TextLine.bytes ++ mark := by
  induction lines with
  | nil => exact extent_empty hclosing
  | cons line lines ih =>
      cases h with
      | cons text ne hmark later =>
          rw [List.flatMap_cons, TextLine.bytes, List.append_assoc, List.append_assoc,
            extent_line text ne hmark, ih later, List.append_assoc, List.append_assoc]

theorem Written.extent_eq (h : Written written mark rest) :
    extent (written.flatMap WrittenField.bytes ++ (mark ++ rest)) =
      written.flatMap WrittenField.bytes ++ mark := by
  rw [WrittenField.flatMap_bytes]
  exact extent_lines h.stand h.closing

/-- A block with a control anywhere else in a field is refused, for the bytes of a field unless it is
too heavy. -/
theorem Written.refused (h : Written written mark rest)
    (hcontrols : ∃ field ∈ written, ¬ field.ControlsAtEdges) (limit base : Nat) :
    ∃ fields cause, read limit true (written.flatMap WrittenField.bytes ++ (mark ++ rest))
        { charged := base } = (fields, .refused cause) ∧
      (cause.inField = true ∨ cause = .headerTooLong limit ∧
        limit < base + weight (written.flatMap WrittenField.bytes ++ mark)) := by
  obtain ⟨bad, hbad, hnot⟩ := hcontrols
  by_cases hle : base + weight (written.flatMap WrittenField.bytes ++ mark) ≤ limit
  · rw [h.read_eq hle]
    rcases handOn_cases true written with ⟨fields, hfields⟩ | ⟨fields, cause, hcause, hread⟩
    · exact absurd (h.controls hfields bad hbad) hnot
    · exact ⟨fields, cause, hread _, .inl hcause⟩
  · have hover : limit < base + weight (extent
        (written.flatMap WrittenField.bytes ++ (mark ++ rest))) := by
      rw [h.extent_eq]
      exact Nat.not_le.1 hle
    obtain ⟨fields, cause, hread⟩ := (Taken.start base _).refused hover
    refine ⟨fields, cause, hread, ?_⟩
    rcases fault_of_read (congrArg Prod.snd hread) with rfl | hfield
    · exact .inr ⟨rfl, Nat.not_le.1 hle⟩
    · exact .inl hfield

end FieldBlock

/-! ## Messages with controls -/

namespace Connection

variable {new : Connection}

/-- A head that was reported, with the entries of the record after it: its header block consists of fields
that have controls at their edges only, and so does the trailer block of its message, if that is chunked
and complete. -/
structure AcceptedControls (direction : Direction) (limits : Limits) (input : Bytes) (read : Nat)
    (head : Head) (later : List Entry) : Prop where
  header : ∃ line written mark,
    head.Stands direction limits input read line (written.flatMap WrittenField.bytes ++ mark) ∧
    FieldBlock.Written written mark (input.drop read) ∧
    ∀ field ∈ written, field.ControlsAtEdges
  trailer : ∀ middle read' ending more, later = middle ++ .report read' (.last ending) :: more →
    (Course.follow middle).outcome = .unfinished →
    BodyLength.select direction head = .ok .chunked →
    ∃ sizes written mark,
      Chunked.Reaches (input.drop read) sizes (some 0)
        (written.flatMap WrittenField.bytes ++ (mark ++ input.drop read')) ∧
      FieldBlock.Written written mark (input.drop read') ∧
      ∀ field ∈ written, field.ControlsAtEdges

theorem acceptedControls {rest : Bytes} {record : List Entry} {phase : Phase}
    (walk : Walk direction limits input record phase rest) (hstrict : limits.strict = true)
    {before later : List Entry} {read : Nat} {head : Head}
    (hrecord : record = before ++ .report read (.head head) :: later) :
    AcceptedControls direction limits input read head later := by
  constructor
  case header =>
    obtain ⟨line, written, mark, hstands, hwritten, hfields⟩ := walk.header_written hrecord
    rw [hstrict] at hfields
    exact ⟨line, written, mark, hstands, hwritten, hwritten.controls hfields⟩
  case trailer =>
    rintro middle read' ending more rfl hunfinished hchunked
    obtain ⟨sizes, written, mark, fields, hreaches, hwritten, hfields, -⟩ :=
      walk.trailer_written hrecord hunfinished hchunked
    rw [hstrict] at hfields
    exact ⟨sizes, written, mark, hreaches, hwritten, hwritten.controls hfields⟩

/-- Why a block is refused that comes behind header lines of a given weight: for one of its fields, or
because it is too heavy. -/
def RefusesBlock (limits : Limits) (base : Nat) (block : Bytes) (cause : Fault) : Prop :=
  cause.inField = true ∨ cause = .headerTooLong limits.header ∧ limits.header < base + weight block

/-- What becomes of a message when a block arrives that is to be refused, where a connection stands after
a record and an input. `Ends` says that the refusal ends the message. -/
structure RefusesFields (direction : Direction) (limits : Limits) (here : Connection)
    (record : List Entry) (input block : Bytes) (Ends : Event → Prop) : Prop where
  header : ∀ first fields opened, here.phase = .header first fields opened →
    (∃ line, first.Begins direction input line here.buffer) ∧
    ∃ fields cause, Ends (.refusedHead { startLine := first, fields } cause) ∧
      RefusesBlock limits 0 block cause
  trailer : ∀ switches fields opened, here.phase = .trailer switches fields opened →
    ∃ header, InTrailer direction limits input record header here.buffer ∧
      ∃ cause, Ends (.refusedContent cause) ∧ RefusesBlock limits (weight header) block cause

theorem refusesFields_after (hstart : start direction limits = .ok new)
    (hstrict : limits.strict = true) (earlier : List Call) (front more : Bytes)
    {written : List WrittenField} {mark rest : Bytes}
    (hbytes : (new.after (earlier ++ [.push front])).buffer ++ more =
      written.flatMap WrittenField.bytes ++ (mark ++ rest))
    (hwritten : FieldBlock.Written written mark rest)
    (hcontrols : ∃ field ∈ written, ¬ field.ControlsAtEdges) :
    RefusesFields direction limits (new.after (earlier ++ [.push front]))
      (new.record 0 (earlier ++ [.push front])) ((earlier ++ [Call.push front]).flatMap Call.bytes)
      (written.flatMap WrittenField.bytes ++ mark) ((new.after earlier).RefusesWith front more) := by
  have hwalk := start_walk hstart (earlier ++ [.push front])
  have hends := fun event => @refusesWith_after _ _ _ hstart earlier front more event
  generalize new.after (earlier ++ [.push front]) = here at hwalk hends hbytes ⊢
  constructor
  case header =>
    intro first fields opened hphase
    rw [hphase] at hwalk
    obtain ⟨-, line, hbegins, -⟩ := hwalk.opens
    obtain ⟨all, cause, hread, hcause⟩ := hwritten.refused hcontrols limits.header 0
    rw [← hbytes, ← hstrict] at hread
    refine ⟨⟨line, hbegins⟩, ⟨all⟩, cause, hends _ ?_, hcause⟩
    rw [hphase]
    exact Phase.run_refused_header (hwalk.recalls.2.append more) hread
  case trailer =>
    intro switches fields opened hphase
    rw [hphase] at hwalk
    obtain ⟨header, hin, -, hagrees⟩ := hwalk.inTrailer
    obtain ⟨all, cause, hread, hcause⟩ := hwritten.refused hcontrols limits.header (weight header)
    rw [← hbytes, ← hstrict] at hread
    refine ⟨header, hin, cause, hends _ ?_, hcause⟩
    rw [hphase]
    exact Phase.run_refused_trailer (hagrees.append more) hread

/-- What becomes of controls in the fields of a strict reader, however it is used.

The header block of every head that is reported, and the trailer block of every chunked message that
is complete, consist of fields that have controls at their edges only.

Conversely a header or trailer block in which a field holds another control is refused, in whatever
pieces it comes, and the refusal is the last report. The cause is a field of the block, unless the
block is too heavy. -/
theorem controls_refused (hstart : start direction limits = .ok new)
    (hstrict : limits.strict = true) :
    (∀ (calls : List Call) before read head later,
      new.record 0 calls = before ++ .report read (.head head) :: later →
      AcceptedControls direction limits (calls.flatMap Call.bytes) read head later) ∧
    ∀ (earlier : List Call) (front more : Bytes) written mark rest,
      (new.after (earlier ++ [.push front])).buffer ++ more =
        written.flatMap WrittenField.bytes ++ (mark ++ rest) →
      FieldBlock.Written written mark rest → (∃ field ∈ written, ¬ field.ControlsAtEdges) →
      RefusesFields direction limits (new.after (earlier ++ [.push front]))
        (new.record 0 (earlier ++ [.push front]))
        ((earlier ++ [Call.push front]).flatMap Call.bytes)
        (written.flatMap WrittenField.bytes ++ mark)
        ((new.after earlier).RefusesWith front more) := by
  refine ⟨?_, ?_⟩
  · intro calls before read head later hrecord
    exact acceptedControls (start_walk hstart calls) hstrict hrecord
  · intro earlier front more written mark rest hbytes hwritten hcontrols
    exact refusesFields_after hstart hstrict earlier front more hbytes hwritten hcontrols

/-- Controls at the edges of header and trailer fields, and a header and a trailer field that hold
another one. -/
theorem controls_refused_header_and_trailer :
    let new : Connection := { reader := ⟨.request, {}, by decide, .idle, false⟩ }
    let opening := toBytes "PUT / HTTP/1.1\r\nTransfer-Encoding:\x0bchunked\r\n\r\n0\r\n"
    let calls : List Call := [.push (opening ++ toBytes "A: b\r\n \x0cc\x1f\r\n\r\n")]
    let head : Head :=
      { startLine := .request "PUT" "/" .http11, fields := ⟨[⟨"Transfer-Encoding", "chunked"⟩]⟩ }
    let inside : WrittenField := ⟨⟨toBytes "A: b\x0bc", [cr, lf]⟩, []⟩
    let folded : WrittenField := ⟨⟨toBytes "A: b\x0c", [lf]⟩, [⟨toBytes " c", [lf]⟩]⟩
    start .request {} = .ok new ∧
      new.record 0 calls =
        .report 46 (.head head) :: [.report 63 (.last { trailers := ⟨[⟨"A", "b c"⟩]⟩ })] ∧
      (∃ (line : Bytes) (header : List WrittenField) (mark : Bytes),
        head.Stands .request {} (calls.flatMap Call.bytes) 46 line
          (header.flatMap WrittenField.bytes ++ mark) ∧
        ∀ field ∈ header, field.ControlsAtEdges) ∧
      (∃ trailer mark, FieldBlock.Written trailer mark ((calls.flatMap Call.bytes).drop 63) ∧
        ∀ field ∈ trailer, field.ControlsAtEdges) ∧
      ¬ inside.ControlsAtEdges ∧ ¬ folded.ControlsAtEdges ∧
      (∃ fields cause, cause.inField = true ∧
        new.EndsWith (toBytes "GET / HTTP/1.1\n" ++ (inside.bytes ++ [lf]))
          [.refusedHead { startLine := .request "GET" "/" .http11, fields } cause]) ∧
      ∃ cause, cause.inField = true ∧
        new.EndsWith (opening ++ (folded.bytes ++ [lf])) [.head head, .refusedContent cause] := by
  intro new opening calls head inside folded
  have hstart : start .request {} = .ok new := rfl
  have hrecord : new.record 0 calls = [] ++ .report 46 (.head head) ::
      ([] ++ .report 63 (.last { trailers := ⟨[⟨"A", "b c"⟩]⟩ }) :: []) := by decide +kernel
  obtain ⟨haccepted, hrefused⟩ := controls_refused hstart rfl
  have haccepted := haccepted calls [] 46 head _ hrecord
  obtain ⟨line, header, mark, hstands, -, hheader⟩ := haccepted.header
  obtain ⟨_, trailer, mark', -, hwritten, htrailer⟩ :=
    haccepted.trailer [] 63 _ [] rfl rfl (by decide +kernel)
  have hinside : ¬ inside.ControlsAtEdges := by
    intro h
    have hedge := h [] (toBytes " b") 11 (toBytes "c") [] (by decide +kernel) (by decide +kernel)
    exact absurd hedge (by decide +kernel)
  have hfolded : ¬ folded.ControlsAtEdges := by
    intro h
    have hedge := h [] (toBytes " b") 12 [] [toBytes " c"] (by decide +kernel) (by decide +kernel)
    exact absurd hedge (by decide +kernel)
  have hbegun : (new.push (toBytes "GET / HTTP/1.1\n")).2 = [] ∧
      (new.push opening).2 = [.head head] := by decide +kernel
  have hinsideStands : TextLine.Stand inside.lines [lf] :=
    .cons (by decide +kernel) (by decide +kernel) (.ofCrLf _) .nil
  have hfoldedStands : TextLine.Stand folded.lines [lf] :=
    .cons (by decide +kernel) (by decide +kernel) (.ofLf _)
      (.cons (by decide +kernel) (by decide +kernel) (.ofLf _) .nil)
  obtain ⟨-, fields, cause, hends, hcause⟩ :=
    (hrefused [] (toBytes "GET / HTTP/1.1\n") (inside.bytes ++ [lf]) [inside] [lf] []
      (by decide +kernel) ⟨⟨by decide +kernel, by decide +kernel⟩, hinsideStands, .ofLf _⟩
      ⟨inside, List.mem_singleton_self _, hinside⟩).header (.request "GET" "/" .http11) {} {}
      (by decide +kernel)
  obtain ⟨block, hopened, cause', hends', hcause'⟩ :=
    (hrefused [] opening (folded.bytes ++ [lf]) [folded] [lf] []
      (by decide +kernel) ⟨⟨by decide +kernel, by decide +kernel⟩, hfoldedStands, .ofLf _⟩
      ⟨folded, List.mem_singleton_self _, hfolded⟩).trailer false {} { charged := 26 }
      (by decide +kernel)
  have hblock : weight block ≤ 49 := Nat.le_trans hopened.weight_le (by decide +kernel)
  have hfits : weight ([folded].flatMap WrittenField.bytes ++ [lf]) = 7 := by decide +kernel
  simp only [RefusesWith, after, hbegun.1, List.nil_append] at hends
  simp only [RefusesWith, after, hbegun.2, List.cons_append, List.nil_append] at hends'
  refine ⟨hstart, hrecord, ⟨line, header, mark, hstands, hheader⟩,
    ⟨trailer, mark', hwritten, htrailer⟩, hinside, hfolded, ⟨fields, cause, ?_, hends⟩,
    cause', ?_, hends'⟩
  · exact hcause.resolve_right fun h => absurd h.2 (by decide +kernel)
  · refine hcause'.resolve_right fun h => absurd h.2 ?_
    rw [hfits]
    exact Nat.not_lt.2 (Nat.le_trans (Nat.add_le_add_right hblock 7) (by decide))

/-- Controls after the colon are accepted: at the beginning of a declared length, of a line that
continues a field, and at the end of a value. -/
theorem controls_dropped_at_edges :
    let new : Connection := { reader := ⟨.request, {}, by decide, .idle, false⟩ }
    let written : List WrittenField :=
      [⟨⟨toBytes "Content-Length:\x0b5", [cr, lf]⟩, []⟩,
        ⟨⟨toBytes "A: x", [cr, lf]⟩, [⟨toBytes " \x0cy\x1f", [cr, lf]⟩]⟩]
    let block := written.flatMap WrittenField.bytes ++ [cr, lf]
    let head : Head :=
      { startLine := .request "POST" "/" .http11
        fields := ⟨[⟨"Content-Length", "5"⟩, ⟨"A", "x y"⟩]⟩ }
    FieldBlock.Written written [cr, lf] (toBytes "hello") ∧
      new.events [.push (toBytes "POST / HTTP/1.1\r\n" ++ block ++ toBytes "hello")] =
        [.head head, .last { data := toBytes "hello" }] ∧
      ∀ field ∈ written, ∃ part ∈ field.parts, ∃ c ∈ part, isForbiddenInValue c = true := by
  intro new written block head
  refine ⟨⟨⟨by decide +kernel, by decide +kernel⟩, ?_, .ofCrLf _⟩, by decide +kernel,
    by decide +kernel⟩
  refine .cons (by decide +kernel) (by decide +kernel) (.ofCrLf _) ?_
  refine .cons (by decide +kernel) (by decide +kernel) (.ofCrLf _) ?_
  exact .cons (by decide +kernel) (by decide +kernel) (.ofCrLf _) .nil

end Connection

end HttpWire

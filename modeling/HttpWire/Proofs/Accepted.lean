import Mathlib.Data.List.Forall2
import HttpWire.Proofs.Folds.Layout

/-!
# The fields of accepted blocks

A block that is accepted is the header block of a head that is reported, or the trailer block of a
chunked message that is complete. Either of them is a block of written fields, and of a checked field
it can be told what has become of each byte of its lines.

- `Walk.gathers`: every walk keeps the fields of an open trailer; `Walk.reads_header` and
  `Walk.reads_trailer`: what is read off an open block in all.
- `Walk.header_written`, `Walk.trailer_written`: the lines of accepted blocks.
- `FieldSpans.Splits`: how a field line is taken apart.
- `Connection.fields_taken`: what a strict reader takes from the lines of accepted blocks.
-/

set_option autoImplicit false

namespace HttpWire

open Text

variable {direction : Direction} {limits : Limits} {input : Bytes}

/-! ## Trailers -/

namespace Phase

/-- A phase in which the fields of an open trailer are those that its block gives, less the ones that
do not count in a trailer. -/
def Gathers (limits : Limits) : Phase → Bytes → Prop
  | trailer _ fields block, rest => ∃ base read,
      fields.toList = keptTrailers read ∧ FieldBlock.ResumesFrom limits base rest read block
  | idle, _ => True
  | startLine, _ => True
  | header _ _ _, _ => True
  | fixed _ _ _, _ => True
  | untilClose, _ => True
  | chunkSize _, _ => True
  | chunkData _ _, _ => True
  | chunkEnd _, _ => True
  | refused, _ => True
  | raw, _ => True

theorem gathers_afterMessage (switches : Bool) (rest : Bytes) :
    (afterMessage switches).Gathers limits rest := by
  cases switches <;> trivial

theorem Gathers.append {phase : Phase} {rest : Bytes} (h : phase.Gathers limits rest)
    (bytes : Bytes) : phase.Gathers limits (rest ++ bytes) := by
  cases phase with
  | trailer switches fields block =>
      obtain ⟨base, read, hfields, hresumes⟩ := h
      exact ⟨base, read, hfields, hresumes.append bytes⟩
  | _ => trivial

theorem Move.gathers {phase : Phase} {rest : Bytes} {next : Step}
    (hmove : Move direction limits phase rest next) (hsound : phase.Sound rest)
    (h : phase.Gathers limits rest) : next.phase.Gathers limits next.rest := by
  cases hmove with
  | bodiless hread hhead hlength hempty => exact gathers_afterMessage _ _
  | fixedEnds hdata hnext hremaining => exact gathers_afterMessage _ _
  | @lastChunk body _ _ hline hsize => exact ⟨body.charged, [], rfl, fun more => rfl⟩
  | @trailerIncomplete _ _ _ _ _ more hread =>
      obtain ⟨base, read, hfields, hresumes⟩ := h
      refine ⟨base, read ++ more, ?_, hresumes.read hsound hread⟩
      rw [Fields.toList_append, hfields, keptTrailers, keptTrailers, keptTrailers,
        List.filter_append]
  | trailerEnds hread => exact gathers_afterMessage _ _
  | _ => trivial

end Phase

/-- In every walk an open trailer has the fields that its block gives. -/
theorem Walk.gathers {rest : Bytes} {record : List Entry} {phase : Phase}
    (h : Walk direction limits input record phase rest) : phase.Gathers limits rest := by
  induction h with
  | start => trivial
  | receive walk bytes ih => exact ih.append bytes
  | forget walk ih => trivial
  | step walk ih => exact (Phase.step_move _ _ _ _).gathers walk.sound ih
  | ended walk hclose ih => exact ih
  | closed walk hclose hrest ih => trivial

/-- The fields of an open header block, with those that more of the block gives, are what is read off it
from its beginning. -/
theorem Walk.reads_header {first : StartLine} {fields : Fields} {block : FieldBlock} {rest : Bytes}
    {record : List Entry}
    (h : Walk direction limits input record (.header first fields block) rest) {more : List Field}
    {outcome : FieldBlock.Outcome}
    (hread : block.read limits.header limits.strict rest = (more, outcome)) :
    FieldBlock.read limits.header limits.strict rest {} = ((fields.append more).toList, outcome) := by
  obtain ⟨-, hresumes⟩ := h.recalls
  have hall := hresumes []
  simp only [List.append_nil, hread] at hall
  exact hall

/-- The fields of an open trailer block, with those that more of the block gives, are what is kept of
that. -/
theorem Walk.reads_trailer {switches : Bool} {fields : Fields} {block : FieldBlock} {rest : Bytes}
    {record : List Entry}
    (h : Walk direction limits input record (.trailer switches fields block) rest)
    {more : List Field} {outcome : FieldBlock.Outcome}
    (hread : block.read limits.header limits.strict rest = (more, outcome)) :
    ∃ base given, FieldBlock.read limits.header limits.strict rest { charged := base } =
        (given, outcome) ∧
      (fields.append (Phase.keptTrailers more)).toList = Phase.keptTrailers given := by
  obtain ⟨base, read, hfields, hresumes⟩ := h.gathers
  have hall := hresumes []
  simp only [List.append_nil, hread] at hall
  refine ⟨base, read ++ more, hall, ?_⟩
  rw [Fields.toList_append, hfields, Phase.keptTrailers, Phase.keptTrailers, Phase.keptTrailers,
    List.filter_append]

theorem Walk.closes_trailer {rest start : Bytes} {record : List Entry} {phase : Phase}
    {ending : Ending} (walk : Walk direction limits input record phase rest) {base : Nat}
    (hinside : phase.Inside limits base .chunked start rest) {next : Step}
    (hmove : Phase.Move direction limits phase rest next) (hlast : .last ending ∈ next.events) :
    next.events = [.last ending] ∧ ∃ lines trailer base charged fields,
      rest = trailer ++ next.rest ∧ Chunked.Reaches start lines (some 0) rest ∧
      FieldBlock.read limits.header limits.strict rest { charged := base } =
        (fields, .complete trailer.length charged) ∧
      ending.trailers.toList = Phase.keptTrailers fields := by
  cases hmove with
  | fixedEnds hdata hnext hremaining => exact absurd rfl hinside
  | @trailerEnds switches fields block _ more closed charged hread =>
      obtain ⟨base', given, hall, hkept⟩ := walk.reads_trailer hread
      obtain ⟨-, -, lines, hreaches, -⟩ := hinside
      obtain rfl : ending = _ := by simpa [Step.proceed] using hlast
      have hlength : (rest.take closed).length = closed := by
        rw [List.length_take, Nat.min_eq_left (FieldBlock.read_complete (congrArg Prod.snd hread)).2]
      refine ⟨rfl, lines, rest.take closed, base', charged, given,
        (List.take_append_drop _ _).symm, hreaches, ?_, hkept⟩
      rw [hlength]
      exact hall
  | bodiless hread hhead hlength hempty => exact hinside.elim
  | _ => simp [Step.proceed, Step.wait, Step.refuse, Event.refusedHead, Event.refusedContent]
      at hlast

/-- The trailer block of a chunked message that is complete, where its chunks lead to. -/
theorem Walk.trailer_read {rest : Bytes} {record : List Entry} {phase : Phase}
    (h : Walk direction limits input record phase rest) {before middle later : List Entry}
    {read read' : Nat} {head : Head} {ending : Ending}
    (hrecord : record =
      before ++ .report read (.head head) :: (middle ++ .report read' (.last ending) :: later))
    (hunfinished : (Course.follow middle).outcome = .unfinished)
    (hchunked : BodyLength.select direction head = .ok .chunked) :
    ∃ lines trailer base charged fields,
      Chunked.Reaches (input.drop read) lines (some 0) (trailer ++ input.drop read') ∧
      FieldBlock.read limits.header limits.strict (trailer ++ input.drop read')
          { charged := base } = (fields, .complete trailer.length charged) ∧
      ending.trailers.toList = Phase.keptTrailers fields := by
  rw [← List.cons_append, ← List.append_assoc] at hrecord
  obtain ⟨input', record', phase', rest', ⟨tail, rfl⟩, walk, ⟨earlier, others, hevents, rfl, hfront⟩ |
    ⟨hclose, hfront⟩⟩ := h.reported_at hrecord
  · have hmove := Phase.step_move direction limits phase' rest'
    generalize Phase.step direction limits phase' rest' = next at hmove hevents hfront ⊢
    have hlast : .last ending ∈ next.events := by simp [hevents]
    rcases append_eq_append_cons hfront.symm with ⟨between, hold, rfl⟩ | ⟨between, -, hnew⟩
    · -- the head was reported before, and so the step is taken inside its body
      obtain ⟨line, block, length, -, hstands, hselect, hweighed⟩ := walk.weighed hold
      cases hselect.symm.trans hchunked
      have hinside := hweighed.inside (Course.unfinished_of_append hunfinished)
      obtain ⟨-, lines, trailer, base, charged, fields, hrest, hreaches, hread, htrailers⟩ :=
        walk.closes_trailer hinside hmove hlast
      have hle : input'.length - next.rest.length ≤ input'.length := Nat.sub_le _ _
      have hdrop := List.suffix_iff_eq_drop.1 (hmove.suffix.trans walk.suffix)
      have hlonger := FieldBlock.read_append limits.header limits.strict
        (FieldBlock.within_start base rest') tail
      rw [hread] at hlonger
      have hrest' : trailer ++ (input' ++ tail).drop (input'.length - next.rest.length) =
          rest' ++ tail := by
        rw [List.drop_append_of_le_length hle, ← hdrop, ← List.append_assoc, ← hrest]
      refine ⟨lines, trailer, base, charged, fields, ?_, ?_, htrailers⟩
      · rw [hrest', List.drop_append_of_le_length hstands.read_le]
        exact hreaches.append tail
      · rw [hrest']
        exact hlonger
    · -- a head that comes with the end of its message belongs to one without chunks
      have hhead : .head head ∈ next.events := by
        rw [hevents]
        exact List.mem_append_left _ (Framed.mem_of_map_report hnew).1
      obtain ⟨line, block, -, -, hbase⟩ := walk.stands hmove hhead
      obtain ⟨length, hselect, ⟨honly, -⟩ | ⟨-, hlength⟩⟩ := hmove.enters hhead hbase
      · rw [honly] at hlast
        cases List.mem_singleton.1 hlast
      · cases hselect.symm.trans hchunked
        exact absurd rfl hlength
  · rcases append_eq_append_cons hfront.symm with ⟨between, hold, rfl⟩ | ⟨between, -, hnew⟩
    · -- the end of a connection ends no body of chunks
      obtain ⟨line, block, length, -, -, hselect, hweighed⟩ := walk.weighed hold
      cases hselect.symm.trans hchunked
      have hinside := hweighed.inside (Course.unfinished_of_append hunfinished)
      cases phase' with
      | untilClose => exact absurd rfl hinside
      | _ => cases hclose
    · exact absurd (congrArg (.report read (.head head) ∈ ·) hnew) (by simp)

/-! ## The lines of accepted blocks -/

theorem Walk.header_written {rest : Bytes} {record : List Entry} {phase : Phase}
    (h : Walk direction limits input record phase rest) {before later : List Entry} {read : Nat}
    {head : Head} (hrecord : record = before ++ .report read (.head head) :: later) :
    ∃ line written mark,
      head.Stands direction limits input read line (written.flatMap WrittenField.bytes ++ mark) ∧
      FieldBlock.Written written mark (input.drop read) ∧
      written.map (WrittenField.field limits.strict) = head.fields.toList.map .ok := by
  obtain ⟨line, block, length, -, hstands, -, -⟩ := h.weighed hrecord
  obtain ⟨written, mark, rfl, hwritten, hfields⟩ :=
    FieldBlock.exists_written (Prod.ext hstands.fields hstands.closes)
  exact ⟨line, written, mark, hstands, hwritten, hfields⟩

theorem Walk.trailer_written {rest : Bytes} {record : List Entry} {phase : Phase}
    (h : Walk direction limits input record phase rest) {before middle later : List Entry}
    {read read' : Nat} {head : Head} {ending : Ending}
    (hrecord : record =
      before ++ .report read (.head head) :: (middle ++ .report read' (.last ending) :: later))
    (hunfinished : (Course.follow middle).outcome = .unfinished)
    (hchunked : BodyLength.select direction head = .ok .chunked) :
    ∃ lines written mark fields,
      Chunked.Reaches (input.drop read) lines (some 0)
        (written.flatMap WrittenField.bytes ++ (mark ++ input.drop read')) ∧
      FieldBlock.Written written mark (input.drop read') ∧
      written.map (WrittenField.field limits.strict) = fields.map .ok ∧
      ending.trailers.toList = Phase.keptTrailers fields := by
  obtain ⟨lines, trailer, base, charged, fields, hreaches, hread, htrailers⟩ :=
    h.trailer_read hrecord hunfinished hchunked
  obtain ⟨written, mark, rfl, hwritten, hfields⟩ := FieldBlock.exists_written hread
  rw [List.append_assoc] at hreaches
  exact ⟨lines, written, mark, fields, hreaches, hwritten, hfields, htrailers⟩

/-! ## What is taken from a field line -/

namespace FieldSpans

/-- How a line is taken apart: there may be blanks, a name, and a gap that begins with a blank, and
then the first colon and what follows it. On a line without a colon the gap goes up to the end, and
nothing follows. -/
inductive Splits : (line name after : Bytes) → Prop
  | colon {lead name gap after : Bytes} (hlead : ∀ b ∈ lead, isBlank b = true)
      (hname : ∀ b ∈ name, endsName b = false) (hgap : ∀ b ∈ gap.head?, isBlank b = true)
      (hcolon : colon ∉ gap) : Splits (lead ++ (name ++ (gap ++ colon :: after))) name after
  | bare {lead name gap : Bytes} (hlead : ∀ b ∈ lead, isBlank b = true)
      (hname : ∀ b ∈ name, endsName b = false) (hgap : ∀ b ∈ gap.head?, isBlank b = true)
      (hcolon : colon ∉ gap) : Splits (lead ++ (name ++ gap)) name []

/-- Every line is taken apart in this way. -/
theorem splits (line : Bytes) : Splits line (nameText line) (afterColon line) := by
  have hline := List.takeWhile_append_dropWhile (p := isBlank) (l := line)
  have hlead : ∀ b ∈ line.takeWhile isBlank, isBlank b = true :=
    List.all_eq_true.1 List.all_takeWhile
  have htext := List.takeWhile_append_dropWhile (p := (!endsName ·)) (l := line.dropWhile isBlank)
  have hname : ∀ b ∈ nameText line, endsName b = false := by
    intro b hb
    simpa using List.all_eq_true.1 List.all_takeWhile b hb
  have hstop : ∀ b ∈ ((line.dropWhile isBlank).dropWhile (!endsName ·)).head?,
      b ≠ colon → isBlank b = true := by
    intro b hb hcolon
    have hhead := List.head?_dropWhile_not (!endsName ·) (line.dropWhile isBlank)
    rw [hb] at hhead
    have hends : endsName b = true := by simpa using hhead
    rw [endsName, Bool.or_eq_true, beq_iff_eq] at hends
    exact hends.resolve_left hcolon
  have hsplit : line = line.takeWhile isBlank ++ (nameText line ++
      (line.dropWhile isBlank).dropWhile (!endsName ·)) := by
    rw [nameText, htext, hline]
  rw [afterColon]
  generalize (line.dropWhile isBlank).dropWhile (!endsName ·) = tail at hstop hsplit ⊢
  rcases Phase.dropWhile_split (!· == colon) tail with
    ⟨hdrop, hall⟩ | ⟨gap, b, after, hdrop, rfl, hall, hb⟩
  · have hcolon : colon ∉ tail := fun hmem => by simpa using hall colon hmem
    rw [hdrop, List.drop_nil]
    conv => arg 1; rw [hsplit]
    refine .bare hlead hname ?_ hcolon
    intro b hb
    exact hstop b hb fun heq => hcolon (heq ▸ List.mem_of_mem_head? hb)
  · obtain rfl : b = colon := by simpa using hb
    have hcolon : colon ∉ gap := fun hmem => by simpa using hall colon hmem
    rw [hdrop, List.drop_succ_cons, List.drop_zero]
    conv => arg 1; rw [hsplit]
    refine .colon hlead hname ?_ hcolon
    intro b hb
    refine hstop b ?_ fun heq => hcolon (heq ▸ List.mem_of_mem_head? hb)
    rw [List.head?_append, hb]
    rfl

end FieldSpans

/-- A field that is taken from its lines. Its name, a token, is the first text on the line that opens
it; its value is made of what follows the colon there, and of the lines after it. Each of these parts
loses the blanks around it, those without text are left out, and single spaces join the others. -/
def Field.TakenFrom (field : Field) (written : WrittenField) : Prop :=
  ∃ name first, FieldSpans.Splits written.opening.text name first ∧ name ≠ [] ∧
    (∀ b ∈ name, isTokenByte b = true) ∧
    field = ⟨ofBytes name,
      ofBytes (joinTrimmed isBlank (first :: written.folds.map TextLine.text))⟩

/-- A strict reader takes a name that is a token and a value without controls. -/
theorem Field.of_check {name value : Bytes} {field : Field}
    (h : Field.check true name value = .ok field) :
    name ≠ [] ∧ (∀ b ∈ name, isTokenByte b = true) ∧
      (∀ b ∈ value, isForbiddenInValue b = false) ∧ field = ⟨ofBytes name, ofBytes value⟩ := by
  unfold Field.check at h
  split at h
  · cases h
  · rename_i hname
    split at h
    · cases h
    · rename_i hvalue
      cases h
      simp only [Bool.true_and, Bool.or_eq_true, not_or, Bool.not_eq_true, Bool.not_eq_false',
        List.isEmpty_eq_false_iff, List.all_eq_true, List.any_eq_false] at hname hvalue
      exact ⟨hname.1, hname.2, fun b hb => Bool.not_eq_true _ ▸ hvalue b hb, rfl⟩

/-- Every field of a strict reader is taken from its lines. -/
theorem WrittenField.takenFrom {written : WrittenField} {field : Field}
    (h : written.field true = .ok field) : field.TakenFrom written := by
  obtain ⟨hne, htoken, hvalue, rfl⟩ := Field.of_check h
  refine ⟨written.name, FieldSpans.afterColon written.opening.text, FieldSpans.splits _, hne, htoken,
    ?_⟩
  rw [value, joinParts_eq_joinTrimmed fun b hb hblank => isBlank_eq_isFold (hvalue b hb) ▸ hblank,
    parts]

theorem WrittenField.all_takenFrom {written : List WrittenField} {fields : List Field}
    (h : written.map (WrittenField.field true) = fields.map .ok) :
    List.Forall₂ Field.TakenFrom fields written := by
  induction written generalizing fields with
  | nil =>
      obtain rfl := List.map_eq_nil_iff.1 h.symm
      exact .nil
  | cons first written ih =>
      cases fields with
      | nil => cases h
      | cons field fields =>
          obtain ⟨hfirst, hwritten⟩ := List.cons.inj h
          exact .cons (takenFrom hfirst) (ih hwritten)

namespace Connection

variable {new : Connection}

/-- What a strict reader takes from the lines of the blocks that it accepts, however it is used.

The header block of every head that is reported consists of lines that open fields, the lines that
continue them, and an empty line, and each field of the head is taken from its lines. So does the
trailer block of every chunked message that is complete; its fields are reported but for those that do
not count in a trailer. -/
theorem fields_taken (hstart : start direction limits = .ok new) (hstrict : limits.strict = true)
    (calls : List Call) {before later : List Entry} {read : Nat} {head : Head}
    (hrecord : new.record 0 calls = before ++ .report read (.head head) :: later) :
    let input := calls.flatMap Call.bytes
    (∃ line written mark,
      head.Stands direction limits input read line (written.flatMap WrittenField.bytes ++ mark) ∧
      FieldBlock.Written written mark (input.drop read) ∧
      List.Forall₂ Field.TakenFrom head.fields.toList written) ∧
    ∀ middle read' ending more, later = middle ++ .report read' (.last ending) :: more →
      (Course.follow middle).outcome = .unfinished →
      BodyLength.select direction head = .ok .chunked →
      ∃ lines written mark fields,
        Chunked.Reaches (input.drop read) lines (some 0)
          (written.flatMap WrittenField.bytes ++ (mark ++ input.drop read')) ∧
        FieldBlock.Written written mark (input.drop read') ∧
        List.Forall₂ Field.TakenFrom fields written ∧
        ending.trailers.toList = Phase.keptTrailers fields := by
  intro input
  have hwalk := start_walk hstart calls
  constructor
  · obtain ⟨line, written, mark, hstands, hwritten, hfields⟩ := hwalk.header_written hrecord
    rw [hstrict] at hfields
    exact ⟨line, written, mark, hstands, hwritten, WrittenField.all_takenFrom hfields⟩
  · rintro middle read' ending more rfl hunfinished hchunked
    obtain ⟨lines, written, mark, fields, hreaches, hwritten, hfields, htrailers⟩ :=
      hwalk.trailer_written hrecord hunfinished hchunked
    rw [hstrict] at hfields
    exact ⟨lines, written, mark, fields, hreaches, hwritten, WrittenField.all_takenFrom hfields,
      htrailers⟩

/-- A gap, a line without a colon, and a folded trailer. -/
theorem fields_taken_across_a_gap :
    let new : Connection := { reader := ⟨.request, {}, by decide, .idle, false⟩ }
    let calls : List Call :=
      [.push (toBytes "PUT / HTTP/1.1\r\nTransfer-Encoding of:chunked\r\nHost\r\n\r\n"),
        .push (toBytes "0\r\n \tDigest:\r\n\tx \r\n y\r\nTrailer: z\r\n\r\n")]
    let head : Head :=
      { startLine := .request "PUT" "/" .http11
        fields := ⟨[⟨"Transfer-Encoding", "chunked"⟩, ⟨"Host", ""⟩]⟩ }
    start .request {} = .ok new ∧
      new.record 0 calls =
        .report 54 (.head head) :: [.report 91 (.last { trailers := ⟨[⟨"Digest", "x y"⟩]⟩ })] ∧
      (∃ written, List.Forall₂ Field.TakenFrom head.fields.toList written) ∧
      ∃ written fields, List.Forall₂ Field.TakenFrom fields written ∧
        [⟨"Digest", "x y"⟩] = Phase.keptTrailers fields := by
  intro new calls head
  have hrecord : new.record 0 calls = [] ++ .report 54 (.head head) ::
      ([] ++ .report 91 (.last { trailers := ⟨[⟨"Digest", "x y"⟩]⟩ }) :: []) := by decide +kernel
  have hstart : start .request {} = .ok new := rfl
  obtain ⟨⟨line, written, mark, -, -, hheader⟩, htrailer⟩ := fields_taken hstart rfl calls hrecord
  obtain ⟨lines, written', mark', fields, -, -, hfields, hkept⟩ :=
    htrailer [] 91 _ [] rfl rfl (by decide +kernel)
  exact ⟨hstart, hrecord, ⟨written, hheader⟩, written', fields, hfields, hkept⟩

/-- A field line with text between the name and the colon is accepted, and so is one without a colon:
the lines are not a name, a colon and a value. -/
theorem text_dropped_before_colon :
    let new : Connection := { reader := ⟨.request, {}, by decide, .idle, false⟩ }
    let written : List WrittenField :=
      [⟨⟨toBytes "Content-Length junk: 5", [cr, lf]⟩, []⟩, ⟨⟨toBytes "Host", [cr, lf]⟩, []⟩]
    let block := written.flatMap WrittenField.bytes ++ [cr, lf]
    let head : Head :=
      { startLine := .request "POST" "/" .http11
        fields := ⟨[⟨"Content-Length", "5"⟩, ⟨"Host", ""⟩]⟩ }
    FieldBlock.Written written [cr, lf] (toBytes "hello") ∧
      new.events [.push (toBytes "POST / HTTP/1.1\r\n" ++ block ++ toBytes "hello")] =
        [.head head, .last { data := toBytes "hello" }] ∧
      (¬ ∃ lead first : Bytes, (∀ b ∈ lead, isBlank b = true) ∧
        toBytes "Content-Length junk: 5" = lead ++ (toBytes "Content-Length" ++ colon :: first)) ∧
      colon ∉ toBytes "Host" := by
  intro new written block head
  refine ⟨⟨⟨by decide +kernel, by decide +kernel⟩, ?_, .ofCrLf _⟩, by decide +kernel, ?_,
    by decide +kernel⟩
  · refine .cons (by decide +kernel) (by decide +kernel) (.ofCrLf _) ?_
    exact .cons (by decide +kernel) (by decide +kernel) (.ofCrLf _) .nil
  · rintro ⟨lead, first, hlead, hline⟩
    cases lead with
    | nil =>
        have hsplit : toBytes "Content-Length junk: 5" =
            toBytes "Content-Length" ++ sp :: toBytes "junk: 5" := by decide +kernel
        rw [hsplit, List.nil_append] at hline
        cases (List.cons.inj (List.append_cancel_left hline)).1
    | cons b lead =>
        have hsplit : toBytes "Content-Length junk: 5" =
            67 :: toBytes "ontent-Length junk: 5" := by decide +kernel
        rw [hsplit, List.cons_append] at hline
        have hblank := hlead b List.mem_cons_self
        rw [← (List.cons.inj hline).1] at hblank
        cases hblank

end Connection

end HttpWire

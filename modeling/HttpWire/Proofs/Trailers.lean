import HttpWire.Proofs.Controls

/-!
# Trailers are read as headers are

A trailer block is read by the rules for a header block: the two differ in what has been charged before
them, and in the fields that are kept. So a trailer gives the fields that a new connection reads off the
same bytes when they come behind a start line, but for those that say how a message is framed; and a
block that is refused as a header is refused as a trailer, for the same cause.

- `FieldBlock.Whole`: a block as it stands in front of other bytes; `FieldBlock.Whole.read_cases`: what
  reading it gives does not depend on the charge before it, as long as there is room.
- `Connection.HeaderGives`: what every new connection makes of a block.
- `TrailersGiven`, `Connection.GivesTrailers`: the trailers that were reported, and those that are still
  to be read; `Connection.givesTrailers_after` is about the latter.
- `Connection.trailers_like_headers`: the trailers of every chunked message.
-/

set_option autoImplicit false

namespace HttpWire

open Text

variable {direction : Direction} {limits : Limits} {first : StartLine} {rest : Bytes}

/-! ## Whole blocks -/

namespace FieldBlock

variable {block : Bytes}

/-- A whole block of fields in front of `rest`: lines with text, and an empty line. -/
def Whole (block rest : Bytes) : Prop :=
  ∃ lines mark, block = lines.flatMap TextLine.bytes ++ mark ∧
    TextLine.Stand lines (mark ++ rest) ∧ Line.EndMark mark rest

/-- The lines of a whole block are those of some fields. -/
theorem Whole.exists_written (h : Whole block rest) :
    ∃ written mark, block = written.flatMap WrittenField.bytes ++ mark ∧
      Written written mark rest := by
  obtain ⟨lines, mark, rfl, hstand, hmark⟩ := h
  obtain ⟨written, rfl, hapart⟩ := exists_apart lines
  refine ⟨written, mark, ?_, hapart, hstand, hmark⟩
  rw [WrittenField.flatMap_bytes]

theorem Written.whole {written : List WrittenField} {mark : Bytes}
    (h : Written written mark rest) : Whole (written.flatMap WrittenField.bytes ++ mark) rest :=
  ⟨written.flatMap WrittenField.lines, mark, by rw [WrittenField.flatMap_bytes], h.stand, h.closing⟩

theorem Written.read_ok {strict : Bool} {written : List WrittenField} {mark : Bytes}
    {fields : List Field} (h : Written written mark rest)
    (hfields : written.map (WrittenField.field strict) = fields.map .ok) {base limit : Nat}
    (hle : base + weight (written.flatMap WrittenField.bytes ++ mark) ≤ limit) :
    read limit strict (written.flatMap WrittenField.bytes ++ mark ++ rest) { charged := base } =
      (fields, .complete (written.flatMap WrittenField.bytes ++ mark).length
        (base + weight (written.flatMap WrittenField.bytes ++ mark))) := by
  rw [List.append_assoc, h.read_eq hle, handOn_ok hfields, List.append_nil]

/-- Wherever there is room for it, a whole block gives the same fields, or it is refused for the same
cause: what was charged before, and what the ceiling is, do not show. -/
theorem Whole.read_cases (h : Whole block rest) (strict : Bool) :
    (∃ fields, ∀ {base limit : Nat}, base + weight block ≤ limit →
      read limit strict (block ++ rest) { charged := base } =
        (fields, .complete block.length (base + weight block))) ∨
      ∃ fields cause, cause.inField = true ∧ ∀ {base limit : Nat}, base + weight block ≤ limit →
        read limit strict (block ++ rest) { charged := base } = (fields, .refused cause) := by
  obtain ⟨written, mark, rfl, hwritten⟩ := h.exists_written
  rcases handOn_cases strict written with ⟨fields, hfields⟩ | ⟨fields, cause, hcause, hall⟩
  · exact .inl ⟨fields, hwritten.read_ok hfields⟩
  · refine .inr ⟨fields, cause, hcause, ?_⟩
    intro base limit hle
    rw [List.append_assoc, hwritten.read_eq hle, hall]

theorem base_eq_of_complete {limit base other : Nat} {strict : Bool}
    (h : (read limit strict (block ++ rest) { charged := base }).2 =
      .complete block.length (other + weight block)) : base = other := by
  have hcharged := ((Taken.start base (block ++ rest)).complete h).1
  rw [List.take_left] at hcharged
  omega

end FieldBlock

/-- Whether the name of a field is one of those that say how a message is framed, in any case. -/
def Field.frames (field : Field) : Bool :=
  ["content-length", "transfer-encoding", "trailer"].any (sameFold field.name)

/-! ## A block behind a start line -/

/-- A start line that is read off a line with text. -/
structure StartLine.StandsOn (first : StartLine) (direction : Direction) (limits : Limits)
    (text : Bytes) : Prop where
  read : StartLine.read direction text = .ok (some first)
  ends : ∀ b ∈ text, isLineEnd b = false
  opens : ∃ b later, text = b :: later ∧ isPadding b = false
  fits : text.length ≤ limits.line

/-- Whether an event reports a head. If there is a fault in its fields, the head is refused for that; if
there is none, it may still be refused for the framing that it selects. -/
def Event.Reports (event : Event) (head : Head) : Option Fault → Prop
  | some cause => cause.inField = true ∧ event = .refusedHead head cause
  | none => event = .head head ∨ ∃ cause, cause.inField = false ∧ event = .refusedHead head cause

namespace Phase

/-- A run begins with the events of its first step. -/
theorem step_events_isPrefix (direction : Direction) (limits : Limits) (phase : Phase)
    (buffer : Bytes) :
    (step direction limits phase buffer).events <+: (run direction limits phase buffer).events := by
  rw [run_eq]
  dsimp only
  split
  · exact List.prefix_append _ _
  · exact List.prefix_rfl

/-- A header block that is closed gives a head with its fields, whatever follows from them. -/
theorem Move.reports_head {buffer : Bytes} {given : List Field} {next charged : Nat}
    (hread : FieldBlock.read limits.header limits.strict buffer {} =
      (given, .complete next charged)) {taken : Step}
    (hmove : Move direction limits (.header first {} {}) buffer taken) :
    ∃ event later, taken.events = event :: later ∧
      event.Reports { startLine := first, fields := ⟨given⟩ } none := by
  -- one reading has one outcome, so the moves for an open and for a refused block are not taken
  cases hmove with
  | headerIncomplete hother => cases hread.symm.trans hother
  | headerRefused hother => cases hread.symm.trans hother
  | unframed hother hhead hlength =>
      cases hread.symm.trans hother
      subst hhead
      obtain ⟨value, -, rfl⟩ := BodyLength.eq_of_select hlength
      exact ⟨_, _, rfl, .inr ⟨_, rfl, rfl⟩⟩
  | unsupported hother hhead hlength hlimits =>
      cases hread.symm.trans hother
      subst hhead
      exact ⟨_, _, rfl, .inr ⟨_, rfl, rfl⟩⟩
  | bodiless hother hhead hlength hempty =>
      cases hread.symm.trans hother
      subst hhead
      exact ⟨_, _, rfl, .inl rfl⟩
  | fixedBody hother hhead hlength hpos =>
      cases hread.symm.trans hother
      subst hhead
      exact ⟨_, _, rfl, .inl rfl⟩
  | chunkedBody hother hhead hlength hlimits =>
      cases hread.symm.trans hother
      subst hhead
      exact ⟨_, _, rfl, .inl rfl⟩
  | openBody hother hhead hlength =>
      cases hread.symm.trans hother
      subst hhead
      exact ⟨_, _, rfl, .inl rfl⟩

end Phase

/-- A trailer block that is closed ends the message with the fields that are kept of it, and what
follows is read from the beginning. -/
theorem Walk.run_closed_trailer {input buffer more block : Bytes} {record : List Entry} {base : Nat}
    {switches : Bool} {fields : Fields} {opened : FieldBlock} {given : List Field}
    (walk : Walk direction limits input record (.trailer switches fields opened) buffer)
    (hagrees : FieldBlock.Agrees limits base buffer opened) (hbytes : buffer ++ more = block ++ rest)
    (hread : FieldBlock.read limits.header limits.strict (block ++ rest) { charged := base } =
      (given, .complete block.length (base + weight block))) :
    Phase.run direction limits (.trailer switches fields opened) (block ++ rest) =
      (Phase.run direction limits (.afterMessage switches) rest).after
        [.last { trailers := ⟨given.filter (!·.frames)⟩ }] := by
  obtain ⟨other, taken, hfields, hresumes⟩ := walk.gathers
  have hall := hresumes more
  have houtcome := hagrees more
  rw [hbytes] at hall houtcome
  rw [hread] at houtcome
  obtain rfl : other = base :=
    FieldBlock.base_eq_of_complete ((congrArg Prod.snd hall).trans houtcome.symm)
  rw [hread, Prod.mk.injEq] at hall
  have hkept : fields.append (Phase.keptTrailers
      (opened.read limits.header limits.strict (block ++ rest)).1) =
        ⟨Phase.keptTrailers given⟩ := by
    rw [hall.1, Fields.append, hfields, Phase.keptTrailers, Phase.keptTrailers,
      Phase.keptTrailers, List.filter_append]
  rw [Phase.run_of_proceed (Phase.Move.trailerEnds (Prod.ext rfl houtcome.symm)).step_eq,
    List.drop_left, hkept]
  rfl

/-! ## Connections -/

namespace Connection

variable {new : Connection}

/-- What every new connection makes of a block that comes behind a start line, if it has room for the
block, and checks fields or not as told: its first report is the head with these fields, which is
refused for the given fault in them if there is one. -/
def HeaderGives (strict : Bool) (block rest : Bytes) (fields : List Field) (fault? : Option Fault) :
    Prop :=
  ∀ {direction limits fresh} {first : StartLine} {text : Bytes},
    start direction limits = .ok fresh → limits.strict = strict → weight block ≤ limits.header →
    first.StandsOn direction limits text →
    ∃ event later, (fresh.push (endLine text ++ (block ++ rest))).2 = event :: later ∧
      event.Reports { startLine := first, fields := ⟨fields⟩ } fault?

variable {strict : Bool} {block : Bytes} {given : List Field}

/-- A block that is closed wherever there is room for it. -/
theorem headerGives_of_complete (hread : ∀ {base limit : Nat}, base + weight block ≤ limit →
    FieldBlock.read limit strict (block ++ rest) { charged := base } =
      (given, .complete block.length (base + weight block))) :
    HeaderGives strict block rest given none := by
  intro direction limits fresh first text hstart hstrict hle htext
  have hblock := @hread 0 limits.header (by rw [Nat.zero_add]; exact hle)
  rw [← hstrict] at hblock
  obtain ⟨event, later, hevents, hreports⟩ :=
    (Phase.step_move direction limits (.header first {} {}) (block ++ rest)).reports_head hblock
  obtain ⟨further, hfurther⟩ :=
    Phase.step_events_isPrefix direction limits (.header first {} {}) (block ++ rest)
  rw [hevents] at hfurther
  refine ⟨event, later ++ further, ?_, hreports⟩
  rw [start_push hstart, Phase.run_line htext.read htext.ends htext.opens htext.fits]
  exact hfurther.symm

/-- A block that is refused wherever there is room for it. -/
theorem headerGives_of_refused {cause : Fault} (hcause : cause.inField = true)
    (hread : ∀ {base limit : Nat}, base + weight block ≤ limit →
      FieldBlock.read limit strict (block ++ rest) { charged := base } =
        (given, .refused cause)) :
    HeaderGives strict block rest given (some cause) := by
  intro direction limits fresh first text hstart hstrict hle htext
  have hblock := @hread 0 limits.header (by rw [Nat.zero_add]; exact hle)
  rw [← hstrict] at hblock
  refine ⟨_, [], ?_, hcause, rfl⟩
  rw [start_push hstart, Phase.run_line htext.read htext.ends htext.opens htext.fits,
    Phase.run_refused_header (fun more => rfl) hblock]

/-- The trailers of a message that is complete at the position `read'`: the fields that a trailer block
gives as a header block, but for those that say how a message is framed. -/
def TrailersGiven (limits : Limits) (input : Bytes) (read read' : Nat) (trailers : Fields) : Prop :=
  ∃ sizes block given,
    Chunked.Reaches (input.drop read) sizes (some 0) (block ++ input.drop read') ∧
    FieldBlock.Whole block (input.drop read') ∧
    HeaderGives limits.strict block (input.drop read') given none ∧
    trailers.toList = given.filter (!·.frames)

/-- What becomes of a message with a trailer block that `front` and `more` bring to a connection: it is
complete with the trailers that the block gives as a header block, or it is refused for the fault for which
the header block would be refused. `later` is reported of what follows. -/
def GivesTrailers (connection : Connection) (strict : Bool) (front more block rest : Bytes)
    (later : List Event) : Prop :=
  (∃ given, HeaderGives strict block rest given none ∧
    connection.Gives (front ++ more) ((connection.push front).2 ++
      .last { trailers := ⟨given.filter (!·.frames)⟩ } :: later)) ∨
  ∃ given cause, HeaderGives strict block rest given (some cause) ∧
    connection.RefusesWith front more (.refusedContent cause)

/-- An open trailer block, where it is whole with the bytes `more`. -/
theorem givesTrailers_after (hstart : start direction limits = .ok new) (earlier : List Call)
    (front more : Bytes) {switches : Bool} {fields : Fields} {opened : FieldBlock} {base : Nat}
    (hphase : (new.after (earlier ++ [.push front])).phase = .trailer switches fields opened)
    (hagrees : FieldBlock.Agrees limits base (new.after (earlier ++ [.push front])).buffer opened)
    {block rest : Bytes} (hbytes : (new.after (earlier ++ [.push front])).buffer ++ more = block ++ rest)
    (hwhole : FieldBlock.Whole block rest) (hle : base + weight block ≤ limits.header) :
    (new.after earlier).GivesTrailers limits.strict front more block rest
      ((Phase.afterMessage switches).run direction limits rest).events := by
  have hwalk := start_walk hstart (earlier ++ [.push front])
  rw [hphase] at hwalk
  -- the block is read as it would be behind a start line, under another charge
  rcases hwhole.read_cases limits.strict with ⟨given, hread⟩ | ⟨given, cause, hcause, hread⟩
  · refine .inl ⟨given, headerGives_of_complete hread, ?_⟩
    have hgives := gives_after hstart earlier front more
    simp only at hgives
    rw [hphase, hbytes, hwalk.run_closed_trailer hagrees hbytes (hread hle)] at hgives
    exact hgives
  · refine .inr ⟨given, cause, headerGives_of_refused hcause hread, ?_⟩
    apply refusesWith_after hstart
    have hrefused := hread hle
    rw [← hbytes] at hrefused
    rw [hphase]
    exact Phase.run_refused_trailer (hagrees.append more) hrefused

/-- The trailers of chunked messages are the fields that every new connection reads off the same bytes,
if they come behind a start line, in the same order and with all duplicates, but for the fields that say
how a message is framed.

This holds of every chunked message that is complete, however its connection is used. And every trailer
block for which the header block has left room is read in this way, whatever pieces it comes in, and
whatever follows it is read from the beginning; or else a new connection would refuse it for one of its
fields, and the message is refused for the same cause, which is the last report. -/
theorem trailers_like_headers (hstart : start direction limits = .ok new) :
    (∀ (calls : List Call) before read head middle read' ending later,
      new.record 0 calls =
        before ++ .report read (.head head) :: (middle ++ .report read' (.last ending) :: later) →
      (Course.follow middle).outcome = .unfinished →
      BodyLength.select direction head = .ok .chunked →
      TrailersGiven limits (calls.flatMap Call.bytes) read read' ending.trailers) ∧
    ∀ (earlier : List Call) (front : Bytes) switches fields opened,
      let here := new.after (earlier ++ [.push front])
      here.phase = .trailer switches fields opened →
      ∃ header,
        InTrailer direction limits ((earlier ++ [Call.push front]).flatMap Call.bytes)
          (new.record 0 (earlier ++ [.push front])) header here.buffer ∧
        ∀ more block rest, here.buffer ++ more = block ++ rest → FieldBlock.Whole block rest →
          weight header + weight block ≤ limits.header →
          (new.after earlier).GivesTrailers limits.strict front more block rest
            ((Phase.afterMessage switches).run direction limits rest).events := by
  constructor
  · intro calls before read head middle read' ending later hrecord hunfinished hchunked
    obtain ⟨sizes, written, mark, given, hreaches, hwritten, hfields, htrailers⟩ :=
      (start_walk hstart calls).trailer_written hrecord hunfinished hchunked
    rw [← List.append_assoc] at hreaches
    exact ⟨sizes, _, given, hreaches, hwritten.whole,
      headerGives_of_complete (hwritten.read_ok hfields), htrailers⟩
  · intro earlier front switches fields opened here hphase
    have hwalk := start_walk hstart (earlier ++ [.push front])
    rw [hphase] at hwalk
    obtain ⟨header, hin, -, hagrees⟩ := hwalk.inTrailer
    refine ⟨header, hin, ?_⟩
    intro more block rest hbytes hwhole hle
    exact givesTrailers_after hstart earlier front more hphase hagrees hbytes hwhole hle

/-- A trailer with framing fields and a folded field. Behind a start line a new connection refuses the
length that it declares, and in the trailer two of its fields are left. Another trailer is refused for a
value, as it would be behind a start line. -/
theorem trailers_like_headers_with_framing :
    let new : Connection := { reader := ⟨.request, {}, by decide, .idle, false⟩ }
    let opening := toBytes "PUT / HTTP/1.1\nTransfer-Encoding: chunked\n\n0\n"
    let head : Head :=
      { startLine := .request "PUT" "/" .http11, fields := ⟨[⟨"Transfer-Encoding", "chunked"⟩]⟩ }
    let block := toBytes "TRAILER : x\nA: b\n c\ncontent-length: z\na:d\n\n"
    let refused := toBytes "A: \x00\n\n"
    let given : List Field :=
      [⟨"TRAILER", "x"⟩, ⟨"A", "b c"⟩, ⟨"content-length", "z"⟩, ⟨"a", "d"⟩]
    start .request {} = .ok new ∧
      (new.push (endLine (toBytes "GET / HTTP/1.1") ++ (block ++ []))).2 =
        [.refusedHead { startLine := .request "GET" "/" .http11, fields := ⟨given⟩ }
          (.invalidContentLength "z")] ∧
      new.Gives (opening ++ block)
        [.head head, .last { trailers := ⟨[⟨"A", "b c"⟩, ⟨"a", "d"⟩]⟩ }] ∧
      ∃ cause, cause.inField = true ∧
        new.EndsWith (opening ++ refused) [.head head, .refusedContent cause] := by
  intro new opening head block refused given
  have hstart : start .request {} = .ok new := rfl
  have hopening : new.push opening =
      (⟨⟨.request, {}, by decide, .trailer false {} { charged := 26 }, false⟩, []⟩, [.head head]) := by
    decide +kernel
  have hfirst : (StartLine.request "GET" "/" .http11).StandsOn .request {}
      (toBytes "GET / HTTP/1.1") :=
    ⟨by decide +kernel, by decide +kernel, ⟨_, _, rfl, by decide +kernel⟩, by decide +kernel⟩
  have hblock : FieldBlock.Whole block [] := by
    refine ⟨[⟨toBytes "TRAILER : x", [lf]⟩, ⟨toBytes "A: b", [lf]⟩, ⟨toBytes " c", [lf]⟩,
      ⟨toBytes "content-length: z", [lf]⟩, ⟨toBytes "a:d", [lf]⟩], [lf], by decide +kernel,
      ?_, .ofLf _⟩
    refine .cons (by decide +kernel) (by decide +kernel) (.ofLf _) ?_
    refine .cons (by decide +kernel) (by decide +kernel) (.ofLf _) ?_
    refine .cons (by decide +kernel) (by decide +kernel) (.ofLf _) ?_
    refine .cons (by decide +kernel) (by decide +kernel) (.ofLf _) ?_
    exact .cons (by decide +kernel) (by decide +kernel) (.ofLf _) .nil
  have hrefused : FieldBlock.Whole refused [] :=
    ⟨[⟨toBytes "A: \x00", [lf]⟩], [lf], by decide +kernel,
      .cons (by decide +kernel) (by decide +kernel) (.ofLf _) .nil, .ofLf _⟩
  obtain ⟨-, htrailers⟩ := trailers_like_headers hstart
  obtain ⟨header, hin, htrailer⟩ :=
    htrailers [] opening false {} { charged := 26 } (congrArg (·.1.phase) hopening)
  have hfits : ∀ {bytes : Bytes}, bytes.length ≤ 64 → weight header + weight bytes ≤ 8192 := by
    intro bytes hbytes
    calc weight header + weight bytes
        ≤ 64 + 64 := Nat.add_le_add (Nat.le_trans hin.weight_le (by decide +kernel))
          (Nat.le_trans List.countP_le_length hbytes)
      _ ≤ 8192 := by decide
  have hbuffer : ∀ more : Bytes, (new.push opening).1.buffer ++ more = more ++ [] := by
    intro more
    rw [hopening, List.append_nil]
    rfl
  have hread : (new.push (endLine (toBytes "GET / HTTP/1.1") ++ (block ++ []))).2 =
      [.refusedHead { startLine := .request "GET" "/" .http11, fields := ⟨given⟩ }
        (.invalidContentLength "z")] := by
    decide +kernel
  refine ⟨hstart, hread, ?_, ?_⟩
  · rcases htrailer block block [] (hbuffer block) hblock (hfits (by decide +kernel)) with
      ⟨given', hheader, hgives⟩ | ⟨given', cause, hheader, -⟩
    · obtain ⟨event, later, hevents, hreports⟩ := hheader hstart rfl (by decide +kernel) hfirst
      obtain ⟨rfl, rfl⟩ := List.cons.inj (hread.symm.trans hevents)
      obtain rfl : given = given' := by
        rcases hreports with hhead | ⟨cause, -, hhead⟩
        · cases hhead
        · cases hhead
          rfl
      have hkept : given.filter (!·.frames) = [⟨"A", "b c"⟩, ⟨"a", "d"⟩] := by decide +kernel
      have hrest : ((Phase.afterMessage false).run .request {} []).events = [] := by decide +kernel
      simp only [after, hopening, hkept, hrest] at hgives
      exact hgives
    · obtain ⟨event, later, hevents, hcause, hreports⟩ :=
        hheader hstart rfl (by decide +kernel) hfirst
      obtain ⟨rfl, rfl⟩ := List.cons.inj (hread.symm.trans hevents)
      cases hreports
      cases hcause
  · rcases htrailer refused refused [] (hbuffer refused) hrefused (hfits (by decide +kernel)) with
      ⟨given', hheader, -⟩ | ⟨given', cause, hheader, hends⟩
    · obtain ⟨event, later, hevents, hreports⟩ := hheader hstart rfl (by decide +kernel) hfirst
      have hfault : (new.push (endLine (toBytes "GET / HTTP/1.1") ++ (refused ++ []))).2 =
          [.refusedHead { startLine := .request "GET" "/" .http11 }
            (.invalidHeaderValue "A" (String.ofList [Char.ofNat 0]))] := by
        decide +kernel
      obtain ⟨rfl, rfl⟩ := List.cons.inj (hfault.symm.trans hevents)
      rcases hreports with hhead | ⟨cause, hcause, hhead⟩
      · cases hhead
      · cases hhead
        cases hcause
    · obtain ⟨event, later, hevents, hcause, hreports⟩ :=
        hheader hstart rfl (by decide +kernel) hfirst
      simp only [RefusesWith, after, hopening] at hends
      exact ⟨cause, hcause, hends⟩

end Connection

end HttpWire

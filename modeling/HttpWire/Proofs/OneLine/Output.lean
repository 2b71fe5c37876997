import HttpWire.Proofs.Accepted
import HttpWire.Proofs.Declining
import HttpWire.Proofs.OneLine.Texts

/-!
# Lines of a report

Every text that comes with an event is on one line, whatever has arrived and whether fields are checked
or not. So an event is printed on the lines that are meant for it, one for the event and one for each
field, and nothing on the wire can pass for the line of another event.

- `Walk.oneLine_events`: the texts of the events of a step.
- `Capture.eventLines_length`, `Capture.oneLine_of_mem_eventLines`: the lines for an event.
- `Capture.splitOn_join`: the lines of a run are found again in what it prints.
- `Capture.decodeInput_history`: a capture is decoded as a history of a connection.
- `Capture.PrintedAsMeant`: every event is found again on the lines that are meant for it;
  `Capture.printedAsMeant_of_history` proves this of all that is decoded.
- `Capture.no_line_forged`: the texts of all events are on one line, and so are the lines of a run.
-/

set_option autoImplicit false

namespace HttpWire

open Text

variable {direction : Direction} {limits : Limits} {input rest : Bytes} {record : List Entry}

/-! ## The texts of an event -/

namespace Event

theorem oneLine_head {head : Head} (hfirst : ∀ text ∈ head.startLine.texts, OneLine text)
    (hfields : ∀ text ∈ head.fields.texts, OneLine text)
    (hverdict : ∀ text ∈ head.verdict.texts, OneLine text) :
    ∀ text ∈ (Event.head head).texts, OneLine text :=
  List.forall_mem_append.2 ⟨hfirst, List.forall_mem_append.2 ⟨hfields, hverdict⟩⟩

theorem oneLine_last {ending : Ending} (htrailers : ∀ text ∈ ending.trailers.texts, OneLine text)
    (hverdict : ∀ text ∈ ending.verdict.texts, OneLine text) :
    ∀ text ∈ (Event.last ending).texts, OneLine text :=
  List.forall_mem_append.2 ⟨htrailers, hverdict⟩

theorem oneLine_refusedHead {head : Head} {cause : Fault}
    (hfirst : ∀ text ∈ head.startLine.texts, OneLine text)
    (hfields : ∀ text ∈ head.fields.texts, OneLine text) (hcause : OneLine cause.message) :
    ∀ text ∈ (refusedHead head cause).texts, OneLine text :=
  List.forall_mem_cons.2 ⟨hcause,
    oneLine_head hfirst hfields (List.forall_mem_singleton.2 hcause)⟩

theorem oneLine_refusedContent {cause : Fault} (hcause : OneLine cause.message) :
    ∀ text ∈ (refusedContent cause).texts, OneLine text :=
  List.forall_mem_cons.2 ⟨hcause,
    oneLine_last (List.forall_mem_nil _) (List.forall_mem_singleton.2 hcause)⟩

theorem oneLine_placeholder (direction : Direction) {cause : Fault}
    (hcause : OneLine cause.message) :
    ∀ text ∈ (refusedHead (.placeholder direction) cause).texts, OneLine text := by
  refine oneLine_refusedHead ?_ (List.forall_mem_nil _) hcause
  cases direction with
  | request => decide
  | response => decide

end Event

/-! ## Blocks that are open -/

/-- The start line of an open header block, its fields, and what becomes of them when more of the
block is read. -/
theorem Walk.oneLine_header {first : StartLine} {fields : Fields} {block : FieldBlock}
    (h : Walk direction limits input record (.header first fields block) rest)
    {more : List Field} {outcome : FieldBlock.Outcome}
    (hread : block.read limits.header limits.strict rest = (more, outcome)) :
    (∀ text ∈ first.texts, OneLine text) ∧
      (∀ text ∈ (fields.append more).texts, OneLine text) ∧
      ∀ cause, outcome = .refused cause → OneLine cause.message := by
  obtain ⟨⟨-, line, -, -, hends, -, hfirst⟩, -⟩ := h.recalls
  have hall := h.reads_header hread
  refine ⟨StartLine.oneLine_of_read hfirst hends, ?_, ?_⟩
  · rw [Fields.oneLine_iff]
    exact FieldBlock.oneLine_of_read hall
  · rintro cause rfl
    exact FieldBlock.oneLine_message hall

theorem Walk.oneLine_opening {first : StartLine} {fields : Fields} {block : FieldBlock}
    (h : Walk direction limits input record (.header first fields block) rest)
    {more : List Field} {outcome : FieldBlock.Outcome}
    (hread : block.read limits.header limits.strict rest = (more, outcome)) {head : Head}
    (hhead : head = { startLine := first, fields := fields.append more }) :
    ∀ text ∈ (Event.head head).texts, OneLine text := by
  subst hhead
  obtain ⟨hfirst, hfields, -⟩ := h.oneLine_header hread
  exact Event.oneLine_head hfirst hfields (List.forall_mem_nil _)

theorem Walk.oneLine_trailer {switches : Bool} {fields : Fields} {block : FieldBlock}
    (h : Walk direction limits input record (.trailer switches fields block) rest)
    {more : List Field} {outcome : FieldBlock.Outcome}
    (hread : block.read limits.header limits.strict rest = (more, outcome)) :
    (∀ text ∈ (fields.append (Phase.keptTrailers more)).texts, OneLine text) ∧
      ∀ cause, outcome = .refused cause → OneLine cause.message := by
  obtain ⟨base, given, hall, hkept⟩ := h.reads_trailer hread
  refine ⟨?_, ?_⟩
  · rw [Fields.oneLine_iff, hkept]
    intro field hfield
    exact FieldBlock.oneLine_of_read hall field (List.mem_filter.1 hfield).1
  · rintro cause rfl
    exact FieldBlock.oneLine_message hall

/-! ## Steps -/

theorem Line.isLineEnd_of_found {limit charged start : Nat} {buffer : Bytes} {line : Line}
    (h : scan limit charged buffer start = .found line) :
    ∀ b ∈ line.bytes buffer, isLineEnd b = false := by
  obtain ⟨-, -, hends, -⟩ := scan_split h
  exact hends

theorem Walk.oneLine_events {phase : Phase} (walk : Walk direction limits input record phase rest)
    {next : Step} (hmove : Phase.Move direction limits phase rest next) :
    ∀ event ∈ next.events, ∀ text ∈ event.texts, OneLine text := by
  cases hmove with
  | startTooLong hline =>
      exact List.forall_mem_singleton.2
        (Event.oneLine_placeholder direction (Fault.oneLine_message rfl))
  | startRefused hline hread =>
      have hcause := StartLine.oneLine_message hread (Line.isLineEnd_of_found hline)
      exact List.forall_mem_singleton.2 (Event.oneLine_placeholder direction hcause)
  | headerRefused hread =>
      obtain ⟨hfirst, hfields, hcause⟩ := walk.oneLine_header hread
      exact List.forall_mem_singleton.2
        (Event.oneLine_refusedHead hfirst hfields (hcause _ rfl))
  | unframed hread hhead hlength =>
      subst hhead
      obtain ⟨hfirst, hfields, -⟩ := walk.oneLine_header hread
      have hcause := BodyLength.oneLine_message hlength hfields
      exact List.forall_mem_singleton.2 (Event.oneLine_refusedHead hfirst hfields hcause)
  | unsupported hread hhead hlength hlimits =>
      subst hhead
      obtain ⟨hfirst, hfields, -⟩ := walk.oneLine_header hread
      exact List.forall_mem_singleton.2
        (Event.oneLine_refusedHead hfirst hfields (Fault.oneLine_message rfl))
  | bodiless hread hhead hlength hempty =>
      exact List.forall_mem_cons.2 ⟨walk.oneLine_opening hread hhead,
        List.forall_mem_singleton.2 (List.forall_mem_nil _)⟩
  | fixedBody hread hhead hlength hpos =>
      exact List.forall_mem_singleton.2 (walk.oneLine_opening hread hhead)
  | chunkedBody hread hhead hlength hlimits =>
      exact List.forall_mem_singleton.2 (walk.oneLine_opening hread hhead)
  | openBody hread hhead hlength =>
      exact List.forall_mem_singleton.2 (walk.oneLine_opening hread hhead)
  | sizeTooLong hline =>
      exact List.forall_mem_singleton.2
        (Event.oneLine_refusedContent (Fault.oneLine_message rfl))
  | sizeRefused hline hsize =>
      have hcause := Chunked.oneLine_message hsize (Line.isLineEnd_of_found hline)
      exact List.forall_mem_singleton.2 (Event.oneLine_refusedContent hcause)
  | trailerRefused hread =>
      obtain ⟨-, hcause⟩ := walk.oneLine_trailer hread
      exact List.forall_mem_singleton.2 (Event.oneLine_refusedContent (hcause _ rfl))
  | trailerEnds hread =>
      obtain ⟨htrailers, -⟩ := walk.oneLine_trailer hread
      exact List.forall_mem_singleton.2 (Event.oneLine_last htrailers (List.forall_mem_nil _))
  | _ =>
      first
        | exact List.forall_mem_nil _
        | exact List.forall_mem_singleton.2 (List.forall_mem_nil _)

theorem Walk.oneLine_atClose {phase : Phase} (walk : Walk direction limits input record phase rest)
    {event : Event} (h : phase.atClose = some event) : ∀ text ∈ event.texts, OneLine text := by
  have hclosure : ∀ missing, OneLine (Fault.prematureClosure missing).message :=
    fun missing => Fault.oneLine_message rfl
  cases phase with
  | header first fields block =>
      cases h
      obtain ⟨hfirst, hfields, -⟩ := walk.oneLine_header rfl
      rw [Fields.oneLine_iff, Fields.toList_append] at hfields
      have hkept := Fields.oneLine_iff.2 (List.forall_mem_append.1 hfields).1
      exact Event.oneLine_refusedHead hfirst hkept (hclosure _)
  | untilClose =>
      cases h
      exact List.forall_mem_nil _
  | _ =>
      first
        | (cases h; exact Event.oneLine_refusedContent (hclosure _))
        | cases h

theorem Connection.start_of_valid (direction : Direction) (valid : limits.Valid) :
    start direction limits = .ok { reader := { direction, limits, valid } } := by
  have hcheck : limits.check = .ok ⟨limits, valid⟩ := by
    unfold Limits.check
    split
    · rename_i ceiling hceiling
      rw [Limits.zeroCeiling?_eq_none_iff.2 valid] at hceiling
      cases hceiling
    · rfl
  rw [start, Reader.start, hcheck]

/-- The texts of every event of a connection, however it is used. -/
theorem Connection.oneLine_of_mem_events {new : Connection}
    (hstart : start direction limits = .ok new) (calls : List Call) {event : Event}
    (hevent : event ∈ new.events calls) : ∀ text ∈ event.texts, OneLine text := by
  obtain ⟨_, _, _, _, walk, hstep | hclose⟩ := exists_move_of_event hstart calls hevent
  · exact walk.oneLine_events (Phase.step_move _ _ _ _) event hstep
  · exact walk.oneLine_atClose hclose

/-! ## What is printed -/

/-- The fields that are printed with an event. -/
def Event.listed : Event → List Field
  | .head opening => opening.fields.toList
  | .last ending => ending.trailers.toList
  | .body _ => []
  | .failure _ _ => []
  | .raw _ => []

namespace Capture

/-- An event is printed on one line, and each of its fields on one more. -/
theorem eventLines_length (event : Event) :
    (eventLines event).length = 1 + event.listed.length := by
  cases event with
  | head opening => simp only [eventLines, fieldLines, List.length_cons, List.length_map,
      Event.listed, Nat.add_comm]
  | last ending => simp only [eventLines, fieldLines, List.length_cons, List.length_map,
      Event.listed, Nat.add_comm]
  | failure cause spoiled => cases spoiled <;> rfl
  | body data => rfl
  | raw data => rfl

theorem oneLine_fieldLines {indent : String} {fields : Fields} (hindent : OneLine indent)
    (hfields : ∀ text ∈ fields.texts, OneLine text) :
    ∀ line ∈ fieldLines indent fields, OneLine line := by
  have hcolon : OneLine ": " := by decide
  rw [fieldLines, List.forall_mem_map]
  intro field hfield
  obtain ⟨hname, hvalue⟩ := Fields.oneLine_iff.1 hfields field hfield
  simp only [oneLine_append_iff, hindent, hname, hcolon, hvalue, and_self]

theorem oneLine_amount {label : String} (hlabel : OneLine label) (data : Bytes) :
    OneLine (label ++ amount data) := by
  have hbytes : OneLine " bytes" := by decide
  simp only [amount, oneLine_append_iff, hlabel, oneLine_decimal, hbytes, and_self]

theorem oneLine_of_mem_eventLines {event : Event} (h : ∀ text ∈ event.texts, OneLine text) :
    ∀ line ∈ eventLines event, OneLine line := by
  cases event with
  | head opening =>
      obtain ⟨hfirst, hothers⟩ := List.forall_mem_append.1 h
      obtain ⟨hfields, -⟩ := List.forall_mem_append.1 hothers
      exact List.forall_mem_cons.2
        ⟨oneLine_append_iff.2 ⟨by decide, StartLine.oneLine_text hfirst⟩,
          oneLine_fieldLines (by decide) hfields⟩
  | body data => exact List.forall_mem_singleton.2 (oneLine_amount (by decide) data)
  | last ending =>
      obtain ⟨htrailers, -⟩ := List.forall_mem_append.1 h
      exact List.forall_mem_cons.2 ⟨oneLine_amount (by decide) ending.data,
        oneLine_fieldLines (by decide) htrailers⟩
  | failure cause spoiled =>
      obtain ⟨hcause, hspoiled⟩ := List.forall_mem_cons.1 h
      have hmessage : OneLine ("error " ++ cause.message) :=
        oneLine_append_iff.2 ⟨by decide, hcause⟩
      cases spoiled with
      | head opening =>
          have hfirst := StartLine.oneLine_text (List.forall_mem_append.1 hspoiled).1
          refine List.forall_mem_singleton.2 (oneLine_append_iff.2 ⟨?_, by decide⟩)
          refine oneLine_append_iff.2 ⟨?_, hfirst⟩
          exact oneLine_append_iff.2 ⟨hmessage, by decide⟩
      | content ending =>
          exact List.forall_mem_singleton.2 (oneLine_append_iff.2 ⟨hmessage, by decide⟩)
  | raw data => exact List.forall_mem_singleton.2 (oneLine_amount (by decide) data)

/-- Lines that are printed one after the other are found again between the line feeds. -/
theorem splitOn_join {lines : List String} (h : ∀ line ∈ lines, OneLine line) :
    (String.join (lines.map (· ++ "\n"))).toList.splitOn '\n' =
      lines.map String.toList ++ [[]] := by
  induction lines with
  | nil => rfl
  | cons line lines ih =>
      obtain ⟨hline, hlines⟩ := List.forall_mem_cons.1 h
      have hnot : '\n' ∉ line.toList := fun hmem => Bool.noConfusion (hline '\n' hmem)
      have hjoin : (String.join ((line :: lines).map (· ++ "\n"))).toList =
          line.toList ++ '\n' :: (String.join (lines.map (· ++ "\n"))).toList := by
        simp only [List.map_cons, String.toList_join, List.flatMap_cons, String.toList_append,
          List.append_assoc]
        rfl
      rw [hjoin, List.splitOn_append_cons_self_of_not_mem hnot, ih hlines]
      rfl

/-- The events of a run are those of a history of its connection. -/
theorem decode_history (declines : Bool) (connection : Connection) (slices : List Bytes) :
    ∃ calls, (decode declines connection slices).1 = connection.events calls := by
  induction slices generalizing connection with
  | nil =>
      refine ⟨[.close], ?_⟩
      rw [decode_nil, Connection.events, Connection.events, List.append_nil]
      rfl
  | cons slice slices ih =>
      obtain ⟨calls, hcalls⟩ := ih (pushSlice declines connection slice).1
      rw [decode_cons, hcalls]
      by_cases hasks : (declines && (connection.push slice).2.any asksLeave) = true
      · refine ⟨.push slice :: .declineBody :: calls, ?_⟩
        simp only [pushSlice, hasks, if_true, Connection.events, Connection.call, List.nil_append]
      · refine ⟨.push slice :: calls, ?_⟩
        simp only [pushSlice, hasks, Connection.events, Connection.call]
        rfl

/-- The events of a capture that has been read are those of a history of a new connection. -/
theorem decodeInput_history (direction : Direction) (declines : Bool) {limits : Limits}
    (valid : limits.Valid) (size : Nat) (input : Bytes) :
    ∃ new calls left, Connection.start direction limits = .ok new ∧
      decodeInput direction declines limits valid size input =
        .reported (new.events calls) left := by
  obtain ⟨calls, hcalls⟩ :=
    decode_history declines { reader := { direction, limits, valid } } (slices size input)
  exact ⟨_, calls, _, Connection.start_of_valid direction valid,
    congrArg (Outcome.reported · _) hcalls⟩

/-- What a run reports is what it decodes, whatever its arguments say. -/
theorem decodeInput_of_run {readFile : String → Except FileFault Bytes}
    {readInput : Except FileFault Bytes} {args : List String} {events : List Event} {left : Nat}
    (h : Id.run (run readFile readInput args) = .reported events left) :
    ∃ direction declines limits, ∃ valid : limits.Valid, ∃ size input,
      decodeInput direction declines limits valid size input = .reported events left := by
  unfold run at h
  split at h
  · cases h
  · rename_i options _
    by_cases hsize : options.sliceSize.getD defaultSliceSize = 0
    · simp only [hsize, if_true] at h
      cases h
    · simp only [hsize, if_false] at h
      cases hsettings : options.settings <;> cases hinput : options.input
      all_goals
        simp only [hsettings, hinput, Id.run_bind, Id.run_pure, Id.run_map] at h
        split at h
        · cases h
        · simp only [Id.run_bind] at h
          split at h
          · cases h
          · exact ⟨_, _, _, _, _, _, h⟩

/-- Events that are printed as they are meant to be. Between the line feeds of the output stand the lines
for the events, one for each event and one for each field that comes with it. -/
structure PrintedAsMeant (events : List Event) (left : Nat) : Prop where
  lines : (Outcome.reported events left).output.toList.splitOn '\n' =
    (events.flatMap eventLines).map String.toList ++ [[]]
  length : ∀ event ∈ events, (eventLines event).length = 1 + event.listed.length
  oneLine : ∀ event ∈ events, ∀ line ∈ eventLines event, OneLine line

theorem printedAsMeant_of_history {new : Connection}
    (hstart : Connection.start direction limits = .ok new) (calls : List Call) (left : Nat) :
    PrintedAsMeant (new.events calls) left := by
  have hlines : ∀ event ∈ new.events calls, ∀ line ∈ eventLines event, OneLine line :=
    fun event hevent =>
      oneLine_of_mem_eventLines (Connection.oneLine_of_mem_events hstart calls hevent)
  exact ⟨splitOn_join (List.forall_mem_flatMap.2 hlines), fun event _ => eventLines_length event,
    hlines⟩

/-- No line break leaves a connection in a text, and no line of a run is forged.

However a connection is used, and whether it checks fields or not, all texts of what it reports are on
one line: methods, targets, reasons and versions, the names and values of header and trailer fields,
and the wording of faults. So whatever a capture holds, and however it is decoded, its events are printed
on the lines that are meant for them; and a run prints nothing else, whatever its arguments are. -/
theorem no_line_forged :
    (∀ direction limits new, Connection.start direction limits = .ok new →
      ∀ (calls : List Call), ∀ event ∈ new.events calls, ∀ text ∈ event.texts, OneLine text) ∧
    (∀ direction declines limits (valid : limits.Valid) size input, ∃ events left,
      decodeInput direction declines limits valid size input = .reported events left ∧
        PrintedAsMeant events left) ∧
    ∀ (readFile : String → Except FileFault Bytes) (readInput : Except FileFault Bytes)
      (args : List String) (events : List Event) (left : Nat),
      Id.run (run readFile readInput args) = .reported events left →
        PrintedAsMeant events left := by
  refine ⟨?_, ?_, ?_⟩
  · intro direction limits new hstart calls event hevent
    exact Connection.oneLine_of_mem_events hstart calls hevent
  · intro direction declines limits valid size input
    obtain ⟨new, calls, left, hstart, houtcome⟩ :=
      decodeInput_history direction declines valid size input
    exact ⟨_, left, houtcome, printedAsMeant_of_history hstart calls left⟩
  · intro readFile readInput args events left hrun
    obtain ⟨direction, declines, limits, valid, size, input, houtcome⟩ := decodeInput_of_run hrun
    obtain ⟨new, calls, left', hstart, hreported⟩ :=
      decodeInput_history direction declines valid size input
    obtain ⟨rfl, rfl⟩ := Outcome.reported.inj (houtcome.symm.trans hreported)
    exact printedAsMeant_of_history hstart calls left

/-- A line that looks like one for another head continues a field, and is printed with that field. -/
theorem no_line_forged_by_folding :
    let capture := toBytes "GET /a HTTP/1.1\r\nA: x\r\n head  GET /b HTTP/1.1\r\n\r\n"
    let new : Connection := { reader := ⟨.request, { strict := false }, by decide, .idle, false⟩ }
    let head : Head :=
      { startLine := .request "GET" "/a" .http11
        fields := ⟨[⟨"A", "x head  GET /b HTTP/1.1"⟩]⟩ }
    let events : List Event := [.head head, .last {}]
    Connection.start .request { strict := false } = .ok new ∧
      .head head ∈ new.events [.push capture] ∧ (∀ text ∈ head.texts, OneLine text) ∧
      Id.run (run (fun _ => .error .missing) (.ok capture) ["--lenient-headers"]) =
        .reported events 0 ∧
      (Outcome.reported events 0).output.toList.splitOn '\n' =
        ["head  GET /a HTTP/1.1", "      A: x head  GET /b HTTP/1.1", "last  0 bytes", ""].map
          String.toList := by
  intro capture new head events
  have hstart : Connection.start .request { strict := false } = .ok new := rfl
  have hhead : .head head ∈ new.events [.push capture] := by decide +kernel
  have hrun : Id.run (run (fun _ => .error .missing) (.ok capture) ["--lenient-headers"]) =
      .reported events 0 := by decide +kernel
  obtain ⟨htexts, -, hruns⟩ := no_line_forged
  refine ⟨hstart, hhead, htexts _ _ new hstart _ _ hhead, hrun, ?_⟩
  rw [(hruns _ _ _ _ _ hrun).lines]
  decide +kernel

end Capture

end HttpWire

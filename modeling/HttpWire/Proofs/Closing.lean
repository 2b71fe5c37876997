import HttpWire.Proofs.Forgetting
import HttpWire.Proofs.Framing
import HttpWire.Proofs.Heads
import HttpWire.Proofs.Protocol

/-!
# The end of a connection

When no more bytes will come, a message that is still open is either complete or cut short, and the
reader has to know which. A body without a declared length is complete, if it is that of a response;
every other body, and every head, is cut short. The phase decides, and it can do so because it holds
the body length that followed from the head.

- `Phase.BodyOf`: the phase goes with the head that was reported last; `Connection.bodyOf_answers`
  says that it does after all uses of a reader, whatever was put into its buffer.
- `BodyLength.Permits`: what can be reported of a body, before the connection ends and then.
- `Walk.keeps`: the reports of every message keep to what its head permits.
- `Connection.close_outcome`: what the end of a connection reports, and of which messages.
-/

set_option autoImplicit false

namespace HttpWire

/-! ## The head that a phase goes with -/

/-- The head that was reported last, after one more event. -/
def Event.opens (opening : Option Head) : Event → Option Head
  | head opened => some opened
  | body _ => opening
  | last _ => opening
  | failure _ _ => opening
  | raw _ => opening

/-- The head that was reported last. -/
def Event.opening? (events : List Event) : Option Head :=
  events.foldl opens none

namespace Phase

variable {direction : Direction} {limits : Limits} {opening : Option Head}

/-- The body that is being read, if one is, extends as the head that was reported last says. -/
def BodyOf (direction : Direction) (opening : Option Head) (phase : Phase) : Prop :=
  ∀ length, phase.bodyLength? = some length →
    ∃ head, opening = some head ∧ BodyLength.select direction head = .ok length

theorem bodyOf_of_eq_none {phase : Phase} (h : phase.bodyLength? = none) :
    phase.BodyOf direction opening := by
  intro length hlength
  rw [h] at hlength
  cases hlength

theorem bodyOf_afterMessage (switches : Bool) :
    (afterMessage switches).BodyOf direction opening := by
  cases switches <;> exact bodyOf_of_eq_none rfl

theorem Move.bodyOf {phase : Phase} {buffer : Bytes} {next : Step}
    (hmove : Move direction limits phase buffer next) (h : phase.BodyOf direction opening) :
    next.phase.BodyOf direction (next.events.foldl Event.opens opening) := by
  cases hmove with
  | bodiless hread hhead hlength hempty => exact bodyOf_afterMessage _
  | fixedBody hread hhead hlength hpos =>
      rintro _ ⟨⟩
      exact ⟨_, rfl, hlength⟩
  | chunkedBody hread hhead hlength hlimits =>
      rintro _ ⟨⟩
      exact ⟨_, rfl, hlength⟩
  | openBody hread hhead hlength =>
      rintro _ ⟨⟩
      exact ⟨_, rfl, hlength⟩
  | fixedEnds hdata hnext hremaining => exact bodyOf_afterMessage _
  | trailerEnds hread => exact bodyOf_afterMessage _
  -- a step inside a body reports no head, and any other step leads outside of bodies
  | _ => first | exact h | exact bodyOf_of_eq_none rfl

theorem run_bodyOf {phase : Phase} (buffer : Bytes) (h : phase.BodyOf direction opening) :
    (run direction limits phase buffer).phase.BodyOf direction
      ((run direction limits phase buffer).events.foldl Event.opens opening) := by
  fun_induction run direction limits phase buffer generalizing opening with
  | case1 phase buffer next again later =>
      rename_i ih
      rw [List.foldl_append]
      exact ih ((step_move direction limits phase buffer).bodyOf h)
  | case2 phase buffer next => exact (step_move direction limits phase buffer).bodyOf h

end Phase

theorem Reader.feed_bodyOf {reader : Reader} {opening : Option Head} (buffer : Bytes)
    (h : reader.phase.BodyOf reader.direction opening) :
    (reader.feed buffer).reader.phase.BodyOf reader.direction
      ((reader.feed buffer).events.foldl Event.opens opening) := by
  refine Phase.run_bodyOf buffer ?_
  unfold currentPhase
  split
  · exact Phase.bodyOf_of_eq_none rfl
  · exact h

namespace Connection

theorem use_bodyOf {connection : Connection} {opening : Option Head} (use : Use)
    (h : connection.phase.BodyOf connection.reader.direction opening) :
    (connection.use use).1.phase.BodyOf connection.reader.direction
      (((connection.use use).2.flatMap Reader.Answer.events).foldl Event.opens opening) := by
  cases use with
  | feed refill =>
      have hfeed := Reader.feed_bodyOf (refill connection.buffer) h
      simp only [Connection.use, List.flatMap_singleton]
      exact hfeed
  | close refill =>
      have hfeed := Reader.feed_bodyOf (refill connection.buffer) h
      simp only [Connection.use, List.flatMap_singleton, Reader.close]
      split
      · exact hfeed
      · exact Phase.bodyOf_of_eq_none rfl
  | requestReset => exact h
  | declineBody =>
      simp only [Connection.use, declineBody, phase, Reader.phase_declineBody]
      exact h

/-- After all uses of a reader, its phase goes with the head that was reported last. -/
theorem bodyOf_answers {connection : Connection} {opening : Option Head}
    (h : connection.phase.BodyOf connection.reader.direction opening) (uses : List Use) :
    (connection.afterUses uses).phase.BodyOf connection.reader.direction
      (((connection.answers uses).flatMap Reader.Answer.events).foldl Event.opens opening) := by
  induction uses generalizing connection opening with
  | nil => exact h
  | cons use uses ih =>
      have huse := use_bodyOf use h
      rw [← (use_reader connection use).1] at huse
      have hlater := ih huse
      rw [(use_reader connection use).1] at hlater
      simp only [afterUses, answers, List.flatMap_append, List.foldl_append]
      exact hlater

theorem start_bodyOf {direction : Direction} {limits : Limits} {new : Connection}
    (hstart : start direction limits = .ok new) (uses : List Use) (buffer : Bytes) :
    let fed := (new.afterUses uses).reader.feed buffer
    fed.reader.phase.BodyOf direction
      (Event.opening? ((new.answers uses).flatMap Reader.Answer.events ++ fed.events)) := by
  intro fed
  have hdirection : (new.afterUses uses).reader.direction = direction := by
    obtain ⟨valid, rfl⟩ := start_eq hstart
    exact (afterUses_reader _ uses).1
  have hnew : new.phase.BodyOf new.reader.direction none := by
    obtain ⟨valid, rfl⟩ := start_eq hstart
    exact Phase.bodyOf_of_eq_none rfl
  have huses := bodyOf_answers hnew uses
  rw [← (afterUses_reader new uses).1] at huses
  have hfed := Reader.feed_bodyOf buffer huses
  rw [Event.opening?, List.foldl_append, ← hdirection]
  exact hfed

end Connection

/-! ## What is reported of a body -/

/-- What can be reported of a body of some length, as long as its message is open. The connection
may have ended before, after some number of bytes. -/
inductive BodyLength.Permits (length : BodyLength) : Option Nat → Event → Prop
  | piece (data : Bytes) : Permits length none (.body data)
  /-- The body is all there. -/
  | ending (ending : Ending) (hlength : length ≠ .untilClose) : Permits length none (.last ending)
  /-- The bytes of the body are at fault. -/
  | fault {cause : Fault} (hcause : cause.isClosure = false) (hlength : length ≠ .untilClose) :
      Permits length none (.refusedContent cause)
  /-- The end of the connection is the end of the body. -/
  | closed (arrived : Nat) (hlength : length = .untilClose) :
      Permits length (some arrived) (.last {})
  /-- The end of the connection leaves a body that is not all there. -/
  | cutShort (arrived : Nat) (hlength : length ≠ .untilClose) :
      Permits length (some arrived) (.refusedContent (.prematureClosure .content))

namespace Phase

variable {direction : Direction} {limits : Limits} {phase : Phase} {length : BodyLength}

/-- A step inside a body reports at most one event, and that is permitted. -/
theorem Move.permits {buffer : Bytes} {next : Step}
    (hmove : Move direction limits phase buffer next) (h : phase.bodyLength? = some length) :
    next.events = [] ∨ ∃ event, next.events = [event] ∧ length.Permits none event := by
  cases hmove with
  | fixedEnds hdata hnext hremaining =>
      cases h
      exact .inr ⟨_, rfl, .ending _ nofun⟩
  | fixedPiece hdata hnext hremaining => exact .inr ⟨_, rfl, .piece _⟩
  | openPiece hdata hnext => exact .inr ⟨_, rfl, .piece _⟩
  | sizeTooLong hline =>
      cases h
      exact .inr ⟨_, rfl, .fault rfl nofun⟩
  | sizeRefused hline hsize =>
      cases h
      have hcause := Fault.isClosure_of_inText (Chunked.inText_of_readSize hsize)
      exact .inr ⟨_, rfl, .fault hcause nofun⟩
  | dataEnds hdata hnext hremaining => exact .inr ⟨_, rfl, .piece _⟩
  | dataPiece hdata hnext hremaining => exact .inr ⟨_, rfl, .piece _⟩
  | trailerRefused hread =>
      cases h
      have hcause := FieldBlock.isClosure_of_read (congrArg Prod.snd hread)
      exact .inr ⟨_, rfl, .fault hcause nofun⟩
  | trailerEnds hread =>
      cases h
      exact .inr ⟨_, rfl, .ending _ nofun⟩
  | _ => first | exact .inl rfl | cases h

/-- The end of a connection completes a body that ends with it, and cuts short any other. -/
theorem atClose_of_bodyLength? (h : phase.bodyLength? = some length) :
    phase.atClose = some (if length = .untilClose then .last {}
      else .refusedContent (.prematureClosure .content)) := by
  cases phase <;> cases h <;> rfl

theorem permits_atClose (h : phase.bodyLength? = some length) (arrived : Nat) :
    ∃ event, phase.atClose = some event ∧ length.Permits (some arrived) event := by
  refine ⟨_, atClose_of_bodyLength? h, ?_⟩
  split
  · exact .closed arrived ‹_›
  · exact .cutShort arrived ‹_›

theorem atClose_ne_head (phase : Phase) (head : Head) : phase.atClose ≠ some (.head head) := by
  cases phase <;> nofun

/-- A phase that serves an unfinished message knows the length of its body. -/
theorem Serves.bodyLength? {rest input : Bytes} {read : Nat} {course : Course}
    (h : phase.Serves rest input read course length) : phase.bodyLength? = some length := by
  cases length with
  | empty => exact h.elim
  | fixed length =>
      obtain ⟨⟨switches, rfl⟩, -⟩ := h
      rfl
  | chunked => exact h
  | untilClose =>
      obtain ⟨rfl, -⟩ := h
      rfl

end Phase

/-! ## The reports of a message -/

theorem Course.ended_reports (course : Course) (arrived : Nat) (events : List Event) :
    ((events.map (.report arrived)).foldl take course).ended = course.ended := by
  induction events generalizing course with
  | nil => rfl
  | cons event events ih =>
      rw [List.map_cons, List.foldl_cons, ih]
      unfold take
      split <;> first | rfl | simp_all

/-- What a body length asks of the next entry of a message. -/
def Entry.Permitted (length : BodyLength) (course : Course) : Entry → Prop
  | report _ event => course.outcome = .unfinished → length.Permits course.ended event
  | forgotten => True
  | ended _ => True

/-- A body length governs the entries that follow: each is permitted where it comes. -/
def BodyLength.Governs (length : BodyLength) (course : Course) : List Entry → Prop
  | [] => True
  | entry :: entries => entry.Permitted length course ∧ length.Governs (course.take entry) entries

namespace BodyLength

variable {length : BodyLength} {course : Course}

theorem governs_append {entries more : List Entry} :
    length.Governs course (entries ++ more) ↔
      length.Governs course entries ∧ length.Governs (entries.foldl Course.take course) more := by
  induction entries generalizing course with
  | nil => simp [Governs]
  | cons entry entries ih => simp only [List.cons_append, Governs, ih, List.foldl_cons, and_assoc]

/-- After the end of a message its length governs everything. -/
theorem governs_of_finished (h : course.outcome ≠ .unfinished) (entries : List Entry) :
    length.Governs course entries := by
  induction entries with
  | nil => trivial
  | cons entry entries ih =>
      constructor
      · cases entry with
        | report read event => exact fun hunfinished => absurd hunfinished h
        | forgotten => trivial
        | ended arrived => trivial
      · rw [Course.take_of_finished h]
        exact ih

theorem Governs.permits {before later : List Entry} {read : Nat} {event : Event}
    (h : length.Governs {} (before ++ .report read event :: later))
    (hunfinished : (Course.follow before).outcome = .unfinished) :
    length.Permits (Course.follow before).ended event :=
  (governs_append.1 h).2.1 hunfinished

end BodyLength

/-- The entries after a head keep to the length of its body: they are governed by it, and the
connection has not ended if the message is still open. -/
structure BodyLength.Keeps (length : BodyLength) (entries : List Entry) : Prop where
  governs : length.Governs {} entries
  unended : (Course.follow entries).outcome = .unfinished → (Course.follow entries).ended = none

namespace BodyLength.Keeps

variable {direction : Direction} {limits : Limits} {phase : Phase} {rest : Bytes}
  {length : BodyLength} {entries : List Entry}

theorem of_finished (h : length.Keeps entries)
    (hdone : (Course.follow entries).outcome ≠ .unfinished) (more : List Entry) :
    length.Keeps (entries ++ more) := by
  refine ⟨governs_append.2 ⟨h.governs, governs_of_finished hdone more⟩, ?_⟩
  rw [Course.follow_append, Course.foldl_take_of_finished hdone]
  exact h.unended

theorem forgotten (h : length.Keeps entries) : length.Keeps (entries ++ [.forgotten]) := by
  by_cases hunfinished : (Course.follow entries).outcome = .unfinished
  · refine ⟨governs_append.2 ⟨h.governs, trivial, trivial⟩, ?_⟩
    rw [Course.follow_append, List.foldl_cons, List.foldl_nil, Course.take_forgotten hunfinished]
    nofun
  · exact h.of_finished hunfinished _

/-- A step of the reader inside the body. -/
theorem step {next : Step} (h : length.Keeps entries)
    (hinside : (Course.follow entries).outcome = .unfinished → phase.bodyLength? = some length)
    (hmove : Phase.Move direction limits phase rest next) (arrived : Nat) :
    length.Keeps (entries ++ next.events.map (.report arrived)) := by
  by_cases hunfinished : (Course.follow entries).outcome = .unfinished
  · constructor
    · refine governs_append.2 ⟨h.governs, ?_⟩
      rcases hmove.permits (hinside hunfinished) with hevents | ⟨event, hevents, hpermits⟩
      · rw [hevents]
        trivial
      · rw [hevents]
        refine ⟨fun _ => ?_, trivial⟩
        rw [← Course.follow, h.unended hunfinished]
        exact hpermits
    · intro _
      rw [Course.follow_append, Course.ended_reports]
      exact h.unended hunfinished
  · exact h.of_finished hunfinished _

theorem closed {event : Event} (h : length.Keeps entries)
    (hinside : (Course.follow entries).outcome = .unfinished → phase.bodyLength? = some length)
    (hclose : phase.atClose = some event) (arrived read : Nat) :
    length.Keeps (entries ++ [.ended arrived, .report read event]) := by
  by_cases hunfinished : (Course.follow entries).outcome = .unfinished
  · obtain ⟨event', hevent, hpermits⟩ := Phase.permits_atClose (hinside hunfinished) arrived
    cases hclose.symm.trans hevent
    have hended := Course.take_ended hunfinished arrived
    constructor
    · refine governs_append.2 ⟨h.governs, trivial, fun _ => ?_, trivial⟩
      rw [← Course.follow, hended]
      exact hpermits
    · -- either end finishes the message
      rw [Course.follow_append, List.foldl_cons, List.foldl_cons, List.foldl_nil, hended]
      intro hopen
      cases hpermits with
      | closed hlength =>
          rw [@Course.take_last { Course.follow entries with ended := some arrived } hunfinished]
            at hopen
          cases hopen
      | cutShort hlength =>
          rw [Event.refusedContent,
            @Course.take_failure { Course.follow entries with ended := some arrived } hunfinished]
            at hopen
          cases hopen
  · exact h.of_finished hunfinished _

/-- Right after a head, nothing is reported but the end of a message without body bytes. -/
theorem opened {next : Step} {before later : List Entry} {read arrived : Nat} {head : Head}
    (hmove : Phase.Move direction limits phase rest next)
    (hentries : next.events.map (.report arrived) = before ++ .report read (.head head) :: later)
    (hselect : BodyLength.select direction head = .ok length) : length.Keeps later := by
  obtain ⟨hevent, rfl⟩ := Framed.mem_of_map_report hentries
  obtain ⟨length', hselect', -, ⟨hevents, hempty⟩ | ⟨hevents, -⟩⟩ :=
    Framed.opens hmove hevent 0 (List.drop_zero).symm
  · cases hselect'.symm.trans hselect
    rw [hevents] at hentries
    obtain ⟨-, -, rfl⟩ := Framed.cons_eq_append_cons hentries (by simp)
    refine ⟨⟨fun _ => .ending {} ?_, trivial⟩, fun _ => rfl⟩
    rcases hempty with rfl | rfl <;> nofun
  · rw [hevents] at hentries
    obtain ⟨-, -, rfl⟩ := Framed.cons_eq_append_cons hentries List.not_mem_nil
    exact ⟨trivial, fun _ => rfl⟩

end BodyLength.Keeps

theorem Walk.keeps {direction : Direction} {limits : Limits} {input rest : Bytes}
    {record : List Entry} {phase : Phase} (h : Walk direction limits input record phase rest)
    {before later : List Entry} {read : Nat} {head : Head} {length : BodyLength}
    (hrecord : record = before ++ .report read (.head head) :: later)
    (hselect : BodyLength.select direction head = .ok length) : length.Keeps later := by
  -- while the message is open, the reader is inside its body
  have hinside : ∀ {input rest : Bytes} {record middle : List Entry} {phase : Phase},
      Walk direction limits input record phase rest →
      record = before ++ .report read (.head head) :: middle →
      (Course.follow middle).outcome = .unfinished → phase.bodyLength? = some length := by
    intro input rest record middle phase walk hold hunfinished
    obtain ⟨length', hframed, -⟩ := walk.framed hold
    cases hframed.select.symm.trans hselect
    exact (hframed.serves hunfinished).bodyLength?
  induction h generalizing later with
  | start => exact absurd hrecord (by simp)
  | receive walk bytes ih => exact ih hrecord
  | forget walk ih =>
      rcases append_eq_append_cons hrecord with ⟨middle, hold, rfl⟩ | ⟨middle, -, hnew⟩
      · exact (ih hold).forgotten
      · exact absurd (congrArg (.report read (.head head) ∈ ·) hnew) (by simp)
  | @step input rest record phase walk ih =>
      have hmove := Phase.step_move direction limits phase rest
      rcases append_eq_append_cons hrecord with ⟨middle, hold, rfl⟩ | ⟨middle, -, hnew⟩
      · exact (ih hold).step (hinside walk hold) hmove _
      · exact .opened hmove hnew hselect
  | ended walk hclose ih =>
      rcases append_eq_append_cons hrecord with ⟨middle, hold, rfl⟩ | ⟨middle, -, hnew⟩
      · -- the end of the connection is reported wherever a message is open
        refine (ih hold).of_finished ?_ _
        intro hunfinished
        obtain ⟨event, hevent, -⟩ := Phase.permits_atClose (hinside walk hold hunfinished) 0
        cases hclose.symm.trans hevent
      · exact absurd (congrArg (.report read (.head head) ∈ ·) hnew) (by simp)
  | @closed input rest record phase event walk hclose hrest ih =>
      rcases append_eq_append_cons hrecord with ⟨middle, hold, rfl⟩ | ⟨middle, -, hnew⟩
      · exact (ih hold).closed (hinside walk hold) hclose _ _
      · have hmem : .report read (.head head) ∈
            [Entry.ended input.length, .report (input.length - rest.length) event] := by
          rw [hnew]
          exact List.mem_append_right middle List.mem_cons_self
        simp only [List.mem_cons, reduceCtorEq, List.not_mem_nil, or_false, false_or,
          Entry.report.injEq] at hmem
        rw [← hmem.2] at hclose
        exact absurd hclose (Phase.atClose_ne_head phase head)

/-! ## The end of a connection -/

/-- An answer after which the end of the connection is reported, and the reader is ready for
another connection. -/
def Reader.Answer.closedBy (answer : Answer) (event : Event) : Answer :=
  { answer with
    reader := { answer.reader with phase := .idle }
    events := answer.events ++ [event] }

theorem Reader.close_of_none {reader : Reader} {buffer : Bytes}
    (h : (reader.feed buffer).reader.phase.atClose = none) :
    reader.close buffer = reader.feed buffer := by
  simp only [close, h]

theorem Reader.close_of_some {reader : Reader} {buffer : Bytes} {event : Event}
    (h : (reader.feed buffer).reader.phase.atClose = some event) :
    reader.close buffer = (reader.feed buffer).closedBy event := by
  simp only [close, h]
  rfl

/-- A request has no body that ends with its connection. -/
theorem BodyLength.ne_untilClose_of_request {head : Head} {length : BodyLength}
    (h : select .request head = .ok length) : length ≠ .untilClose := by
  rintro rfl
  simp only [select, reduceCtorEq, false_and, if_false] at h
  split at h
  · cases h
  · split at h <;> cases h

namespace Connection

/-- What the end of a connection reports, after any uses of a reader, on any buffer. Everything that
has arrived is read first, with the events that a call without an end would report. The phase that is
left then decides. Between messages, after a refusal and after a switch of protocol there is nothing
more to report, and nothing changes. A head that is open is refused as cut short. A body is complete
if it ends with the connection, and cut short otherwise, where its length is the one that follows
from the head reported last. The reader is then between messages.

What the refused head holds is what has arrived: the start line stands before the block that waits,
and the fields are those that the block has completed.

So the end of the connection never completes a body of a request, of chunks or of a declared length,
and never cuts short one that ends with the connection. In every history, of every message whose
head was reported, the reports keep to the body length: a body of declared length is complete only
with all its bytes, and once the connection has ended, the report is the one that the length asks
for. -/
theorem close_outcome {direction : Direction} {limits : Limits} {new : Connection}
    (hstart : start direction limits = .ok new) :
    (∀ (uses : List Use) (buffer : Bytes),
      let reader := (new.afterUses uses).reader
      let fed := reader.feed buffer
      (fed.reader.phase ∈ [.idle, .startLine, .refused, .raw] → reader.close buffer = fed) ∧
      (∀ first fields block, fed.reader.phase = .header first fields block →
        reader.close buffer = fed.closedBy
          (.refusedHead { startLine := first, fields } (.prematureClosure .headers))) ∧
      ∀ length, fed.reader.phase.bodyLength? = some length →
        reader.close buffer = fed.closedBy
          (if length = .untilClose then .last {}
            else .refusedContent (.prematureClosure .content)) ∧
        ∃ head,
          Event.opening? ((new.answers uses).flatMap Reader.Answer.events ++ fed.events) =
            some head ∧
          BodyLength.select direction head = .ok length) ∧
    (∀ (calls : List Call) first fields block,
      ((new.after calls).push []).1.phase = .header first fields block →
      (new.after calls).close.2 = ((new.after calls).push []).2 ++
          [.refusedHead { startLine := first, fields } (.prematureClosure .headers)] ∧
        first.StandsBefore direction (calls.flatMap Call.bytes)
          ((new.after calls).push []).1.buffer ∧
        FieldBlock.read limits.header limits.strict ((new.after calls).push []).1.buffer {} =
          (fields.toList, .incomplete block)) ∧
    ∀ (calls : List Call) before read head later,
      new.record 0 calls = before ++ .report read (.head head) :: later →
      ∃ length, BodyLength.select direction head = .ok length ∧
        (direction = .request → length ≠ .untilClose) ∧
        (Course.follow later).Obeys (calls.flatMap Call.bytes) read length ∧
        ((Course.follow later).outcome = .unfinished → (Course.follow later).ended = none) ∧
        ∀ middle read' event rest, later = middle ++ .report read' event :: rest →
          (Course.follow middle).outcome = .unfinished →
            length.Permits (Course.follow middle).ended event := by
  refine ⟨?_, ?_, ?_⟩
  · intro uses buffer reader fed
    refine ⟨?_, ?_, ?_⟩
    · intro hphase
      simp only [List.mem_cons, List.not_mem_nil, or_false] at hphase
      rcases hphase with hphase | hphase | hphase | hphase <;>
        exact reader.close_of_none (by rw [hphase]; rfl)
    · intro first fields block hphase
      exact reader.close_of_some (by rw [hphase]; rfl)
    · intro length hlength
      exact ⟨reader.close_of_some (Phase.atClose_of_bodyLength? hlength),
        start_bodyOf hstart uses buffer length hlength⟩
  · intro calls first fields block hphase
    refine ⟨?_, push_header hstart calls hphase⟩
    have hfed : ((new.after calls).reader.feed (new.after calls).buffer).reader.phase =
        .header first fields block := by
      rw [← List.append_nil (new.after calls).buffer]
      exact hphase
    have hclose := call_close (new.after calls)
    rw [hfed] at hclose
    simp only [push, List.append_nil]
    exact hclose
  · intro calls before read head later hrecord
    have hwalk := start_walk hstart calls
    obtain ⟨length, hframed, -⟩ := hwalk.framed hrecord
    have hkeeps := hwalk.keeps hrecord hframed.select
    refine ⟨length, hframed.select, ?_, hframed.obeys, hkeeps.unended, ?_⟩
    · rintro rfl
      exact BodyLength.ne_untilClose_of_request hframed.select
    · rintro middle read' event rest rfl hunfinished
      exact hkeeps.governs.permits hunfinished

/-- A request is cut short inside its body, and the one that follows inside its header block. -/
theorem close_outcome_cut_short :
    let new : Connection := { reader := ⟨.request, {}, by decide, .idle, false⟩ }
    let body := Text.toBytes "POST / HTTP/1.1\r\nContent-Length: 5\r\n\r\nab"
    let head : Head :=
      { startLine := .request "POST" "/" .http11, fields := ⟨[⟨"Content-Length", "5"⟩]⟩ }
    let cutShort : Event := .refusedContent (.prematureClosure .content)
    let reader := (new.afterUses [.feed fun left => left ++ body]).reader
    let calls : List Call :=
      [.push body, .close, .push (Text.toBytes "GET / HTTP/1.1\r\nA: b\r\nC: d\r\nE")]
    let first : StartLine := .request "GET" "/" .http11
    start .request {} = .ok new ∧
      reader.close (Text.toBytes "c") = (reader.feed (Text.toBytes "c")).closedBy cutShort ∧
      new.record 0 calls = .report 38 (.head head) ::
        ([.report 40 (.body (Text.toBytes "ab")), .ended 40] ++ [.report 40 cutShort]) ∧
      (∃ length, BodyLength.select .request head = .ok length ∧
        length.Permits (some 40) cutShort) ∧
      (new.after calls).close.2 = ((new.after calls).push []).2 ++
        [.refusedHead { startLine := first, fields := ⟨[⟨"A", "b"⟩]⟩ }
          (.prematureClosure .headers)] := by
  intro new body head cutShort reader calls first
  have hstart : start .request {} = .ok new := rfl
  obtain ⟨hphases, hheads, hbodies⟩ := close_outcome hstart
  have hrecord : new.record 0 calls = [] ++ .report 38 (.head head) ::
      ([.report 40 (.body (Text.toBytes "ab")), .ended 40] ++ [.report 40 cutShort]) := by
    decide +kernel
  have hfixed : (reader.feed (Text.toBytes "c")).reader.phase.bodyLength? = some (.fixed 5) := by
    decide +kernel
  have hheader : ((new.after calls).push []).1.phase =
      .header first ⟨[⟨"A", "b"⟩]⟩ ⟨8, 12, some ⟨⟨6, 7⟩, ⟨9, 10⟩⟩⟩ := by decide +kernel
  have hclose := (hphases [.feed fun left => left ++ body] (Text.toBytes "c")).2.2 _ hfixed
  obtain ⟨length, hselect, -, -, -, hpermits⟩ := hbodies calls [] 38 head _ hrecord
  exact ⟨hstart, hclose.1, hrecord, ⟨length, hselect, hpermits _ 40 cutShort [] rfl rfl⟩,
    (hheads calls first _ _ hheader).1⟩

end Connection

end HttpWire

import HttpWire.Capture.Run
import HttpWire.Proofs.Forgetting
import HttpWire.Proofs.Framing
import HttpWire.Proofs.Protocol

/-!
# Declined bodies

A run over a capture can decline the bodies of messages whose sender waits for leave. It looks at
the heads of a slice after the whole slice was read, and what it then declines is the body that is
open by that time. This is the body of the last message of the slice, whichever message of the slice
asked for leave; of a message that was complete before, nothing is left to decline.

- `Event.Finished`: the message at hand comes to its end.
- `Stage.finished`: a message in whose body a reader is, by the automaton of the reports.
- `Capture.CalledOff`: a message that is the last of its slice and is called off with it.
- `Capture.finished_iff_not_calledOff`: the messages of a run that do not come to their end are
  those that are called off.
-/

set_option autoImplicit false

namespace HttpWire

/-! ## Messages that come to their end -/

namespace Event

/-- Whether an event belongs to the body of the message at hand. -/
def belongs : Event → Bool
  | body _ => true
  | last _ => true
  | failure _ (.content _) => true
  | failure _ (.head _) => false
  | head _ => false
  | raw _ => false

/-- Events that leave the message before them alone. -/
def Apart (events : List Event) : Prop :=
  ∀ event ∈ events.head?, event.belongs = false

/-- The events after a head with which its message comes to its end: pieces of the body, and then
either the end or a refusal, after which nothing more belongs to the message. -/
inductive Finished : List Event → Prop
  | piece {data : Bytes} {later : List Event} (h : Finished later) : Finished (.body data :: later)
  | last {ending : Ending} {later : List Event} (h : Apart later) : Finished (.last ending :: later)
  | refused {cause : Fault} {ending : Ending} {later : List Event} (h : Apart later) :
      Finished (.failure cause (.content ending) :: later)

theorem apart_nil : Apart [] := by
  rintro _ ⟨⟩

theorem apart_cons {event : Event} (h : event.belongs = false) (later : List Event) :
    Apart (event :: later) := by
  rintro _ ⟨⟩
  exact h

/-- A message of which nothing more is reported does not come to its end. -/
theorem Apart.not_finished {later : List Event} (h : Apart later) : ¬ Finished later := by
  rintro (_ | _ | _) <;> cases h _ rfl

theorem finished_pieces (pieces : List Bytes) (later : List Event) :
    Finished (pieces.map .body ++ later) ↔ Finished later := by
  induction pieces with
  | nil => exact Iff.rfl
  | cons data pieces ih =>
      constructor
      · rintro (h | _ | _)
        exact ih.1 h
      · intro h
        exact .piece (ih.2 h)

end Event

/-! ## What the automaton says of them -/

namespace Stage

open Event (Apart Finished)

variable {direction : Direction} {limits : Limits} {stage next : Stage} {read : Nat}

theorem run_report_cons {event : Event} {events : List Event}
    (h : stage.run direction limits ((event :: events).map (.report read)) = some next) :
    ∃ middle, Accepts direction limits stage event middle ∧
      middle.run direction limits (events.map (.report read)) = some next := by
  rw [List.map_cons, run_cons, Option.bind_eq_some_iff] at h
  obtain ⟨middle, hevent, hevents⟩ := h
  exact ⟨middle, afterEvent?_eq_some_iff.1 hevent, hevents⟩

/-- Where no message is open, nothing is reported that belongs to one. -/
theorem apart {events later : List Event} (hclosed : stage.isOpen = false)
    (h : stage.run direction limits (events.map (.report read)) = some next)
    (hlater : next.isOpen = false → Apart later) : Apart (events ++ later) := by
  cases events with
  | nil =>
      cases h
      exact hlater hclosed
  | cons event events =>
      obtain ⟨middle, hevent, -⟩ := run_report_cons h
      apply Event.apart_cons
      cases hevent with
      | body hdata hle => cases hclosed
      | last hverdict hle => cases hclosed
      | refusedContent hverdict => cases hclosed
      | _ => rfl

/-- Inside a body, either only pieces of it are reported, and the body stays open, or its message
comes to its end. -/
theorem finished {switches : Bool} {events : List Event}
    (h : (body switches).run direction limits (events.map (.report read)) = some next) :
    (∃ pieces : List Bytes, events = pieces.map .body ∧ next = body switches) ∨
      ∀ later, (next.isOpen = false → Apart later) → Finished (events ++ later) := by
  induction events with
  | nil =>
      cases h
      exact .inl ⟨[], rfl, rfl⟩
  | cons event events ih =>
      obtain ⟨middle, hevent, hevents⟩ := run_report_cons h
      cases hevent with
      | body hdata hle =>
          rcases ih hevents with ⟨pieces, rfl, hnext⟩ | hfinished
          · exact .inl ⟨_ :: pieces, rfl, hnext⟩
          · exact .inr fun later hlater => .piece (hfinished later hlater)
      | last hverdict hle =>
          exact .inr fun later hlater => .last (apart (isOpen_afterMessage _) hevents hlater)
      | refusedContent hverdict =>
          exact .inr fun later hlater => .refused (apart (isOpen_afterFailure _) hevents hlater)

theorem run_head {first last : List Event} {head : Head}
    (h : stage.run direction limits ((first ++ .head head :: last).map (.report read)) =
      some next) :
    ∃ switches, (body switches).run direction limits (last.map (.report read)) = some next := by
  rw [List.map_append, List.map_cons] at h
  obtain ⟨here, there, -, hhead, hlast⟩ := run_split h
  cases hhead
  exact ⟨_, hlast⟩

end Stage

theorem Phase.run_follows (direction : Direction) (limits : Limits) (phase : Phase)
    (buffer : Bytes) (read : Nat) :
    phase.stage.run direction limits
      ((run direction limits phase buffer).events.map (.report read)) =
        some (run direction limits phase buffer).phase.stage := by
  fun_induction run direction limits phase buffer with
  | case1 phase buffer next again later ih =>
      have hnext := (step_move direction limits phase buffer).follows read
      rw [List.map_append, Stage.run_append, hnext, Option.bind_some]
      exact ih
  | case2 phase buffer next again => exact (step_move direction limits phase buffer).follows read

theorem Phase.isOpen_of_atClose {phase : Phase} (h : phase.atClose = none) :
    phase.stage.isOpen = false := by
  cases phase with
  | idle => rfl
  | startLine => rfl
  | refused => rfl
  | raw => rfl
  | _ => cases h

namespace Connection

/-- The stage in which the next call begins. -/
def stage (connection : Connection) : Stage :=
  connection.reader.currentPhase.stage

theorem push_follows (connection : Connection) (bytes : Bytes) (read : Nat) :
    connection.stage.run connection.reader.direction connection.reader.limits
      ((connection.push bytes).2.map (.report read)) = some (connection.push bytes).1.phase.stage :=
  Phase.run_follows _ _ _ _ read

/-- The end of a connection leaves no message open. -/
theorem close_follows (connection : Connection) (read : Nat) :
    ∃ next : Stage, next.isOpen = false ∧
      connection.stage.run connection.reader.direction connection.reader.limits
        (connection.close.2.map (.report read)) = some next := by
  have hfollows := push_follows connection [] read
  have hclose := call_close connection
  simp only [push, List.append_nil] at hfollows
  simp only [call] at hclose
  rw [hclose, List.map_append, Stage.run_append, hfollows, Option.bind_some]
  cases hphase : (connection.reader.feed connection.buffer).reader.phase.atClose with
  | none => exact ⟨_, Phase.isOpen_of_atClose hphase, rfl⟩
  | some event => exact ⟨.idle, rfl, (Phase.atClose_accepted hphase).run_report read⟩

end Connection

/-! ## Runs over a capture -/

namespace Capture

open Event (Apart Finished)

variable {declines : Bool} {connection : Connection} {slice : Bytes} {slices : List Bytes}

theorem any_asksLeave_pieces (pieces : List Bytes) :
    (pieces.map Event.body).any asksLeave = false := by
  rw [List.any_map]
  exact List.any_eq_false.2 fun _ _ => Bool.noConfusion

theorem decode_nil (declines : Bool) (connection : Connection) :
    (decode declines connection []).1 = connection.close.2 := rfl

theorem decode_cons (declines : Bool) (connection : Connection) (slice : Bytes)
    (slices : List Bytes) :
    (decode declines connection (slice :: slices)).1 =
      (connection.push slice).2 ++
        (decode declines (pushSlice declines connection slice).1 slices).1 := by
  simp only [decode, pushSlices, pushSlice, List.append_assoc]

/-- After a slice the body at hand is forgotten if a head of the slice asked for leave. -/
theorem stage_pushSlice (declines : Bool) (connection : Connection) (slice : Bytes) :
    (pushSlice declines connection slice).1.stage =
      if declines = true ∧ (connection.push slice).2.any asksLeave = true ∧
        (connection.push slice).1.phase.canDeclineBody = true then .idle
      else (connection.push slice).1.phase.stage := by
  have hcurrent : (connection.push slice).1.reader.currentPhase = (connection.push slice).1.phase :=
    rfl
  simp only [pushSlice, Bool.and_eq_true]
  split
  · rename_i hasks
    rw [Connection.stage, Connection.declineBody, Reader.currentPhase_declineBody, hcurrent]
    simp only [hasks.1, hasks.2, true_and]
    split <;> rfl
  · rename_i hasks
    rw [if_neg fun hall => hasks ⟨hall.1, hall.2.1⟩]
    rfl

theorem isOpen_pushSlice (h : (connection.push slice).1.phase.stage.isOpen = false) :
    (pushSlice declines connection slice).1.stage.isOpen = false := by
  rw [stage_pushSlice]
  split
  · rfl
  · exact h

/-- A run that begins where no message is open leaves the message before it alone. -/
theorem apart_decode (declines : Bool) (h : connection.stage.isOpen = false)
    (slices : List Bytes) :
    Apart (decode declines connection slices).1 := by
  induction slices generalizing connection with
  | nil =>
      obtain ⟨next, -, hfollows⟩ := connection.close_follows 0
      have hapart := Stage.apart h hfollows fun _ => Event.apart_nil
      rwa [List.append_nil] at hapart
  | cons slice slices ih =>
      rw [decode_cons]
      apply Stage.apart h (connection.push_follows slice 0)
      intro hclosed
      exact ih (isOpen_pushSlice hclosed)

/-- A run that begins inside a body brings its message to its end. A head that asks for leave can
only come after that. -/
theorem finished_decode (declines : Bool) {switches : Bool}
    (h : connection.stage = .body switches) (slices : List Bytes) :
    Finished (decode declines connection slices).1 := by
  induction slices generalizing connection with
  | nil =>
      obtain ⟨next, hclosed, hfollows⟩ := connection.close_follows 0
      rw [h] at hfollows
      rcases Stage.finished hfollows with ⟨pieces, -, rfl⟩ | hfinished
      · cases hclosed
      · have hall := hfinished [] fun _ => Event.apart_nil
        rwa [List.append_nil] at hall
  | cons slice slices ih =>
      have hfollows := connection.push_follows slice 0
      rw [h] at hfollows
      rw [decode_cons]
      rcases Stage.finished hfollows with ⟨pieces, hpieces, hstage⟩ | hfinished
      · rw [hpieces, Event.finished_pieces]
        apply ih
        rw [stage_pushSlice, hpieces, if_neg ?_, hstage]
        rintro ⟨-, hasks, -⟩
        rw [any_asksLeave_pieces] at hasks
        cases hasks
      · apply hfinished
        intro hclosed
        exact apart_decode declines (isOpen_pushSlice hclosed) slices

/-! ## Messages that are called off -/

/-- A message that a run calls off, by what the run reports before its head: it is the last message
of a slice, its body is open at the end of the slice, at a point where it can be called off, and its
sender or that of a message before it in the slice waits for leave. -/
inductive CalledOff (declines : Bool) : Connection → List Bytes → List Event → Head → Prop
  /-- The message is called off after the first slice. -/
  | now {connection : Connection} {slice : Bytes} {slices pieces : List Bytes}
      {before : List Event} {head : Head} (hdeclines : declines = true)
      (hpush : (connection.push slice).2 = before ++ .head head :: pieces.map .body)
      (hasks : (before ++ [Event.head head]).any asksLeave = true)
      (hopen : (connection.push slice).1.phase.canDeclineBody = true) :
      CalledOff declines connection (slice :: slices) before head
  /-- The message is called off after a later slice. -/
  | later {connection : Connection} {slice : Bytes} {slices : List Bytes} {before : List Event}
      {head : Head}
      (h : CalledOff declines (pushSlice declines connection slice).1 slices before head) :
      CalledOff declines connection (slice :: slices) ((connection.push slice).2 ++ before) head

/-- A message whose head is reported with the first slice is called off after it or never. -/
theorem calledOff_iff {before middle : List Event} {head : Head}
    (hpush : (connection.push slice).2 = before ++ .head head :: middle) :
    CalledOff declines connection (slice :: slices) before head ↔
      (∃ pieces : List Bytes, middle = pieces.map .body) ∧ declines = true ∧
        (connection.push slice).2.any asksLeave = true ∧
        (connection.push slice).1.phase.canDeclineBody = true := by
  constructor
  · intro h
    cases h with
    | @now _ _ _ pieces _ _ hdeclines hpush' hasks hopen =>
        rw [hpush'] at hpush
        cases List.append_cancel_left hpush
        refine ⟨⟨pieces, rfl⟩, hdeclines, ?_, hopen⟩
        rw [hpush', List.append_cons, List.any_append, hasks, Bool.true_or]
    | later h =>
        -- what comes before the head would hold the head itself
        have hlength := congrArg List.length hpush
        simp only [List.length_append, List.length_cons] at hlength
        omega
  · rintro ⟨⟨pieces, rfl⟩, hdeclines, hasks, hopen⟩
    apply CalledOff.now hdeclines hpush ?_ hopen
    rwa [hpush, List.append_cons, List.any_append, any_asksLeave_pieces, Bool.or_false] at hasks

/-- A message whose head is reported after the first slice is called off later or never. -/
theorem calledOff_append {before : List Event} {head : Head} :
    CalledOff declines connection (slice :: slices) ((connection.push slice).2 ++ before) head ↔
      CalledOff declines (pushSlice declines connection slice).1 slices before head := by
  constructor
  · intro h
    generalize hall : (connection.push slice).2 ++ before = all at h
    cases h with
    | now hdeclines hpush hasks hopen =>
        have hlength := congrArg List.length hpush
        rw [← hall] at hlength
        simp only [List.length_append, List.length_cons] at hlength
        omega
    | later h =>
        rwa [List.append_cancel_left hall]
  · exact .later

/-- A message whose head is reported with the first slice comes to its end unless it is called off
after that slice. -/
theorem finished_iff_of_push {before middle : List Event} {head : Head}
    (hpush : (connection.push slice).2 = before ++ .head head :: middle) :
    Finished (middle ++ (decode declines (pushSlice declines connection slice).1 slices).1) ↔
      ¬ CalledOff declines connection (slice :: slices) before head := by
  have hfollows := connection.push_follows slice 0
  rw [hpush] at hfollows
  obtain ⟨switches, hmiddle⟩ := Stage.run_head hfollows
  rw [calledOff_iff hpush]
  rcases Stage.finished hmiddle with ⟨pieces, rfl, hopen⟩ | hfinished
  · -- the body is open when the slice ends, and is forgotten or read on
    have hstage := stage_pushSlice declines connection slice
    rw [Event.finished_pieces]
    split at hstage
    · rename_i hcalled
      have hapart := apart_decode declines (congrArg Stage.isOpen hstage) slices
      constructor
      · exact fun hfinished => absurd hfinished hapart.not_finished
      · exact fun hnot => absurd ⟨⟨pieces, rfl⟩, hcalled⟩ hnot
    · rename_i hcalled
      rw [hopen] at hstage
      constructor
      · exact fun _ hall => hcalled hall.2
      · exact fun _ => finished_decode declines hstage slices
  · constructor
    · rintro - ⟨⟨pieces, rfl⟩, -⟩
      have hpieces := hfinished [] fun _ => Event.apart_nil
      rw [Event.finished_pieces] at hpieces
      exact Event.apart_nil.not_finished hpieces
    · intro _
      apply hfinished
      intro hclosed
      exact apart_decode declines (isOpen_pushSlice hclosed) slices

/-- Of the messages of a run, those come to their end that are not called off: after the head come
pieces of the body, and then its end or a refusal, before any other head is reported. A message that
did not ask for leave itself is among those that are called off if one before it in its slice did,
and its own body is open when the slice ends. A run that declines nothing brings every message to
its end. -/
theorem finished_iff_not_calledOff (declines : Bool) (connection : Connection)
    (slices : List Bytes) {before after : List Event} {head : Head}
    (h : (decode declines connection slices).1 = before ++ .head head :: after) :
    Finished after ↔ ¬ CalledOff declines connection slices before head := by
  induction slices generalizing connection before with
  | nil =>
      obtain ⟨next, hclosed, hfollows⟩ := connection.close_follows 0
      rw [← decode_nil declines, h] at hfollows
      obtain ⟨switches, hafter⟩ := Stage.run_head hfollows
      rcases Stage.finished hafter with ⟨pieces, -, rfl⟩ | hfinished
      · cases hclosed
      · have hall := hfinished [] fun _ => Event.apart_nil
        rw [List.append_nil] at hall
        constructor
        · rintro - ⟨⟩
        · exact fun _ => hall
  | cons slice slices ih =>
      rw [decode_cons] at h
      rcases append_eq_append_cons h with ⟨middle, hpush, rfl⟩ | ⟨middle, rfl, hlater⟩
      · exact finished_iff_of_push hpush
      · rw [calledOff_append]
        exact ih _ hlater

/-- A request that asks for leave has no body, and the chunked body of the next one is open when the
slice ends. What follows of it is then read as if it were outside of a message. -/
theorem finished_iff_not_calledOff_between_chunks :
    let new : Connection := { reader := ⟨.request, {}, by decide, .idle, false⟩ }
    let slice : Bytes :=
      Text.toBytes ("GET / HTTP/1.1\r\nExpect: 100-continue\r\n\r\n" ++
        "PUT / HTTP/1.1\r\nTransfer-Encoding: chunked\r\n\r\n2\r\nok\r\n")
    let slices : List Bytes := [slice, Text.toBytes "0\r\n\r\n"]
    let asking : Head :=
      { startLine := .request "GET" "/" .http11, fields := ⟨[⟨"Expect", "100-continue"⟩]⟩ }
    let other : Head :=
      { startLine := .request "PUT" "/" .http11, fields := ⟨[⟨"Transfer-Encoding", "chunked"⟩]⟩ }
    let before : List Event := [.head asking, .last {}]
    let after : List Event := [.body (Text.toBytes "ok")]
    (decode true new slices).1 = before ++ .head other :: after ∧
      CalledOff true new slices before other ∧ ¬ Finished after := by
  intro new slice slices asking other before after
  have hdecode : (decode true new slices).1 = before ++ .head other :: after := by decide +kernel
  have hcalled : CalledOff true new slices before other := by
    have hpush : (new.push slice).2 =
        before ++ .head other :: [Text.toBytes "ok"].map .body := by decide +kernel
    exact .now rfl hpush (by decide +kernel) (by decide +kernel)
  exact ⟨hdecode, hcalled,
    fun hfinished => (finished_iff_not_calledOff true new slices hdecode).1 hfinished hcalled⟩

/-- A run that is to refuse what asks for leave drops the body of another request: the first request
asks for leave, and the second one, which does not, comes in the same slice up to its body. -/
theorem body_dropped_of_another :
    let capture : Bytes :=
      Text.toBytes ("GET /a HTTP/1.1\r\nExpect: 100-continue\r\n\r\n" ++
        "POST /b HTTP/1.1\r\nContent-Length: 5\r\n\r\nhello")
    let args : List String := ["--reject-continue", "--slice-size", "80"]
    let asking : Head :=
      { startLine := .request "GET" "/a" .http11, fields := ⟨[⟨"Expect", "100-continue"⟩]⟩ }
    let other : Head :=
      { startLine := .request "POST" "/b" .http11, fields := ⟨[⟨"Content-Length", "5"⟩]⟩ }
    Id.run (run (fun _ => .error .missing) (.ok capture) args) =
        .reported ([.head asking, .last {}] ++ .head other :: []) 5 ∧
      other.expectsContinue = false ∧ ¬ Finished [] := by
  intro capture args asking other
  have hrun : Id.run (run (fun _ => .error .missing) (.ok capture) args) =
      .reported ([.head asking, .last {}] ++ .head other :: []) 5 := by decide +kernel
  have hother : other.expectsContinue = false := by decide +kernel
  exact ⟨hrun, hother, Event.apart_nil.not_finished⟩

end Capture

end HttpWire

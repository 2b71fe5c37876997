import HttpWire.Proofs.Framing
import HttpWire.Proofs.Protocol

/-!
# Handing a connection over

A response that switches to another protocol hands its connection over when it is complete: every
byte after it is passed on as it came, padding and control bytes included, and nothing else is
reported. The automaton of the reports says which reports can come and in which stage the reader is;
the walk says which bytes they hold.

- `Stage.run_raw`: the raw stage is left only when the message is forgotten.
- `Stage.run_idle_reaches`: it is entered only at the end of a message that switches.
- `Walk.passes_on`: the raw bytes that are reported and those that wait are the input after the
  message.
- `Connection.switch_hands_over`: all of this for every history of a new connection.
-/

set_option autoImplicit false

namespace HttpWire

/-! ## What is passed on -/

/-- The bytes of another protocol that an entry passes on. -/
def Entry.passedOn : Entry → Bytes
  | report _ (.raw data) => data
  | report _ (.head _) => []
  | report _ (.body _) => []
  | report _ (.last _) => []
  | report _ (.failure _ _) => []
  | forgotten => []
  | ended _ => []

/-- Whether a call asks for a message to be forgotten. -/
def Call.asksToForget : Call → Bool
  | requestReset => true
  | declineBody => true
  | push _ => false
  | receive _ => false
  | close => false

/-- Whether an entry is a report of anything but raw bytes. -/
def Entry.interrupts : Entry → Bool
  | report _ (.raw _) => false
  | report _ _ => true
  | forgotten => false
  | ended _ => false

/-- A record in which a message that switches to another protocol is complete after `read` bytes.
The message is not forgotten in the entries `later` that follow its end. -/
inductive Switched : List Entry → Nat → List Entry → Prop
  | complete {before middle later : List Entry} {opened read : Nat} {head : Head} {ending : Ending}
      (hhead : head.switchesProtocol = true)
      (hmiddle : (Course.follow middle).outcome = .unfinished) (hlater : .forgotten ∉ later) :
      Switched (before ++ .report opened (.head head) ::
        (middle ++ .report read (.last ending) :: later)) read later

/-! ## The raw stage -/

namespace Stage

variable {direction : Direction} {limits : Limits} {next : Stage}

/-- As long as nothing is forgotten, the raw stage is not left, and only raw bytes are reported. -/
theorem run_raw {entries : List Entry} (hforgotten : .forgotten ∉ entries)
    (h : raw.run direction limits entries = some next) :
    next = raw ∧ ∀ entry ∈ entries, entry.interrupts = false := by
  induction entries with
  | nil =>
      cases h
      exact ⟨rfl, List.forall_mem_nil _⟩
  | cons entry entries ih =>
      rw [run_cons, Option.bind_eq_some_iff] at h
      obtain ⟨middle, hentry, hentries⟩ := h
      have hrest : .forgotten ∉ entries := fun hmem => hforgotten (List.mem_cons_of_mem _ hmem)
      cases entry with
      | forgotten => exact absurd List.mem_cons_self hforgotten
      | ended arrived =>
          cases hentry
          obtain ⟨hnext, hraw⟩ := ih hrest hentries
          exact ⟨hnext, List.forall_mem_cons.2 ⟨rfl, hraw⟩⟩
      | report read event =>
          cases afterEvent?_eq_some_iff.1 hentry with
          | raw hdata =>
              obtain ⟨hnext, hraw⟩ := ih hrest hentries
              exact ⟨hnext, List.forall_mem_cons.2 ⟨rfl, hraw⟩⟩

theorem run_body {switches : Bool} {entries : List Entry} {course : Course}
    (hcourse : course.outcome = .unfinished)
    (hunfinished : (entries.foldl Course.take course).outcome = .unfinished)
    (h : (body switches).run direction limits entries = some next) : next = body switches := by
  induction entries generalizing course with
  | nil =>
      cases h
      rfl
  | cons entry entries ih =>
      rw [run_cons, Option.bind_eq_some_iff] at h
      obtain ⟨middle, hentry, hentries⟩ := h
      rw [List.foldl_cons] at hunfinished
      by_cases hopen : (course.take entry).outcome = .unfinished
      · cases entry with
        | forgotten =>
            rw [Course.take_forgotten hcourse] at hopen
            cases hopen
        | ended arrived =>
            cases hentry
            exact ih hopen hunfinished hentries
        | report read event =>
            cases afterEvent?_eq_some_iff.1 hentry with
            | body hdata hle => exact ih hopen hunfinished hentries
            | last hverdict hle =>
                rw [Course.take_last hcourse] at hopen
                cases hopen
            | refusedContent hverdict =>
                rw [Course.take_failure hcourse] at hopen
                cases hopen
      · -- an entry that finishes the message leaves it finished
        rw [Course.foldl_take_of_finished hopen] at hunfinished
        exact absurd hunfinished hopen

/-! ### How a stage was entered -/

/-- A stage is entered by what the record says: a message that is open was begun by a head, and the
raw stage by the end of a message that hands its connection over. -/
def EnteredBy (direction : Direction) (record : List Entry) : Stage → Prop
  | body switches => ∃ before opened head middle,
      record = before ++ .report opened (.head head) :: middle ∧
        head.handsOver direction = switches ∧ (Course.follow middle).outcome = .unfinished
  | raw => direction = .response ∧ ∃ read later, Switched record read later
  | idle => True
  | refused => True

variable {record : List Entry}

theorem enteredBy_afterFailure (record : List Entry) (cause : Fault) :
    EnteredBy direction record (afterFailure cause) := by
  unfold afterFailure
  split <;> trivial

/-- A message stays open with an entry that does not finish it. -/
theorem EnteredBy.stays_open {switches : Bool} {entry : Entry}
    (h : EnteredBy direction record (body switches))
    (hentry : ∀ course : Course, course.outcome = .unfinished →
      (course.take entry).outcome = .unfinished) :
    EnteredBy direction (record ++ [entry]) (body switches) := by
  obtain ⟨before, opened, head, middle, rfl, hover, hmiddle⟩ := h
  refine ⟨before, opened, head, middle ++ [entry], ?_, hover, ?_⟩
  · rw [List.append_assoc, List.cons_append]
  · rw [Course.follow_append]
    exact hentry _ hmiddle

theorem EnteredBy.stays_raw {entry : Entry} (h : EnteredBy direction record raw)
    (hentry : entry ≠ .forgotten) : EnteredBy direction (record ++ [entry]) raw := by
  obtain ⟨hdirection, read, later, hswitched⟩ := h
  cases hswitched with
  | complete hhead hmiddle hlater =>
      refine ⟨hdirection, read, later ++ [entry], ?_⟩
      rw [List.append_assoc, List.cons_append, List.append_assoc, List.cons_append]
      apply Switched.complete hhead hmiddle
      intro hmem
      rcases List.mem_append.1 hmem with hold | hnew
      · exact hlater hold
      · exact hentry (List.mem_singleton.1 hnew).symm

/-- The end of a message that is open leads to the raw stage only if it hands over. -/
theorem EnteredBy.last {switches : Bool} (h : EnteredBy direction record (body switches))
    (read : Nat) (ending : Ending) :
    EnteredBy direction (record ++ [.report read (.last ending)]) (afterMessage switches) := by
  obtain ⟨before, opened, head, middle, rfl, rfl, hmiddle⟩ := h
  cases hover : head.handsOver direction with
  | false => trivial
  | true =>
      rw [Head.handsOver, Bool.and_eq_true, decide_eq_true_eq] at hover
      refine ⟨hover.1, read, [], ?_⟩
      rw [List.append_assoc, List.cons_append]
      exact .complete hover.2 hmiddle List.not_mem_nil

theorem Accepts.enteredBy {stage : Stage} {event : Event}
    (haccepts : Accepts direction limits stage event next) (h : EnteredBy direction record stage)
    (read : Nat) : EnteredBy direction (record ++ [.report read event]) next := by
  cases haccepts with
  | head hverdict => exact ⟨record, read, _, [], rfl, rfl, rfl⟩
  | refusedHead hverdict => exact enteredBy_afterFailure _ _
  | body hdata hle =>
      apply h.stays_open
      intro course hcourse
      rw [Course.take_body hcourse]
      exact hcourse
  | last hverdict hle => exact h.last read _
  | refusedContent hverdict => exact enteredBy_afterFailure _ _
  | raw hdata => exact h.stays_raw nofun

theorem EnteredBy.ended {stage : Stage} (h : EnteredBy direction record stage) (arrived : Nat) :
    EnteredBy direction (record ++ [.ended arrived]) stage := by
  cases stage with
  | idle => trivial
  | refused => trivial
  | body switches =>
      apply h.stays_open
      intro course hcourse
      rw [Course.take_ended hcourse]
      exact hcourse
  | raw => exact h.stays_raw nofun

theorem EnteredBy.run {stage : Stage} {entries : List Entry}
    (h : EnteredBy direction record stage)
    (hrun : stage.run direction limits entries = some next) :
    EnteredBy direction (record ++ entries) next := by
  induction entries generalizing stage record with
  | nil =>
      cases hrun
      rw [List.append_nil]
      exact h
  | cons entry entries ih =>
      rw [run_cons, Option.bind_eq_some_iff] at hrun
      obtain ⟨middle, hentry, hentries⟩ := hrun
      rw [← List.singleton_append, ← List.append_assoc]
      refine ih ?_ hentries
      cases entry with
      | forgotten =>
          cases hentry
          trivial
      | ended arrived =>
          cases hentry
          exact h.ended arrived
      | report read event => exact (afterEvent?_eq_some_iff.1 hentry).enteredBy h read

/-- Every stage that a record leads to was entered by what the record says. -/
theorem run_idle_reaches (h : idle.run direction limits record = some next) :
    EnteredBy direction record next :=
  @EnteredBy.run direction limits next [] idle record trivial h

/-- At the end of a message that hands its connection over, the raw stage begins. -/
theorem run_of_switched {before middle : List Entry} {opened read : Nat} {head : Head}
    {ending : Ending} {later : List Entry}
    (h : idle.run .response limits (before ++ .report opened (.head head) ::
      (middle ++ .report read (.last ending) :: later)) = some next)
    (hhead : head.switchesProtocol = true)
    (hmiddle : (Course.follow middle).outcome = .unfinished) :
    raw.run .response limits later = some next := by
  obtain ⟨here, there, -, hopens, h⟩ := run_split h
  obtain ⟨here', there', hunfinished, hlast, hlater⟩ := run_split h
  cases hopens with
  | head hverdict =>
      cases run_body rfl hmiddle hunfinished
      cases hlast with
      | last hverdict hle =>
          have hover : head.handsOver .response = true := hhead
          rw [hover] at hlater
          exact hlater

end Stage

/-! ## The bytes after a switch -/

theorem Phase.eq_raw_of_stage {phase : Phase} (h : phase.stage = .raw) : phase = .raw := by
  cases phase <;> first | rfl | cases h

theorem Phase.Move.after_last {direction : Direction} {limits : Limits} {phase : Phase}
    {buffer : Bytes} {next : Step} {before later : List Entry} {read arrived : Nat} {ending : Ending}
    (hmove : Move direction limits phase buffer next)
    (h : next.events.map (.report arrived) = before ++ .report read (.last ending) :: later) :
    later = [] ∧ read = arrived := by
  obtain ⟨hevent, rfl⟩ := Framed.mem_of_map_report h
  refine ⟨?_, rfl⟩
  cases hmove with
  | bodiless hread hhead hlength hempty =>
      cases before with
      | nil => cases h
      | cons entry before =>
          obtain ⟨-, -, hnil⟩ :=
            Framed.cons_eq_append_cons (List.cons.inj h).2 List.not_mem_nil
          exact hnil.symm
  | fixedEnds hdata hnext hremaining =>
      obtain ⟨-, -, hnil⟩ := Framed.cons_eq_append_cons h List.not_mem_nil
      exact hnil.symm
  | trailerEnds hread =>
      obtain ⟨-, -, hnil⟩ := Framed.cons_eq_append_cons h List.not_mem_nil
      exact hnil.symm
  | _ => simp [Step.proceed, Step.wait, Step.refuse, Event.refusedHead, Event.refusedContent]
      at hevent

namespace Walk

variable {limits : Limits} {input rest : Bytes} {record later : List Entry} {phase : Phase}
  {read : Nat}

/-- After a switch the reader stays in the raw phase, and nothing but raw bytes is reported. -/
theorem raw_of_switched (h : Walk .response limits input record phase rest)
    (hswitched : Switched record read later) :
    phase = .raw ∧ ∀ entry ∈ later, entry.interrupts = false := by
  have hfollows := h.follows
  cases hswitched with
  | complete hhead hmiddle hlater =>
      obtain ⟨hstage, hraw⟩ := Stage.run_raw hlater (Stage.run_of_switched hfollows hhead hmiddle)
      exact ⟨Phase.eq_raw_of_stage hstage, hraw⟩

theorem passedOn_step (rest : Bytes) (arrived : Nat) :
    (Phase.stepEntries .response limits arrived (.raw, rest)).flatMap Entry.passedOn = rest ∧
      (Phase.step .response limits .raw rest).rest = [] := by
  cases rest with
  | nil => exact ⟨rfl, rfl⟩
  | cons b rest => exact ⟨List.append_nil _, rfl⟩

/-- The raw bytes after the end of a message and those that wait are the input after the message,
if the reader is in the raw phase from that end on. -/
theorem passedOn_of_last {front : List Entry} {ending : Ending}
    (hraw : ∀ {input rest : Bytes} {record later : List Entry} {phase : Phase},
      Walk .response limits input record phase rest →
      record = front ++ .report read (.last ending) :: later → .forgotten ∉ later → phase = .raw)
    (h : Walk .response limits input record phase rest)
    (hrecord : record = front ++ .report read (.last ending) :: later)
    (hlater : .forgotten ∉ later) :
    read ≤ input.length ∧ later.flatMap Entry.passedOn ++ rest = input.drop read := by
  induction h generalizing later with
  | start => exact absurd hrecord (by simp)
  | receive walk bytes ih =>
      obtain ⟨hread, hbytes⟩ := ih hrecord hlater
      constructor
      · rw [List.length_append]
        exact Nat.le_trans hread (Nat.le_add_right _ _)
      · rw [List.drop_append_of_le_length hread, ← hbytes, List.append_assoc]
  | forget walk ih =>
      rcases append_eq_append_cons hrecord with ⟨middle, -, rfl⟩ | ⟨middle, -, hnew⟩
      · exact absurd (List.mem_append_right middle List.mem_cons_self) hlater
      · exact absurd (congrArg (.report read (.last ending) ∈ ·) hnew) (by simp)
  | @step input rest record phase walk ih =>
      have hmove := Phase.step_move .response limits phase rest
      rcases append_eq_append_cons hrecord with ⟨middle, hold, rfl⟩ | ⟨middle, -, hnew⟩
      · have hmiddle : .forgotten ∉ middle := fun hmem => hlater (List.mem_append_left _ hmem)
        obtain ⟨hread, hbytes⟩ := ih hold hmiddle
        cases hraw walk hold hmiddle
        obtain ⟨hpassed, hrest⟩ := @passedOn_step limits rest input.length
        rw [List.flatMap_append, hpassed, hrest, List.append_nil]
        exact ⟨hread, hbytes⟩
      · -- what has not been read is what follows the message
        obtain ⟨rfl, rfl⟩ := hmove.after_last hnew
        exact ⟨Nat.sub_le _ _, List.suffix_iff_eq_drop.1 (hmove.suffix.trans walk.suffix)⟩
  | @ended input rest record phase walk hclose ih =>
      rcases append_eq_append_cons hrecord with ⟨middle, hold, rfl⟩ | ⟨middle, -, hnew⟩
      · have hmiddle : .forgotten ∉ middle := fun hmem => hlater (List.mem_append_left _ hmem)
        rw [List.flatMap_append, List.append_assoc]
        exact ih hold hmiddle
      · exact absurd (congrArg (.report read (.last ending) ∈ ·) hnew) (by simp)
  | closed walk hclose hrest ih =>
      -- the end of a connection that is reported leads between messages
      cases hraw (walk.closed hclose hrest) hrecord hlater

theorem passes_on (h : Walk .response limits input record phase rest)
    (hswitched : Switched record read later) :
    later.flatMap Entry.passedOn ++ rest = input.drop read := by
  cases hswitched with
  | @complete before middle _ opened _ head ending hhead hmiddle hlater =>
      have hcons : ∀ later : List Entry,
          before ++ Entry.report opened (.head head) ::
              (middle ++ .report read (.last ending) :: later) =
            (before ++ .report opened (.head head) :: middle) ++
              .report read (.last ending) :: later := by
        intro later
        rw [List.append_assoc, List.cons_append]
      refine (passedOn_of_last ?_ h (hcons later) hlater).2
      intro input rest record later phase walk hrecord hforgotten
      rw [← hcons] at hrecord
      subst hrecord
      exact (walk.raw_of_switched (.complete hhead hmiddle hforgotten)).1

end Walk

/-! ## Connections -/

namespace Connection

theorem not_forgotten_of_reports {direction : Direction} {limits : Limits} (arrived : Nat)
    (places : List (Phase × Bytes)) :
    .forgotten ∉ places.flatMap (Phase.stepEntries direction limits arrived) := by
  intro hmem
  obtain ⟨place, -, hentry⟩ := List.mem_flatMap.1 hmem
  obtain ⟨event, -, heq⟩ := List.mem_map.1 hentry
  cases heq

theorem not_forgotten_of_endEntries (connection : Connection) (arrived : Nat) :
    .forgotten ∉ connection.endEntries arrived := by
  intro hmem
  rcases List.mem_cons.1 hmem with heq | hmem
  · cases heq
  · obtain ⟨event, -, heq⟩ := List.mem_map.1 hmem
    cases heq

/-- A call that does not ask for it forgets nothing, and leaves nothing to be forgotten. -/
theorem not_forgotten_of_call {connection : Connection}
    (hreset : connection.reader.resetRequested = false) {call : Call}
    (hcall : call.asksToForget = false) (arrived : Nat) :
    .forgotten ∉ connection.entries arrived call ∧
      (connection.call call).1.reader.resetRequested = false := by
  have hforgets : connection.forgets = [] := by
    simp only [forgets, hreset, Bool.false_eq_true, if_false]
  cases call with
  | push bytes =>
      constructor
      · simp only [Connection.entries, hforgets, List.nil_append]
        exact not_forgotten_of_reports _ _
      · rfl
  | close =>
      constructor
      · simp only [Connection.entries, hforgets, List.nil_append, List.mem_append, not_or]
        exact ⟨not_forgotten_of_reports _ _, not_forgotten_of_endEntries _ _⟩
      · simp only [Connection.call, close, Reader.close]
        split <;> rfl
  | receive bytes => exact ⟨List.not_mem_nil, hreset⟩
  | requestReset => cases hcall
  | declineBody => cases hcall

theorem not_forgotten_of_record {connection : Connection}
    (hreset : connection.reader.resetRequested = false) {calls : List Call}
    (hcalls : ∀ call ∈ calls, call.asksToForget = false) (arrived : Nat) :
    .forgotten ∉ connection.record arrived calls := by
  induction calls generalizing connection arrived with
  | nil => exact List.not_mem_nil
  | cons call calls ih =>
      obtain ⟨hcall, hlater⟩ := List.forall_mem_cons.1 hcalls
      obtain ⟨hentries, hnext⟩ := not_forgotten_of_call hreset hcall arrived
      simp only [record, List.mem_append, not_or]
      exact ⟨hentries, ih hnext hlater _⟩

/-- A response that switches to another protocol hands its connection over, whatever is called in
whatever order. Once it is complete, and as long as it is not forgotten, the reader stays in the raw
phase and reports nothing but raw bytes; these are, in order, the bytes that follow the message in
the input, all of them when a call that reads is over. Without a request to forget a message none is
forgotten. Conversely, the raw phase is reached in no other way, and never where requests are
read. -/
theorem switch_hands_over {direction : Direction} {limits : Limits} {new : Connection}
    (hstart : start direction limits = .ok new) (calls : List Call) :
    (direction = .response → ∀ before opened head middle read ending later,
      new.record 0 calls = before ++ .report opened (.head head) ::
        (middle ++ .report read (.last ending) :: later) →
      (Course.follow middle).outcome = .unfinished → head.switchesProtocol = true →
      .forgotten ∉ later →
      (new.after calls).phase = .raw ∧
        (∀ read' event, .report read' event ∈ later → ∃ data, event = .raw data) ∧
        later.flatMap Entry.passedOn ++ (new.after calls).buffer =
          (calls.flatMap Call.bytes).drop read ∧
        ∀ earlier call, calls = earlier ++ [call] → call.reads = true →
          (new.after calls).buffer = []) ∧
    ((∀ call ∈ calls, call.asksToForget = false) → .forgotten ∉ new.record 0 calls) ∧
    ((new.after calls).phase = .raw →
      direction = .response ∧ ∃ read later, Switched (new.record 0 calls) read later) := by
  have hwalk := start_walk hstart calls
  refine ⟨?_, ?_, ?_⟩
  · rintro rfl before opened head middle read ending later hrecord hmiddle hhead hlater
    have hswitched : Switched (new.record 0 calls) read later := by
      rw [hrecord]
      exact .complete hhead hmiddle hlater
    obtain ⟨hphase, hraw⟩ := hwalk.raw_of_switched hswitched
    refine ⟨hphase, ?_, hwalk.passes_on hswitched, ?_⟩
    · intro read' event hevent
      have hquiet := hraw _ hevent
      cases event with
      | raw data => exact ⟨data, rfl⟩
      | _ => cases hquiet
    · intro earlier call hcalls hreads
      have hsound : (new.after earlier).Sound := (start_walk hstart earlier).sound
      have hpieces : (new.after calls).phase.readsPieces = true := by
        rw [hphase]
        rfl
      rw [hcalls, after_append] at hpieces ⊢
      exact hsound.call_rest hreads hpieces
  · intro hcalls
    obtain ⟨valid, rfl⟩ := start_eq hstart
    exact not_forgotten_of_record rfl hcalls 0
  · intro hphase
    have hfollows := hwalk.follows
    rw [hphase] at hfollows
    exact Stage.run_idle_reaches hfollows

/-- A handshake of an early websocket draft is followed by its key of sixteen bytes, which arrive in
two pieces, and then by bytes that would be padding between messages. -/
theorem switch_hands_over_after_key :
    let new : Connection := { reader := ⟨.response, {}, by decide, .idle, false⟩ }
    let calls : List Call :=
      [.push (Text.toBytes "HTTP/1.1 101 X\r\nUpgrade: WebSocket\r\n\r\n01234567"),
        .push (Text.toBytes "89abcdef\r\n"), .close, .push (Text.toBytes " GET")]
    let head : Head :=
      { startLine := .status .http11 101 "X", fields := ⟨[⟨"Upgrade", "WebSocket"⟩]⟩ }
    let middle : List Entry := [.report 46 (.body (Text.toBytes "01234567"))]
    let later : List Entry :=
      [.report 56 (.raw (Text.toBytes "\r\n")), .ended 56, .report 60 (.raw (Text.toBytes " GET"))]
    start .response {} = .ok new ∧
      new.record 0 calls = .report 38 (.head head) ::
        (middle ++ .report 54 (.last { data := Text.toBytes "89abcdef" }) :: later) ∧
      (new.after calls).phase = .raw ∧
      later.flatMap Entry.passedOn ++ (new.after calls).buffer =
        (calls.flatMap Call.bytes).drop 54 ∧
      (new.after calls).buffer = [] ∧
      .forgotten ∉ new.record 0 calls ∧
      ∃ read later, Switched (new.record 0 calls) read later := by
  intro new calls head middle later
  have hstart : start .response {} = .ok new := rfl
  have hrecord : new.record 0 calls = [] ++ .report 38 (.head head) ::
      (middle ++ .report 54 (.last { data := Text.toBytes "89abcdef" }) :: later) := by
    decide +kernel
  obtain ⟨hswitch, hforgotten, hreached⟩ := switch_hands_over hstart calls
  obtain ⟨hphase, -, hbytes, hbuffer⟩ :=
    hswitch rfl [] 38 head middle 54 _ later hrecord rfl (by decide +kernel) (by decide)
  exact ⟨hstart, hrecord, hphase, hbytes, hbuffer (calls.take 3) (.push (Text.toBytes " GET")) rfl rfl,
    hforgotten (by decide +kernel), (hreached hphase).2⟩

end Connection

end HttpWire

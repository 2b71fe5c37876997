import HttpWire.Proofs.Faults
import HttpWire.Proofs.History

/-!
# The protocol of the reports

The reports of a connection follow an automaton of four stages. Between messages a head or a refused
head may come; after a head come pieces of its body, and then the end of the message or a refused
body. A message that was refused is followed by silence until it is forgotten, and a message that
hands its connection over is followed by raw bytes only.

- `Stage.after?`: the automaton.
- `Phase.stage`: the stage of a reader in each phase; `Phase.Move.follows` says that every step
  follows the automaton.
- `Connection.reports_follow`: every record of a new connection does, and what this means for the
  place of each report.
-/

set_option autoImplicit false

namespace HttpWire

/-! ## The automaton -/

/-- Whether a fault is that the connection closed too early. -/
def Fault.isClosure : Fault → Bool
  | prematureClosure _ => true
  | _ => false

/-- A stage of the protocol. -/
inductive Stage where
  /-- Between messages. -/
  | idle
  /-- After a head, whose message hands its connection over or not. -/
  | body (switches : Bool)
  /-- After a refused message. -/
  | refused
  /-- After a switch to another protocol. -/
  | raw
  deriving Repr, DecidableEq

namespace Stage

/-- The stage after a message that is complete. -/
def afterMessage (switches : Bool) : Stage :=
  if switches then raw else idle

/-- The stage after a failure. A connection that closed too early is ready for the next one. -/
def afterFailure (cause : Fault) : Stage :=
  if cause.isClosure then idle else refused

variable (direction : Direction) (limits : Limits)

/-- The stage after a report, if the report may come in a stage. -/
def afterEvent? : Stage → Event → Option Stage
  | idle, .head head =>
      if head.verdict = .success then some (body (head.handsOver direction)) else none
  | idle, .failure cause (.head head) =>
      if head.verdict = .failure cause then some (afterFailure cause) else none
  | body switches, .body data =>
      if data ≠ [] ∧ data.length ≤ limits.piece then some (body switches) else none
  | body switches, .last ending =>
      if ending.verdict = .success ∧ ending.data.length ≤ limits.piece then
        some (afterMessage switches)
      else none
  | body _, .failure cause (.content ending) =>
      if ending.verdict = .failure cause then some (afterFailure cause) else none
  | raw, .raw data => if data ≠ [] then some raw else none
  | _, _ => none

/-- The stage after an entry of a record. Forgetting a message leads between messages from every
stage, and the end of a connection is not a report. -/
def after? : Stage → Entry → Option Stage
  | _, .forgotten => some idle
  | stage, .ended _ => some stage
  | stage, .report _ event => afterEvent? direction limits stage event

/-- The stage after the entries of a record, if all of them may come. -/
def run (stage : Stage) (entries : List Entry) : Option Stage :=
  entries.foldlM (after? direction limits) stage

variable {direction limits}

theorem run_cons (stage : Stage) (entry : Entry) (entries : List Entry) :
    stage.run direction limits (entry :: entries) =
      (stage.after? direction limits entry).bind fun next => next.run direction limits entries := by
  simp only [run, List.foldlM_cons]
  rfl

theorem run_append (stage : Stage) (entries more : List Entry) :
    stage.run direction limits (entries ++ more) =
      (stage.run direction limits entries).bind fun next => next.run direction limits more := by
  simp only [run, List.foldlM_append]
  rfl

theorem run_singleton (stage : Stage) (entry : Entry) :
    stage.run direction limits [entry] = stage.after? direction limits entry := by
  rw [run_cons]
  cases stage.after? direction limits entry <;> rfl

/-! ### The reports that the automaton accepts -/

variable (direction limits)

/-- A report that may come in a stage, and the stage after it. -/
inductive Accepts : Stage → Event → Stage → Prop
  | head {head : Head} (hverdict : head.verdict = .success) :
      Accepts idle (.head head) (body (head.handsOver direction))
  | refusedHead {cause : Fault} {head : Head} (hverdict : head.verdict = .failure cause) :
      Accepts idle (.failure cause (.head head)) (afterFailure cause)
  | body {switches : Bool} {data : Bytes} (hdata : data ≠ []) (hle : data.length ≤ limits.piece) :
      Accepts (body switches) (.body data) (body switches)
  | last {switches : Bool} {ending : Ending} (hverdict : ending.verdict = .success)
      (hle : ending.data.length ≤ limits.piece) :
      Accepts (body switches) (.last ending) (afterMessage switches)
  | refusedContent {switches : Bool} {cause : Fault} {ending : Ending}
      (hverdict : ending.verdict = .failure cause) :
      Accepts (body switches) (.failure cause (.content ending)) (afterFailure cause)
  | raw {data : Bytes} (hdata : data ≠ []) : Accepts raw (.raw data) raw

variable {direction limits} {stage next : Stage} {event : Event}

theorem afterEvent?_eq_some_iff :
    stage.afterEvent? direction limits event = some next ↔
      Accepts direction limits stage event next := by
  constructor
  · intro h
    unfold afterEvent? at h
    split at h
    case h_7 => cases h
    all_goals
      obtain ⟨haccepts, hnext⟩ := Option.ite_none_right_eq_some.1 h
      cases hnext
    · exact .head haccepts
    · exact .refusedHead haccepts
    · exact .body haccepts.1 haccepts.2
    · exact .last haccepts.1 haccepts.2
    · exact .refusedContent haccepts
    · exact .raw haccepts
  · intro h
    cases h with
    | head hverdict => exact if_pos hverdict
    | refusedHead hverdict => exact if_pos hverdict
    | body hdata hle => exact if_pos ⟨hdata, hle⟩
    | last hverdict hle => exact if_pos ⟨hverdict, hle⟩
    | refusedContent hverdict => exact if_pos hverdict
    | raw hdata => exact if_pos hdata

/-- One report that is accepted. -/
theorem Accepts.run_report (h : Accepts direction limits stage event next) (read : Nat) :
    stage.run direction limits [.report read event] = some next := by
  rw [run_singleton]
  exact afterEvent?_eq_some_iff.2 h

end Stage

/-! ## Why a message is refused -/

theorem Fault.isClosure_of_inText {cause : Fault} (h : cause.inText = true) :
    cause.isClosure = false := by
  cases cause <;> first | rfl | cases h

theorem FieldBlock.isClosure_of_read {limit : Nat} {strict : Bool} {buffer : Bytes}
    {block : FieldBlock} {cause : Fault} (h : (block.read limit strict buffer).2 = .refused cause) :
    cause.isClosure = false := by
  rcases fault_of_read h with rfl | hfield
  · rfl
  · exact Fault.isClosure_of_inText (Fault.inText_of_inField hfield)

/-! ## Steps follow the automaton -/

/-- A response whose body ends with its connection hands nothing over: a 101 response has no body,
or one of known length. -/
theorem Head.handsOver_of_untilClose {direction : Direction} {head : Head}
    (h : BodyLength.select direction head = .ok .untilClose) :
    head.handsOver direction = false := by
  cases direction with
  | request => rfl
  | response =>
      simp only [BodyLength.select, true_and] at h
      split at h
      · simp at h
      · rename_i hbody
        split at h
        · simp at h
        · split at h
          · simp at h
          · simp at h
          · rename_i hannounced
            -- nothing announces a length, and so there is no key of a handshake either
            have hkey : BodyLength.handshakeKey? head = none := by
              unfold BodyLength.announced at hannounced
              split at hannounced
              · rename_i value hvalue
                cases hdeclared : BodyLength.declared value with
                | error cause => simp [hdeclared, Except.map] at hannounced
                | ok length => simp [hdeclared, Except.map] at hannounced
              · simpa using hannounced
            by_cases hcode : head.startLine.code? = some 101
            · -- a 101 response without a body of known length would be one without a body
              exfalso
              cases hline : head.startLine with
              | request method target version => simp [hline, StartLine.code?] at hcode
              | status version code reason =>
                  have hdraft : head.answersDraftHandshake = false := by
                    simpa [BodyLength.handshakeKey?, hline] using hkey
                  simp [Head.isBodiless, hcode, hdraft] at hbody
            · simp [Head.handsOver, Head.switchesProtocol, hcode]

/-- The stage in which a phase is. -/
def Phase.stage : Phase → Stage
  | idle => .idle
  | startLine => .idle
  | header _ _ _ => .idle
  | fixed _ _ switches => .body switches
  | untilClose => .body false
  | chunkSize body => .body body.switches
  | chunkData body _ => .body body.switches
  | chunkEnd body => .body body.switches
  | trailer switches _ _ => .body switches
  | refused => .refused
  | raw => .raw

namespace Phase

variable {direction : Direction} {limits : Limits} {phase : Phase} {buffer : Bytes}

theorem stage_afterMessage (switches : Bool) :
    (afterMessage switches).stage = Stage.afterMessage switches := by
  cases switches <;> rfl

theorem length_le_of_nextPiece {remaining : Nat} {data rest : Bytes}
    (h : nextPiece limits remaining (data ++ rest) = data) : data.length ≤ limits.piece := by
  have hle := List.length_take_le (min limits.piece remaining) (data ++ rest)
  rw [nextPiece] at h
  rw [h] at hle
  exact Nat.le_trans hle (Nat.min_le_left _ _)

theorem length_le_of_take {data rest : Bytes} (h : (data ++ rest).take limits.piece = data) :
    data.length ≤ limits.piece := by
  rw [← nextPiece_self] at h
  exact length_le_of_nextPiece h

theorem afterFailure_of_not_closure {cause : Fault} (h : cause.isClosure = false) :
    Stage.afterFailure cause = .refused := by
  rw [Stage.afterFailure, h]
  rfl

section Reports

open Stage (Accepts)

theorem accepts_refusedHead (head : Head) {cause : Fault} (h : cause.isClosure = false) :
    Accepts direction limits .idle (.refusedHead head cause) .refused := by
  rw [← afterFailure_of_not_closure h]
  exact .refusedHead rfl

theorem accepts_refusedContent (switches : Bool) {cause : Fault} (h : cause.isClosure = false) :
    Accepts direction limits (.body switches) (.refusedContent cause) .refused := by
  rw [← afterFailure_of_not_closure h]
  exact .refusedContent rfl

theorem accepts_last (switches : Bool) {data : Bytes} (trailers : Fields)
    (h : data.length ≤ limits.piece) :
    Accepts direction limits (.body switches) (.last { data, trailers })
      (afterMessage switches).stage := by
  rw [stage_afterMessage]
  exact .last rfl h

/-- A step of a reader follows the automaton, from the stage of its phase to that of the next. -/
theorem Move.follows {next : Step} (h : Move direction limits phase buffer next) (read : Nat) :
    phase.stage.run direction limits (next.events.map (.report read)) = some next.phase.stage := by
  cases h with
  | startTooLong hline => exact (accepts_refusedHead _ rfl).run_report read
  | startRefused hline hread =>
      have hcause := Fault.isClosure_of_inText (StartLine.inText_of_read hread)
      exact (accepts_refusedHead _ hcause).run_report read
  | headerRefused hread =>
      have hcause := FieldBlock.isClosure_of_read (congrArg Prod.snd hread)
      exact (accepts_refusedHead _ hcause).run_report read
  | unframed hread hhead hlength =>
      have hcause := Fault.isClosure_of_inText (BodyLength.inText_of_select hlength)
      exact (accepts_refusedHead _ hcause).run_report read
  | unsupported hread hhead hlength hlimits =>
      exact (accepts_refusedHead _ rfl).run_report read
  | @bodiless _ _ _ _ _ _ _ head _ hread hhead hlength hempty =>
      subst hhead
      refine (Stage.run_append _ [_] [_]).trans ?_
      rw [stage, (Accepts.head rfl).run_report, Option.bind_some]
      exact (accepts_last _ {} (Nat.zero_le _)).run_report read
  | fixedBody hread hhead hlength hpos =>
      subst hhead
      exact (Accepts.head rfl).run_report read
  | chunkedBody hread hhead hlength hlimits =>
      subst hhead
      exact (Accepts.head rfl).run_report read
  | openBody hread hhead hlength =>
      -- the phase has no place for a switch of protocol, and needs none
      have hswitches := Head.handsOver_of_untilClose hlength
      subst hhead
      refine ((Accepts.head rfl).run_report read).trans ?_
      rw [hswitches]
      rfl
  | fixedEnds hdata hnext hremaining =>
      exact (accepts_last _ {} (length_le_of_nextPiece hnext)).run_report read
  | fixedPiece hdata hnext hremaining =>
      exact (Accepts.body hdata (length_le_of_nextPiece hnext)).run_report read
  | openPiece hdata hnext =>
      exact (Accepts.body hdata (length_le_of_take hnext)).run_report read
  | sizeTooLong hline => exact (accepts_refusedContent _ rfl).run_report read
  | sizeRefused hline hsize =>
      have hcause := Fault.isClosure_of_inText (Chunked.inText_of_readSize hsize)
      exact (accepts_refusedContent _ hcause).run_report read
  | dataEnds hdata hnext hremaining =>
      exact (Accepts.body hdata (length_le_of_nextPiece hnext)).run_report read
  | dataPiece hdata hnext hremaining =>
      exact (Accepts.body hdata (length_le_of_nextPiece hnext)).run_report read
  | trailerRefused hread =>
      have hcause := FieldBlock.isClosure_of_read (congrArg Prod.snd hread)
      exact (accepts_refusedContent _ hcause).run_report read
  | trailerEnds hread => exact (accepts_last _ _ (Nat.zero_le _)).run_report read
  | passed hbuffer => exact (Accepts.raw hbuffer).run_report read
  | _ => rfl

end Reports

/-- What the end of a connection reports is accepted, and leads between messages. -/
theorem atClose_accepted {event : Event} (h : phase.atClose = some event) :
    Stage.Accepts direction limits phase.stage event .idle := by
  cases phase with
  | header first fields block =>
      cases h
      exact .refusedHead rfl
  | untilClose =>
      cases h
      exact .last rfl (Nat.zero_le _)
  | idle => cases h
  | startLine => cases h
  | refused => cases h
  | raw => cases h
  | _ =>
      cases h
      exact .refusedContent rfl

end Phase

theorem Walk.follows {direction : Direction} {limits : Limits} {input rest : Bytes}
    {record : List Entry} {phase : Phase} (h : Walk direction limits input record phase rest) :
    Stage.idle.run direction limits record = some phase.stage := by
  induction h with
  | start => rfl
  | receive walk bytes ih => exact ih
  | forget walk ih =>
      rw [Stage.run_append, ih, Option.bind_some, Stage.run_singleton]
      rfl
  | step walk ih =>
      rw [Stage.run_append, ih, Option.bind_some]
      exact (Phase.step_move direction limits _ _).follows _
  | ended walk hclose ih =>
      rw [Stage.run_append, ih, Option.bind_some, Stage.run_singleton]
      rfl
  | closed walk hclose hrest ih =>
      rw [Stage.run_append, ih, Option.bind_some, Stage.run_cons, Stage.after?, Option.bind_some]
      exact (Phase.atClose_accepted hclose).run_report _

/-! ## What the automaton says of each report -/

/-- Whether a message is open after an entry: its head was reported, and nothing has ended it. -/
def Entry.leavesOpen (wasOpen : Bool) : Entry → Bool
  | forgotten => false
  | ended _ => wasOpen
  | report _ (.head _) => true
  | report _ (.body _) => wasOpen
  | report _ (.last _) => false
  | report _ (.failure _ _) => false
  | report _ (.raw _) => wasOpen

/-- Whether a message is open after the entries of a record. -/
def messageOpen (entries : List Entry) : Bool :=
  entries.foldl Entry.leavesOpen false

/-- What a report has to be where a message is open, and where none is. -/
def Event.Fits (limits : Limits) (isOpen : Bool) : Event → Prop
  | .head opening => isOpen = false ∧ opening.verdict = .success
  | .body data => isOpen = true ∧ data ≠ [] ∧ data.length ≤ limits.piece
  | .last ending => isOpen = true ∧ ending.verdict = .success ∧ ending.data.length ≤ limits.piece
  | .failure cause (.head opening) => isOpen = false ∧ opening.verdict = .failure cause
  | .failure cause (.content ending) => isOpen = true ∧ ending.verdict = .failure cause
  | .raw data => isOpen = false ∧ data ≠ []

namespace Stage

variable {direction : Direction} {limits : Limits} {stage next : Stage} {event : Event}

/-- Whether a message is open in a stage. -/
def isOpen : Stage → Bool
  | body _ => true
  | idle => false
  | refused => false
  | raw => false

theorem isOpen_afterMessage (switches : Bool) : (afterMessage switches).isOpen = false := by
  cases switches <;> rfl

theorem isOpen_afterFailure (cause : Fault) : (afterFailure cause).isOpen = false := by
  unfold afterFailure
  split <;> rfl

/-- A report that is accepted fits. -/
theorem Accepts.fits (h : Accepts direction limits stage event next) :
    event.Fits limits stage.isOpen := by
  cases h with
  | head hverdict => exact ⟨rfl, hverdict⟩
  | refusedHead hverdict => exact ⟨rfl, hverdict⟩
  | body hdata hle => exact ⟨rfl, hdata, hle⟩
  | last hverdict hle => exact ⟨rfl, hverdict, hle⟩
  | refusedContent hverdict => exact ⟨rfl, hverdict⟩
  | raw hdata => exact ⟨rfl, hdata⟩

/-- A report that is accepted opens or ends a message as the automaton says. -/
theorem Accepts.leavesOpen (h : Accepts direction limits stage event next) (read : Nat) :
    (Entry.report read event).leavesOpen stage.isOpen = next.isOpen := by
  cases h with
  | head hverdict => rfl
  | refusedHead hverdict => exact (isOpen_afterFailure _).symm
  | body hdata hle => rfl
  | last hverdict hle => exact (isOpen_afterMessage _).symm
  | refusedContent hverdict => exact (isOpen_afterFailure _).symm
  | raw hdata => rfl

theorem after?_leavesOpen {entry : Entry} (h : stage.after? direction limits entry = some next) :
    entry.leavesOpen stage.isOpen = next.isOpen := by
  cases entry with
  | forgotten =>
      cases h
      rfl
  | ended arrived =>
      cases h
      rfl
  | report read event => exact (afterEvent?_eq_some_iff.1 h).leavesOpen read

theorem run_isOpen {entries : List Entry} (h : stage.run direction limits entries = some next) :
    entries.foldl Entry.leavesOpen stage.isOpen = next.isOpen := by
  induction entries generalizing stage with
  | nil =>
      cases h
      rfl
  | cons entry entries ih =>
      rw [run_cons, Option.bind_eq_some_iff] at h
      obtain ⟨middle, hentry, hentries⟩ := h
      rw [List.foldl_cons, after?_leavesOpen hentry]
      exact ih hentries

/-- A record is accepted up to each of its reports, which is then accepted itself. -/
theorem run_split {before later : List Entry} {read : Nat}
    (h : stage.run direction limits (before ++ .report read event :: later) = some next) :
    ∃ here there, stage.run direction limits before = some here ∧
      Accepts direction limits here event there ∧
      there.run direction limits later = some next := by
  rw [run_append, Option.bind_eq_some_iff] at h
  obtain ⟨here, hbefore, h⟩ := h
  rw [run_cons, Option.bind_eq_some_iff] at h
  obtain ⟨there, hevent, hlater⟩ := h
  exact ⟨here, there, hbefore, afterEvent?_eq_some_iff.1 hevent, hlater⟩

/-- Nothing is reported of a refused message, or after it, until it is forgotten. -/
theorem forgotten_of_run_refused {silent later : List Entry} {read : Nat}
    (h : refused.run direction limits (silent ++ .report read event :: later) = some next) :
    .forgotten ∈ silent := by
  induction silent with
  | nil =>
      obtain ⟨here, there, hbefore, hevent, -⟩ := run_split h
      cases hbefore
      cases hevent
  | cons entry silent ih =>
      rw [List.cons_append, run_cons, Option.bind_eq_some_iff] at h
      obtain ⟨middle, hentry, hsilent⟩ := h
      cases entry with
      | forgotten => exact List.mem_cons_self
      | ended arrived =>
          cases hentry
          exact List.mem_cons_of_mem _ (ih hsilent)
      | report read event => cases hentry

theorem Accepts.after_failure {cause : Fault} {spoiled : Spoiled}
    (h : Accepts direction limits stage (.failure cause spoiled) next) :
    next = afterFailure cause := by
  cases h with
  | refusedHead hverdict => rfl
  | refusedContent hverdict => rfl

end Stage

/-- The reports of a connection follow the protocol, whatever is called in whatever order. The
automaton accepts the record, whose events are those of the calls, and ends in the stage of the
reader. A message therefore has one head and then at most one end, or one failure, and every report
stands where it belongs; after a failure that is not the end of the connection nothing is reported
until the message is forgotten. -/
theorem Connection.reports_follow {direction : Direction} {limits : Limits} {new : Connection}
    (hstart : start direction limits = .ok new) (calls : List Call) :
    (new.record 0 calls).filterMap Entry.event? = new.events calls ∧
    Stage.idle.run direction limits (new.record 0 calls) = some (new.after calls).phase.stage ∧
    (∀ before read event later, new.record 0 calls = before ++ .report read event :: later →
      event.Fits limits (messageOpen before)) ∧
    ∀ before read cause spoiled silent read' event later,
      new.record 0 calls = before ++ .report read (.failure cause spoiled) ::
        (silent ++ .report read' event :: later) →
      cause.isClosure = false → .forgotten ∈ silent := by
  have hfollows := (start_walk hstart calls).follows
  refine ⟨events_record new 0 calls, hfollows, ?_, ?_⟩
  · intro before read event later hrecord
    rw [hrecord] at hfollows
    obtain ⟨here, there, hbefore, hevent, -⟩ := Stage.run_split hfollows
    -- the stage before the report and the entries before it agree on whether a message is open
    have hopen := Stage.run_isOpen hbefore
    have hfits := hevent.fits
    rw [← hopen] at hfits
    exact hfits
  · intro before read cause spoiled silent read' event later hrecord hcause
    rw [hrecord] at hfollows
    obtain ⟨here, there, -, hfailure, hlater⟩ := Stage.run_split hfollows
    rw [hfailure.after_failure, Phase.afterFailure_of_not_closure hcause] at hlater
    exact Stage.forgotten_of_run_refused hlater

/-- A refused request is forgotten, and the next one is cut short. -/
theorem Connection.reports_follow_after_reset :
    let new : Connection := { reader := ⟨.request, {}, by decide, .idle, false⟩ }
    let calls : List Call :=
      [.push (Text.toBytes "GET / HTTP\r\n"), .requestReset,
        .push (Text.toBytes "GET / HTTP/1.1\r\nHost: a\r\n"), .close]
    let cause : Fault := .invalidVersion "HTTP"
    let placeholder : Head := { Head.placeholder .request with verdict := .failure cause }
    let last : Event := .refusedHead { startLine := .request "GET" "/" .http11, fields := {} }
      (.prematureClosure .headers)
    let before : List Entry := [.report 12 (.failure cause (.head placeholder))]
    let silent : List Entry := [.forgotten, .ended 37]
    start .request {} = .ok new ∧
      new.record 0 calls = before ++ (silent ++ [.report 28 last]) ∧
      Stage.idle.run .request {} (new.record 0 calls) = some (new.after calls).phase.stage ∧
      last.Fits {} (messageOpen (before ++ silent)) ∧
      .forgotten ∈ silent := by
  intro new calls cause placeholder last before silent
  have hstart : start .request {} = .ok new := rfl
  have hrecord : new.record 0 calls = before ++ (silent ++ [.report 28 last]) := by decide +kernel
  obtain ⟨-, hstage, hfits, hsilent⟩ := reports_follow hstart calls
  exact ⟨hstart, hrecord, hstage, hfits (before ++ silent) 28 last [] hrecord,
    hsilent [] 12 cause (.head placeholder) silent 28 last [] hrecord rfl⟩

end HttpWire

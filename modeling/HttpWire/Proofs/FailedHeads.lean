import HttpWire.Proofs.Accepted
import HttpWire.Proofs.Folds.Stops
import HttpWire.Proofs.Origins

/-!
# Heads of messages that fail

A message can fail in its head: at its start line, in its header block, for what the block says about the
body, or because the connection ends. What was read of the head by then is reported with the failure. A
head that is kept this way can be told from the bytes of its message, wherever they were cut: it has the
start line, and those fields of the block that were complete.

- `Head.Keeps`: the head that some bytes of a message leave when it fails.
- `Phase.Move.fails_head`: the steps with which a head fails; `Walk.keeps_head`: what a block leaves.
- `Connection.record_split`: a report belongs to one of the calls; `Connection.cut_short`: a head that is
  cut short is reported by a call that ends the connection, after all that had arrived was read.
- `Connection.failed_head_keeps`: every failed head of every history.
-/

set_option autoImplicit false

namespace HttpWire

open Text

variable {direction : Direction} {limits : Limits} {input : Bytes}

/-! ## What a head keeps -/

/-- Bytes at the beginning of which no start line can be accepted, and why. -/
inductive StartLine.Fails (direction : Direction) (limits : Limits) : Bytes → Fault → Prop
  | tooLong {text rest : Bytes} (htext : ∀ b ∈ text, isLineEnd b = false)
      (hover : limits.line < text.length) :
      Fails direction limits (text ++ rest) (.lineTooLong limits.line)
  | malformed {text mark rest : Bytes} {cause : Fault} (htext : ∀ b ∈ text, isLineEnd b = false)
      (hle : text.length ≤ limits.line) (hmark : Line.EndMark mark rest)
      (hread : StartLine.read direction text = .error cause) :
      Fails direction limits (text ++ (mark ++ rest)) cause

/-- Why a head fails whose block has come to an outcome. -/
inductive Head.FailsBy (direction : Direction) (limits : Limits) (head : Head) :
    FieldBlock.Outcome → Fault → Prop
  | refused {cause : Fault} : FailsBy direction limits head (.refused cause) cause
  /-- The connection ends. -/
  | cutShort {block : FieldBlock} :
      FailsBy direction limits head (.incomplete block) (.prematureClosure .headers)
  | unframed {next charged : Nat} {cause : Fault}
      (hlength : BodyLength.select direction head = .error cause) :
      FailsBy direction limits head (.complete next charged) cause
  | unsupported {next charged : Nat} (hlength : BodyLength.select direction head = .ok .chunked)
      (hlimits : limits.chunked = false) :
      FailsBy direction limits head (.complete next charged) .unsupportedChunked

/-- The head that the bytes of a message leave when the message fails for a cause. Without a start line it
is a placeholder. Behind a start line it has the first fields of the block, as many as its outcome says:
those before a field that is refused; all of a block that is closed; and of a block that goes over the
limit or is cut short those that another field follows. -/
inductive Head.Keeps (direction : Direction) (limits : Limits) : Bytes → Fault → Head → Prop
  | placeholder {message : Bytes} {cause : Fault}
      (fails : StartLine.Fails direction limits message cause) :
      Keeps direction limits message cause
        { Head.placeholder direction with verdict := .failure cause }
  | read {first : StartLine} {line mark tail : Bytes} {written : List WrittenField}
      {fields : List Field} {outcome : FieldBlock.Outcome} {cause : Fault}
      (accepted : first.Accepted direction limits line mark
        (written.flatMap WrittenField.bytes ++ tail))
      (arrived : FieldBlock.Arrived limits.header 0 written tail)
      (isPrefix : fields.map .ok <+: written.map (WrittenField.field limits.strict))
      (ends : FieldBlock.Ends limits.header 0 limits.strict written tail fields outcome)
      (fails : Head.FailsBy direction limits { startLine := first, fields := ⟨fields⟩ } outcome
        cause) :
      Keeps direction limits (line ++ (mark ++ (written.flatMap WrittenField.bytes ++ tail))) cause
        { startLine := first, fields := ⟨fields⟩, verdict := .failure cause }

/-! ## Steps -/

namespace Phase

/-- A step with which a head fails reports nothing else and drops what has arrived. It is at a start line
that cannot be accepted, or in a block that has come to an outcome for which the head fails. -/
theorem Move.fails_head {phase : Phase} {rest : Bytes} {next : Step} {cause : Fault} {head : Head}
    (hmove : Move direction limits phase rest next)
    (h : .failure cause (.head head) ∈ next.events) :
    next.events = [.failure cause (.head head)] ∧ next.rest = [] ∧ cause.isClosure = false ∧
      ((phase = .startLine ∧ StartLine.Fails direction limits rest cause ∧
          head = { Head.placeholder direction with verdict := .failure cause }) ∨
        ∃ first fields block more outcome, phase = .header first fields block ∧
          block.read limits.header limits.strict rest = (more, outcome) ∧
          head = { startLine := first, fields := fields.append more, verdict := .failure cause } ∧
          Head.FailsBy direction limits { startLine := first, fields := fields.append more } outcome
            cause) := by
  cases hmove with
  | startTooLong hline =>
      obtain ⟨rfl, rfl⟩ : cause = _ ∧ head = _ := by simpa [Step.refuse, Event.refusedHead] using h
      obtain ⟨text, tail, hdrop, htext, hover⟩ := Line.scan_tooLong_front hline
      rw [List.drop_zero] at hdrop
      refine ⟨rfl, rfl, rfl, .inl ⟨rfl, ?_, rfl⟩⟩
      rw [hdrop]
      exact .tooLong htext (by omega)
  | startRefused hline hread =>
      obtain ⟨rfl, rfl⟩ : cause = _ ∧ head = _ := by simpa [Step.refuse, Event.refusedHead] using h
      have hcause := Fault.isClosure_of_inText (StartLine.inText_of_read hread)
      obtain ⟨text, mark, later, hdrop, htext, hmark, rfl, hle⟩ := Line.scan_found_front hline
      rw [Line.bytes_ofText hdrop] at hread
      rw [List.drop_zero] at hdrop
      refine ⟨rfl, rfl, hcause, .inl ⟨rfl, ?_, rfl⟩⟩
      rw [hdrop]
      exact .malformed htext (by omega) hmark hread
  | headerRefused hread =>
      obtain ⟨rfl, rfl⟩ : cause = _ ∧ head = _ := by simpa [Step.refuse, Event.refusedHead] using h
      have hcause := FieldBlock.isClosure_of_read (congrArg Prod.snd hread)
      exact ⟨rfl, rfl, hcause, .inr ⟨_, _, _, _, _, rfl, hread, rfl, .refused⟩⟩
  | unframed hread hhead hlength =>
      obtain ⟨rfl, rfl⟩ : cause = _ ∧ head = _ := by simpa [Step.refuse, Event.refusedHead] using h
      have hcause := Fault.isClosure_of_inText (BodyLength.inText_of_select hlength)
      subst hhead
      exact ⟨rfl, rfl, hcause, .inr ⟨_, _, _, _, _, rfl, hread, rfl, .unframed hlength⟩⟩
  | unsupported hread hhead hlength hlimits =>
      obtain ⟨rfl, rfl⟩ : cause = _ ∧ head = _ := by simpa [Step.refuse, Event.refusedHead] using h
      subst hhead
      exact ⟨rfl, rfl, rfl, .inr ⟨_, _, _, _, _, rfl, hread, rfl, .unsupported hlength hlimits⟩⟩
  | _ => simp [Step.proceed, Step.wait, Step.refuse, Event.refusedContent] at h

end Phase

/-! ## Walks -/

namespace Walk

variable {rest : Bytes} {record : List Entry} {phase : Phase}

/-- The head that is kept when an open header block has come to an outcome for which the head fails. -/
theorem keeps_head {first : StartLine} {fields : Fields} {block : FieldBlock}
    (h : Walk direction limits input record (.header first fields block) rest) {more : List Field}
    {outcome : FieldBlock.Outcome} {cause : Fault}
    (hread : block.read limits.header limits.strict rest = (more, outcome))
    (hfails : Head.FailsBy direction limits { startLine := first, fields := fields.append more }
      outcome cause) :
    ∃ message, EndsInMessage direction limits input record message ∧ BeginsAtOnce message ∧
      Head.Keeps direction limits message cause
        { startLine := first, fields := fields.append more, verdict := .failure cause } := by
  obtain ⟨line, mark, haccepted, hbegins, hmessage⟩ := h.begins
  obtain ⟨written, tail, rfl, harrived, hends⟩ :=
    FieldBlock.read_ends (Nat.zero_le _) (h.reads_header hread)
  exact ⟨_, hmessage, hbegins, .read haccepted harrived hends.isPrefix hends hfails⟩

theorem step_fails {cause : Fault} {head : Head}
    (h : Walk direction limits input record phase rest)
    (hevent : .failure cause (.head head) ∈ (Phase.step direction limits phase rest).events) :
    ∃ message, EndsInMessage direction limits input record message ∧ BeginsAtOnce message ∧
      Head.Keeps direction limits message cause head := by
  obtain ⟨-, -, -, ⟨rfl, hfails, rfl⟩ |
    ⟨first, fields, block, more, outcome, rfl, hread, rfl, hfails⟩⟩ :=
      (Phase.step_move direction limits phase rest).fails_head hevent
  · obtain ⟨hbegins, hmessage⟩ := h.begins
    exact ⟨rest, hmessage, hbegins, .placeholder hfails⟩
  · exact h.keeps_head hread hfails

end Walk

/-! ## Connections -/

namespace Connection

variable {new : Connection} {before later : List Entry} {read : Nat}

theorem record_split {connection : Connection} {arrived : Nat} {calls : List Call} {event : Event}
    (h : connection.record arrived calls = before ++ .report read event :: later) :
    ∃ earlier call others front back, calls = earlier ++ call :: others ∧
      before = connection.record arrived earlier ++ front ∧
      (connection.after earlier).entries (arrived + (earlier.flatMap Call.bytes).length) call =
        front ++ .report read event :: back := by
  induction calls generalizing connection arrived before with
  | nil => exact absurd h (by simp [record])
  | cons call calls ih =>
      rcases append_eq_append_cons h with ⟨back, hentries, -⟩ | ⟨front, rfl, hothers⟩
      · exact ⟨[], call, calls, before, back, rfl, rfl, hentries⟩
      · obtain ⟨earlier, call', others, front', back, rfl, rfl, hentries⟩ := ih hothers
        refine ⟨call :: earlier, call', others, front', back, rfl, ?_, ?_⟩
        · rw [record, List.append_assoc]
        · rw [List.flatMap_cons, List.length_append, ← Nat.add_assoc]
          exact hentries

/-- The entries of what a call reads. -/
def readEntries (connection : Connection) (arrived : Nat) (call : Call) : List Entry :=
  connection.forgets ++ (connection.trail call).flatMap
    (Phase.stepEntries connection.reader.direction connection.reader.limits
      (arrived + call.bytes.length))

/-- Nothing that is read says that a head was cut short. -/
theorem not_mem_readEntries {connection : Connection} {arrived : Nat} {call : Call} {cause : Fault}
    {head : Head} (hcause : cause.isClosure = true) :
    .report read (.failure cause (.head head)) ∉ connection.readEntries arrived call := by
  intro hmem
  rcases List.mem_append.1 hmem with hforgets | hsteps
  · unfold forgets at hforgets
    split at hforgets
    · simp at hforgets
    · simp at hforgets
  · obtain ⟨place, -, hentry⟩ := List.mem_flatMap.1 hsteps
    obtain ⟨event, hevent, heq⟩ := List.mem_map.1 hentry
    cases heq
    obtain ⟨-, -, hother, -⟩ := (Phase.step_move _ _ _ _).fails_head hevent
    exact Bool.noConfusion (hother.symm.trans hcause)

theorem of_endEntries {connection : Connection} {arrived : Nat} {front back : List Entry}
    {event : Event} (h : connection.endEntries arrived = front ++ .report read event :: back) :
    front = [.ended arrived] ∧
      (connection.reader.feed connection.buffer).reader.phase.atClose = some event := by
  simp only [endEntries] at h
  cases hclose : (connection.reader.feed connection.buffer).reader.phase.atClose with
  | none =>
      rw [hclose] at h
      exact absurd (congrArg (.report read event ∈ ·) h) (by simp)
  | some event' =>
      rw [hclose] at h
      cases front with
      | nil => cases h
      | cons entry front =>
          obtain ⟨rfl, hreport⟩ := List.cons.inj h
          obtain ⟨rfl, heq, -⟩ := Framed.cons_eq_append_cons hreport List.not_mem_nil
          cases heq
          exact ⟨rfl, rfl⟩

/-- Before a connection ends, everything that has arrived is read as far as possible: nothing more can be
taken of a header block that is still open. -/
theorem walk_closing (hstart : start direction limits = .ok new) (earlier : List Call) :
    let here := new.after earlier
    let arrived := earlier.flatMap Call.bytes
    let answer := here.reader.feed here.buffer
    Walk direction limits arrived (new.record 0 earlier ++ here.readEntries arrived.length .close)
        answer.reader.phase answer.rest ∧
      ∀ first fields block, answer.reader.phase = .header first fields block →
        block.read limits.header limits.strict answer.rest = ([], .incomplete block) := by
  intro here arrived answer
  obtain ⟨hdirection, hlimits⟩ := start_reader hstart earlier
  have hwalk := start_walk hstart earlier
  rw [← hdirection, ← hlimits] at hwalk ⊢
  have hfeed := walk_feed hwalk .close rfl
  simp only [Call.bytes, List.append_nil] at hfeed
  exact ⟨hfeed, fun first fields block hphase => Phase.run_header hphase⟩

/-- A head that is cut short is reported by a call that ends the connection. It has then been read as far
as it had arrived. -/
theorem cut_short (hstart : start direction limits = .ok new) {calls : List Call} {cause : Fault}
    {head : Head}
    (hrecord : new.record 0 calls = before ++ .report read (.failure cause (.head head)) :: later)
    (hcause : cause.isClosure = true) :
    ∃ earlier others record first fields block rest, calls = earlier ++ .close :: others ∧
      before = record ++ [.ended (earlier.flatMap Call.bytes).length] ∧
      Walk direction limits (earlier.flatMap Call.bytes) record (.header first fields block) rest ∧
      block.read limits.header limits.strict rest = ([], .incomplete block) ∧
      cause = .prematureClosure .headers ∧
      head = { startLine := first, fields, verdict := .failure cause } := by
  obtain ⟨earlier, call, others, front, back, rfl, rfl, hentries⟩ := record_split hrecord
  rw [Nat.zero_add] at hentries
  have hreport : .report read (.failure cause (.head head)) ∈
      (new.after earlier).entries (earlier.flatMap Call.bytes).length call := by
    rw [hentries]
    exact List.mem_append_right front List.mem_cons_self
  cases call with
  | push bytes => exact absurd hreport (not_mem_readEntries hcause)
  | receive bytes => exact absurd hreport List.not_mem_nil
  | requestReset => exact absurd hreport List.not_mem_nil
  | declineBody => exact absurd hreport List.not_mem_nil
  | close =>
      change (new.after earlier).readEntries _ .close ++ (new.after earlier).endEntries _ = _
        at hentries
      rcases append_eq_append_cons hentries with ⟨middle, hreads, -⟩ | ⟨middle, rfl, hend⟩
      · have hearly : .report read (.failure cause (.head head)) ∈
            (new.after earlier).readEntries (earlier.flatMap Call.bytes).length .close := by
          rw [hreads]
          exact List.mem_append_right front List.mem_cons_self
        exact absurd hearly (not_mem_readEntries hcause)
      · obtain ⟨rfl, hclose⟩ := of_endEntries hend
        obtain ⟨hwalk, hread⟩ := walk_closing hstart earlier
        generalize (new.after earlier).reader.feed (new.after earlier).buffer = answer
          at hclose hwalk hread
        cases hphase : answer.reader.phase with
        | header first fields block =>
            rw [hphase] at hclose hwalk
            cases hclose
            exact ⟨earlier, others, _, first, fields, block, answer.rest, rfl,
              (List.append_assoc _ _ _).symm, hwalk, hread _ _ _ hphase, rfl, rfl⟩
        | _ =>
            rw [hphase] at hclose
            cases hclose

/-- A head that is refused, but not because the connection ends, is reported when all of its bytes are
read. -/
theorem refused_head (hstart : start direction limits = .ok new) {calls : List Call} {cause : Fault}
    {head : Head}
    (hrecord : new.record 0 calls = before ++ .report read (.failure cause (.head head)) :: later)
    (hcause : cause.isClosure = false) :
    ∃ arrived message, arrived <+: calls.flatMap Call.bytes ∧ read = arrived.length ∧
      EndsInMessage direction limits arrived before message ∧ BeginsAtOnce message ∧
      Head.Keeps direction limits message cause head := by
  obtain ⟨input, record, phase, rest, hinput, walk, ⟨earlier, others, hevents, rfl, rfl⟩ |
    ⟨hclose, -⟩⟩ := (start_walk hstart calls).reported_at hrecord
  · have hevent : .failure cause (.head head) ∈ (Phase.step direction limits phase rest).events := by
      rw [hevents]
      exact List.mem_append_right earlier List.mem_cons_self
    obtain ⟨hone, hrest, -⟩ := (Phase.step_move direction limits phase rest).fails_head hevent
    obtain ⟨message, hmessage, hbegins, hkeeps⟩ := walk.step_fails hevent
    rw [hone] at hevents
    obtain ⟨rfl, -, -⟩ := Framed.cons_eq_append_cons hevents List.not_mem_nil
    rw [hrest, List.length_nil, Nat.sub_zero, List.map_nil, List.append_nil]
    exact ⟨input, message, hinput, rfl, hmessage, hbegins, hkeeps⟩
  · -- what the end of a connection says of a head is that it was cut short
    cases phase <;> cases hclose
    exact Bool.noConfusion hcause

/-- A head that fails keeps exactly what was read of it, whatever is called in whatever order, and however
the bytes are cut.

The message is the end of what had arrived by then, and the head can be told from its bytes. Without a
start line it is the placeholder. Otherwise it has the start line and the first fields of its block, in
order and as they are written: all fields before one that is refused, all fields of a block that is closed,
and all fields that another line follows of a block that goes over the limit or is cut short by the end of
the connection.

The message begins where the last report had been read to, or where a message has been forgotten since,
with nothing but padding and lines that are no start lines between. So it has no byte of a message that was
complete or refused; what had not been read of a message that was cut short or forgotten is taken for its
beginning. -/
theorem failed_head_keeps (hstart : start direction limits = .ok new) (calls : List Call)
    {cause : Fault} {head : Head}
    (hrecord : new.record 0 calls = before ++ .report read (.failure cause (.head head)) :: later) :
    ∃ arrived message, arrived <+: calls.flatMap Call.bytes ∧
      (cause.isClosure = false → read = arrived.length) ∧
      (cause.isClosure = true → before.getLast? = some (.ended arrived.length)) ∧
      EndsInMessage direction limits arrived before message ∧ BeginsAtOnce message ∧
      Head.Keeps direction limits message cause head := by
  cases hcause : cause.isClosure with
  | false =>
      obtain ⟨arrived, message, hinput, hread, hmessage⟩ := refused_head hstart hrecord hcause
      exact ⟨arrived, message, hinput, fun _ => hread, nofun, hmessage⟩
  | true =>
      obtain ⟨earlier, others, record, first, fields, block, rest, rfl, rfl, walk, hread, rfl, rfl⟩ :=
        cut_short hstart hrecord hcause
      obtain ⟨message, hmessage, hbegins, hkeeps⟩ := walk.keeps_head hread .cutShort
      rw [Fields.append_nil] at hkeeps
      rw [List.flatMap_append]
      exact ⟨_, message, List.prefix_append _ _, nofun, fun _ => List.getLast?_concat,
        hmessage.ended _, hbegins, hkeeps⟩

/-- The second of two requests is cut short while its last field is open. -/
theorem failed_head_keeps_complete_fields :
    let new : Connection := { reader := ⟨.request, {}, by decide, .idle, false⟩ }
    let calls : List Call :=
      [.push (toBytes "GET /a HTTP/1.1\r\nX: y\r\n\r\n\nnoise\nGET /b HTTP/1.1\r\nA: b\r\n c\r\nD"),
        .push (toBytes ": e\r\n f\r\n g: h\r"), .close]
    let other : Head := { startLine := .request "GET" "/a" .http11, fields := ⟨[⟨"X", "y"⟩]⟩ }
    let cause : Fault := .prematureClosure .headers
    let kept : Head :=
      { startLine := .request "GET" "/b" .http11, fields := ⟨[⟨"A", "b c"⟩]⟩
        verdict := .failure cause }
    start .request {} = .ok new ∧
      new.record 0 calls = [.report 25 (.head other), .report 25 (.last {}), .ended 75,
        .report 49 (.failure cause (.head kept))] ∧
      ∃ origin skipped message, calls.flatMap Call.bytes = origin ++ (skipped ++ message) ∧
        origin.length = 25 ∧ PassedOver .request {} skipped message ∧ BeginsAtOnce message ∧
        Head.Keeps .request {} message cause kept := by
  intro new calls other cause kept
  have hrecord : new.record 0 calls =
      [.report 25 (.head other), .report 25 (.last {}), .ended 75] ++
        .report 49 (.failure cause (.head kept)) :: [] := by decide +kernel
  have hstart : start .request {} = .ok new := rfl
  obtain ⟨arrived, message, hinput, -, hended, ⟨origin, skipped, hmessage, hat⟩, hbegins, hkeeps⟩ :=
    failed_head_keeps hstart calls hrecord
  have hlength : 75 = arrived.length := by
    have hlast := hended rfl
    simpa using hlast
  have hall : arrived = calls.flatMap Call.bytes := by
    refine hinput.eq_of_length ?_
    rw [← hlength]
    decide +kernel
  refine ⟨hstart, hrecord, origin, skipped, message, ?_, hat.recorded 25 rfl, hat.passedOver, hbegins,
    hkeeps⟩
  rw [← hall]
  exact hmessage

/-- A header block that is cut short is read again as the beginning of another message. The head of that
one, when it fails as well, has fields that were read with the first one. -/
theorem failed_head_of_another :
    let new : Connection := { reader := ⟨.request, {}, by decide, .idle, false⟩ }
    let calls : List Call :=
      [.push (toBytes "GET /a HTTP/1.1\r\nGET /b HTTP/1.1\r\nHost: x\r\nA: b\r\n"), .close,
        .push (toBytes "GET /c HTTP/1.1\r\nBad\x01Name: v\r\n\r\n")]
    let first : Head :=
      { startLine := .request "GET" "/a" .http11
        fields := ⟨[⟨"GET", ""⟩, ⟨"Host", "x"⟩]⟩ }
    let second : Head :=
      { startLine := .request "GET" "/b" .http11
        fields := ⟨[⟨"Host", "x"⟩, ⟨"A", "b"⟩, ⟨"GET", ""⟩]⟩ }
    start .request {} = .ok new ∧
      new.events calls =
        [.refusedHead first (.prematureClosure .headers),
          .refusedHead second (.invalidHeaderName "Bad\x01Name")] := by
  intro new calls first second
  exact ⟨rfl, by decide +kernel⟩

end Connection

end HttpWire

import HttpWire.Proofs.RoundTrip.Chunks

/-!
# Written messages are read back

Well-formed messages that are written one after the other are reported as they are, each by its head
and by its end with the whole body, however the bytes are cut into pieces. Only the last of them may
extend to the end of the connection or hand the connection over.

- `Phase.run_message`, `Phase.run_openMessage`: a run through one message.
- `Phase.run_messages`: a run through all of them.
- `Connection.reads_written`: what a new connection reports of them.
-/

set_option autoImplicit false

namespace HttpWire

open Text Event

/-! ## One message -/

namespace Phase

variable {direction : Direction} {limits : Limits}

theorem run_startLine {first : StartLine} (h : first.WellFormed direction)
    (hle : (toBytes first.text).length ≤ limits.line) (rest : Bytes) :
    run direction limits .idle (endLine (toBytes first.text) ++ rest) =
      run direction limits (.header first {} {}) rest :=
  run_line (StartLine.read_text h) (StartLine.isLineEnd_of_mem_text h)
    (StartLine.exists_cons_text h) hle rest

/-- The step that ends a written header block, from the moves that can follow it. -/
theorem run_head {message : Message} (h : message.WellFormed direction)
    (hadmitted : message.Admitted limits) (rest : Bytes) :
    ∃ buffer next, FieldBlock.read limits.header limits.strict buffer {} =
          (message.fields, .complete next (Fields.charge message.fields)) ∧
      buffer.drop next = message.body.write ++ rest ∧
      run direction limits .idle (message.write ++ rest) =
        run direction limits (.header message.startLine {} {}) buffer := by
  have hle : 0 + Fields.charge message.fields ≤ limits.header := by
    have hfields := hadmitted.fields
    omega
  obtain ⟨next, hread, hrest⟩ :=
    FieldBlock.read_writeBlock limits.strict h.fields hle (message.body.write ++ rest)
  rw [Nat.zero_add] at hread
  refine ⟨_, next, hread, hrest, ?_⟩
  rw [Message.write, List.append_assoc, List.append_assoc]
  exact run_startLine h.startLine hadmitted.startLine _

theorem run_message (hvalid : limits.Valid) {message : Message}
    (h : message.WellFormed direction) (hadmitted : message.Admitted limits)
    (hclosed : BodyLength.select direction message.head ≠ .ok .untilClose) (rest : Bytes) :
    (run direction limits .idle (message.write ++ rest)).Same
      ((run direction limits (afterMessage (message.head.handsOver direction)) rest).after
        message.reports) := by
  obtain ⟨length, hselect, hbody⟩ := h.body
  obtain ⟨buffer, next, hread, hrest, hrun⟩ := run_head h hadmitted rest
  have hhead : message.head =
      { startLine := message.startLine, fields := ({} : Fields).append message.fields } := rfl
  rw [hrun]
  rcases message with ⟨first, fields, body⟩
  cases length with
  | empty =>
      cases body with
      | chunked chunks last trailers => exact hbody.elim
      | plain data =>
          have hdata : data = [] := hbody
          subst hdata
          rw [run_of_proceed (Move.bodiless hread hhead hselect (.inl rfl)).step_eq, hrest]
          exact .refl _
  | fixed length =>
      cases body with
      | chunked chunks last trailers => exact hbody.elim
      | plain data =>
          have hdata : data.length = length := hbody
          subst hdata
          by_cases hempty : data = []
          · subst hempty
            rw [run_of_proceed (Move.bodiless hread hhead hselect (.inr rfl)).step_eq, hrest]
            exact .refl _
          · have hpos := List.length_pos_iff.2 hempty
            rw [run_of_proceed (Move.fixedBody hread hhead hselect hpos).step_eq, hrest]
            have hdata := (countsDown_fixed direction limits data.length
              (Head.handsOver direction ⟨first, ⟨fields⟩, .success⟩)).run_full hvalid hempty rest
            exact hdata.after _
  | chunked =>
      cases body with
      | plain data => exact hbody.elim
      | chunked chunks last trailers =>
          have hlimits := hadmitted.chunked (by simp [Body.sizeLines])
          have hchunked := run_chunked direction hvalid hbody hadmitted.sizes hadmitted.fields
            (Head.handsOver direction ⟨first, ⟨fields⟩, .success⟩) rest
          rw [run_of_proceed (Move.chunkedBody hread hhead hselect hlimits).step_eq, hrest]
          exact hchunked.after _
  | untilClose => exact absurd hselect hclosed

theorem run_openMessage (hvalid : limits.Valid) {message : Message}
    (h : message.WellFormed direction) (hadmitted : message.Admitted limits)
    (hopen : BodyLength.select direction message.head = .ok .untilClose) :
    (run direction limits .idle message.write).Same
      ⟨.untilClose, [], .head message.head :: piece message.body.data⟩ ∧
    message.reports = [.head message.head, .last { data := message.body.data }] := by
  obtain ⟨length, hselect, hbody⟩ := h.body
  rw [hopen] at hselect
  cases hselect
  obtain ⟨buffer, next, hread, hrest, hrun⟩ := run_head h hadmitted []
  have hhead : message.head =
      { startLine := message.startLine, fields := ({} : Fields).append message.fields } := rfl
  rw [List.append_nil] at hrest hrun
  rcases message with ⟨first, fields, body⟩
  cases body with
  | chunked chunks last trailers => exact hbody.elim
  | plain data =>
      rw [hrun, run_of_proceed (Move.openBody hread hhead hopen).step_eq, hrest]
      exact ⟨(run_untilClose hvalid data).after _, rfl⟩

/-! ## Many messages -/

theorem merge_reports (messages : List Message) (events : List Event) :
    merge (messages.flatMap Message.reports ++ events) =
      messages.flatMap Message.reports ++ merge events := by
  induction messages with
  | nil => rfl
  | cons message messages ih =>
      rw [List.flatMap_cons, List.append_assoc, List.append_assoc, ← ih]
      rfl

/-- Between messages, or after a switch of protocol, nothing is done without bytes. -/
theorem run_afterMessage_nil (direction : Direction) (limits : Limits) (switches : Bool) :
    run direction limits (afterMessage switches) [] = ⟨afterMessage switches, [], []⟩ := by
  cases switches with
  | false =>
      have hnone : ∀ b ∈ ([] : Bytes), isPadding b = true := nofun
      exact run_of_wait (Move.padding hnone).step_eq
  | true => exact run_raw []

/-- A run through messages reports all of them. If the last of them extends to the end of the
connection, its end is still missing. -/
theorem run_messages (hvalid : limits.Valid) {messages : List Message}
    (h : ∀ message ∈ messages, message.WellFormed direction)
    (hadmitted : ∀ message ∈ messages, message.Admitted limits)
    (hfinal : ∀ message ∈ messages.dropLast, ¬ message.IsFinal direction) :
    (∃ switches, (run direction limits .idle (messages.flatMap Message.write)).Same
      ⟨afterMessage switches, [], messages.flatMap Message.reports⟩) ∨
    (∃ events, (run direction limits .idle (messages.flatMap Message.write)).Same
        ⟨.untilClose, [], events⟩ ∧
      merge (events ++ [.last {}]) = messages.flatMap Message.reports ∧
      ∃ message ∈ messages, BodyLength.select direction message.head = .ok .untilClose) := by
  induction messages with
  | nil =>
      have hrun : run direction limits .idle [] = ⟨afterMessage false, [], []⟩ :=
        run_afterMessage_nil direction limits false
      refine .inl ⟨false, ?_⟩
      rw [List.flatMap_nil, List.flatMap_nil, hrun]
      exact .refl _
  | cons message messages ih =>
      obtain ⟨hmessage, hmessages⟩ := List.forall_mem_cons.1 h
      obtain ⟨hfirst, hothers⟩ := List.forall_mem_cons.1 hadmitted
      by_cases hopen : BodyLength.select direction message.head = .ok .untilClose
      · cases messages with
        | nil =>
            -- the end of the last message comes with the end of the connection
            obtain ⟨hrun, hreports⟩ := run_openMessage hvalid hmessage hfirst hopen
            refine .inr ⟨.head message.head :: piece message.body.data, ?_, ?_,
              message, List.mem_cons_self, hopen⟩
            · rw [List.flatMap_cons, List.flatMap_nil, List.append_nil]
              exact hrun
            · have hlast := merge_piece_last message.body.data {} []
              rw [List.flatMap_cons, List.flatMap_nil, List.append_nil, hreports, List.cons_append,
                merge_cons, hlast, List.append_nil]
              rfl
        | cons second messages =>
            rw [List.dropLast_cons_cons] at hfinal
            exact absurd (.inl hopen) (hfinal message List.mem_cons_self)
      · have hrun := run_message hvalid hmessage hfirst hopen (messages.flatMap Message.write)
        rw [List.flatMap_cons, List.flatMap_cons]
        cases messages with
        | nil =>
            refine .inl ⟨message.head.handsOver direction, ?_⟩
            rw [List.flatMap_nil, run_afterMessage_nil] at hrun
            exact hrun
        | cons second messages =>
            rw [List.dropLast_cons_cons] at hfinal
            obtain ⟨hnot, hfinals⟩ := List.forall_mem_cons.1 hfinal
            have hswitches : message.head.handsOver direction = false := by
              rw [← Bool.not_eq_true]
              exact fun hswitches => hnot (.inr hswitches)
            rw [hswitches, show afterMessage false = .idle from rfl] at hrun
            rcases ih hmessages hothers hfinals with
              ⟨switches, hsame⟩ | ⟨events, hsame, hmerge, last, hlast, hselect⟩
            · exact .inl ⟨switches, hrun.trans (hsame.after message.reports)⟩
            · refine .inr ⟨message.reports ++ events, hrun.trans (hsame.after message.reports), ?_,
                last, List.mem_cons_of_mem message hlast, hselect⟩
              rw [List.append_assoc, ← hmerge]
              exact merge_reports [message] _

end Phase

/-! ## Connections -/

namespace Connection

variable {direction : Direction} {limits : Limits} {new : Connection}

theorem start_push (hstart : start direction limits = .ok new) (bytes : Bytes) :
    new.push bytes = (new.afterRun (Phase.run direction limits .idle bytes),
      (Phase.run direction limits .idle bytes).events) := by
  obtain ⟨valid, rfl⟩ := start_eq hstart
  rfl

/-- A new connection receives bytes in pieces, possibly in none, with the effect of the whole. -/
theorem start_push_pieces (hstart : start direction limits = .ok new) (pieces : List Bytes) :
    new.after (pieces.map .push) = (new.push pieces.flatten).1 ∧
      merge (new.events (pieces.map .push)) = merge (new.push pieces.flatten).2 := by
  cases pieces with
  | nil =>
      have hrun : Phase.run direction limits .idle [] = ⟨.idle, [], []⟩ :=
        Phase.run_afterMessage_nil direction limits false
      rw [List.flatten_nil, start_push hstart, hrun]
      obtain ⟨valid, rfl⟩ := start_eq hstart
      exact ⟨rfl, rfl⟩
  | cons first pieces =>
      have hsound : new.Sound := (start_walk hstart []).sound
      exact push_pieces hsound first pieces

/-- A connection that ends where a run left it reports what its phase does, if nothing is left and
nothing is done without bytes. -/
theorem start_close (hstart : start direction limits = .ok new) (run : Phase.Run)
    (hrest : run.rest = [])
    (hidle : Phase.run direction limits run.phase [] = ⟨run.phase, [], []⟩) :
    ((new.afterRun run).call .close).2 = run.phase.atClose.toList := by
  obtain ⟨valid, rfl⟩ := start_eq hstart
  rw [call_close]
  simp only [Reader.feed, Reader.currentPhase, afterRun, Bool.false_eq_true, if_false, hrest,
    hidle, List.nil_append]

/-- Well-formed messages that are written one after the other, within the limits of a new
connection, are read back. However the bytes are cut into pieces, the connection reports each
message by its head and by its end, and nothing else, and reads everything. Only the last message
may extend to the end of the connection or hand the connection over; unless it extends to the end,
everything is reported before the connection ends. -/
theorem reads_written (hstart : start direction limits = .ok new) {messages : List Message}
    (hwellFormed : ∀ message ∈ messages, message.WellFormed direction)
    (hadmitted : ∀ message ∈ messages, message.Admitted limits)
    (hfinal : ∀ message ∈ messages.dropLast, ¬ message.IsFinal direction)
    {pieces : List Bytes} (hpieces : pieces.flatten = messages.flatMap Message.write) :
    merge (new.events (pieces.map .push ++ [.close])) = messages.flatMap Message.reports ∧
      (new.after (pieces.map .push)).buffer = [] ∧
      ((∀ message ∈ messages, BodyLength.select direction message.head ≠ .ok .untilClose) →
        merge (new.events (pieces.map .push)) = messages.flatMap Message.reports ∧
          ((new.after (pieces.map .push)).call .close).2 = []) := by
  have hvalid : limits.Valid := (start_eq hstart).1
  obtain ⟨hafter, hevents⟩ := start_push_pieces hstart pieces
  rw [hpieces, start_push hstart] at hafter hevents
  have hreports : merge (messages.flatMap Message.reports) = messages.flatMap Message.reports := by
    have hmerge := Phase.merge_reports messages []
    rwa [List.append_nil, merge_nil, List.append_nil] at hmerge
  have hclosing : new.events (pieces.map .push ++ [.close]) =
      new.events (pieces.map .push) ++ ((new.after (pieces.map .push)).call .close).2 := by
    rw [events_append]
    exact congrArg _ (List.append_nil _)
  rw [hclosing, hafter]
  rcases Phase.run_messages hvalid hwellFormed hadmitted hfinal with
    ⟨switches, hsame⟩ | ⟨events, hsame, hmerge, last, hlast, hselect⟩
  · -- everything has been reported, and the end of the connection adds nothing
    have hall := (hevents.trans hsame.events).trans hreports
    have hclose := start_close hstart
      ⟨Phase.afterMessage switches, [], messages.flatMap Message.reports⟩ rfl
      (Phase.run_afterMessage_nil direction limits switches)
    have hquiet : (Phase.afterMessage switches).atClose.toList = [] := by
      cases switches <;> rfl
    rw [afterRun_congr new hsame, hclose, hquiet, List.append_nil]
    exact ⟨hall, rfl, fun _ => ⟨hall, rfl⟩⟩
  · -- the end of the last message is reported when the connection ends, and takes its data
    have hidle : Phase.run direction limits .untilClose [] = ⟨.untilClose, [], []⟩ :=
      Phase.run_of_wait (Phase.Move.openWaits List.take_nil).step_eq
    have hclose := start_close hstart ⟨.untilClose, [], events⟩ rfl hidle
    rw [afterRun_congr new hsame, hclose]
    refine ⟨?_, rfl, fun hclosed => absurd hselect (hclosed last hlast)⟩
    exact (merge_append_congr (hevents.trans hsame.events) rfl).trans hmerge

/-- A chunked response and one of two bytes, which are a line end, arrive in pieces. The second is
cut inside the CR LF after its start line. -/
theorem reads_written_two_responses :
    let chunked : Message := {
      startLine := .status .http11 200 "OK"
      fields := [⟨"Transfer-Encoding", "chunked"⟩]
      body := .chunked [⟨⟨toBytes "01", toBytes ";x"⟩, toBytes "a", [cr]⟩] ⟨toBytes "0", []⟩
        [⟨"T", "t"⟩] }
    let fixed : Message := {
      startLine := .status .http11 200 ""
      fields := [⟨"Content-Length", "2"⟩]
      body := .plain [cr, lf] }
    let new : Connection := { reader := ⟨.response, {}, by decide, .idle, false⟩ }
    let pieces : List Bytes := [chunked.write ++ fixed.write.take 14, [], fixed.write.drop 14]
    start .response {} = .ok new ∧
      (∀ message ∈ [chunked, fixed], message.WellFormed .response) ∧
      (∀ message ∈ [chunked, fixed], message.Admitted {}) ∧
      (∀ message ∈ [chunked, fixed].dropLast, ¬ message.IsFinal .response) ∧
      pieces.flatten = [chunked, fixed].flatMap Message.write ∧
      (∀ message ∈ [chunked, fixed],
        BodyLength.select .response message.head ≠ .ok .untilClose) ∧
      merge (new.events (pieces.map .push ++ [.close])) = chunked.reports ++ fixed.reports ∧
      merge (new.events (pieces.map .push)) = chunked.reports ++ fixed.reports := by
  intro chunked fixed new pieces
  have hversion : Version.http11.WellFormed := ⟨by decide +kernel, by decide +kernel, rfl⟩
  have hsize : SizeLine.Gives ⟨toBytes "01", toBytes ";x"⟩ 1 :=
    ⟨⟨1, by decide +kernel⟩, by decide +kernel, by decide +kernel, by decide +kernel⟩
  have hlast : SizeLine.Gives ⟨toBytes "0", []⟩ 0 :=
    ⟨⟨0, by decide +kernel⟩, by decide +kernel, by decide +kernel, by decide +kernel⟩
  have hchunks : ∀ chunk ∈ [(⟨⟨toBytes "01", toBytes ";x"⟩, toBytes "a", [cr]⟩ : Chunk)],
      chunk.WellFormed := by
    intro chunk hchunk
    cases List.mem_singleton.1 hchunk
    exact ⟨by decide +kernel, hsize, by decide +kernel⟩
  have hselect : BodyLength.select .response chunked.head = .ok .chunked := rfl
  have hselect' : BodyLength.select .response fixed.head = .ok (.fixed 2) := rfl
  have hwellFormed : ∀ message ∈ [chunked, fixed], message.WellFormed .response := by
    refine List.forall_mem_cons.2 ⟨⟨?_, by decide +kernel, .chunked, hselect, ?_⟩,
      List.forall_mem_singleton.2 ⟨?_, by decide +kernel, .fixed 2, hselect', rfl⟩⟩
    · exact ⟨hversion, by decide +kernel, by decide +kernel, by decide +kernel, by decide +kernel⟩
    · exact ⟨hchunks, hlast, by decide +kernel⟩
    · exact ⟨hversion, by decide +kernel, by decide +kernel, by decide +kernel, by decide +kernel⟩
  have hadmitted : ∀ message ∈ [chunked, fixed], message.Admitted {} := by
    refine List.forall_mem_cons.2 ⟨⟨?_, ?_, ?_, fun _ => rfl⟩,
      List.forall_mem_singleton.2 ⟨?_, ?_, ?_, fun _ => rfl⟩⟩
    all_goals decide +kernel
  have hfinal : ∀ message ∈ [chunked, fixed].dropLast, ¬ message.IsFinal .response := by
    intro message hmessage
    cases List.mem_singleton.1 hmessage
    rintro (hopen | hswitches)
    · exact nomatch hselect.symm.trans hopen
    · exact nomatch hswitches
  have hpieces : pieces.flatten = [chunked, fixed].flatMap Message.write := by
    simp only [pieces, List.flatten_cons, List.flatten_nil, List.flatMap_cons, List.flatMap_nil,
      List.append_assoc, List.nil_append, List.append_nil, List.take_append_drop]
  have hclosed : ∀ message ∈ [chunked, fixed],
      BodyLength.select .response message.head ≠ .ok .untilClose := by
    refine List.forall_mem_cons.2 ⟨?_, List.forall_mem_singleton.2 ?_⟩
    · exact fun hopen => nomatch hselect.symm.trans hopen
    · exact fun hopen => nomatch hselect'.symm.trans hopen
  obtain ⟨hreports, -, hearly⟩ := reads_written rfl hwellFormed hadmitted hfinal hpieces
  exact ⟨rfl, hwellFormed, hadmitted, hfinal, hpieces, hclosed, hreports, (hearly hclosed).1⟩

end Connection

end HttpWire

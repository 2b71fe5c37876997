import HttpWire.Proofs.History

/-!
# How much waits in a buffer

A start line, a chunk-size line or a field block that is incomplete waits in the buffer until the
rest of it arrives; nothing else waits. End marks are free, and a block is taken only as a whole, so
the bound does not follow from the limits at once: it rests on every line that leaves a block open
having a byte that is charged.

- `Line.scan_incomplete`: how long a buffer can be in which a line is incomplete.
- `FieldBlock.Charged`: what has been taken of a block is paid for. `FieldBlock.Charged.next` says
  that a line which leaves the block open keeps it so.
- `Phase.keeps`: the phases in which bytes wait; `Phase.run_rest` says that nothing waits in another.
- `Connection.buffered_le`: the bound, after every call that reads.
-/

set_option autoImplicit false

namespace HttpWire

open Text

/-! ## Lines -/

namespace Line

variable {limit charged start : Nat} {buffer : Bytes}

/-- An end mark has one byte or two, and only a byte that may begin one is not told apart. -/
theorem endMark?_cases (bytes : Bytes) :
    (endMark? bytes = none ∧ bytes.length ≤ 1) ∨ ∃ mark ≤ 2, endMark? bytes = some mark := by
  match bytes with
  | [] => exact .inl ⟨rfl, Nat.zero_le 1⟩
  | [b] =>
      by_cases hcr : b = cr
      · exact .inl ⟨by simp [endMark?, hcr], Nat.le_refl 1⟩
      · exact .inr ⟨1, by decide, by simp [endMark?, hcr]⟩
  | b :: c :: rest =>
      refine .inr ?_
      simp only [endMark?]
      split
      · exact ⟨2, Nat.le_refl 2, rfl⟩
      · exact ⟨1, by decide, rfl⟩

/-- The end mark of a line that is found has two bytes at most. -/
theorem scan_next_le {line : Line} (h : scan limit charged buffer start = .found line) :
    line.next ≤ line.stop + 2 := by
  simp only [scan] at h
  split at h
  · cases h
  · split at h
    · cases h
    · rename_i mark hmark
      rcases endMark?_cases ((buffer.drop start).drop
        ((buffer.drop start).takeWhile fun b => !isLineEnd b).length) with
        ⟨hnone, -⟩ | ⟨mark', hle, hsome⟩
      · rw [hnone] at hmark
        cases hmark
      · rw [hsome, Option.some.injEq] at hmark
        cases h
        simp only
        omega

/-- A line that is incomplete is within the budget, apart from a CR that may belong to its end. -/
theorem scan_incomplete (h : scan limit charged buffer start = .incomplete) :
    charged ≤ limit ∧ buffer.length ≤ start + (limit - charged) + 1 := by
  have htake := (List.takeWhile_prefix (l := buffer.drop start) fun b => !isLineEnd b).length_le
  simp only [scan] at h
  split at h
  · cases h
  · rename_i hlimit
    split at h
    · rename_i hmark
      rcases endMark?_cases ((buffer.drop start).drop
        ((buffer.drop start).takeWhile fun b => !isLineEnd b).length) with
        ⟨-, hle⟩ | ⟨mark, -, hsome⟩
      · simp only [List.length_drop] at hle htake
        omega
      · rw [hsome] at hmark
        cases hmark
    · cases h

end Line

/-! ## Field blocks -/

namespace FieldBlock

variable {limit : Nat} {strict : Bool} {buffer : Bytes}

/-- A block of which no more has been taken than was charged for. Each of its lines has a byte that
is charged, and an end mark of two bytes at most. -/
structure Charged (block : FieldBlock) (limit : Nat) : Prop where
  position : block.position ≤ 3 * block.charged
  within : block.charged ≤ limit

/-- A line that leaves its block open is not empty. -/
theorem length_pos_of_takeLine {pending : Option FieldSpans} {line : Line} {done : Option Field}
    {spans : FieldSpans} (h : takeLine strict buffer pending line = .ok (done, some spans)) :
    0 < line.length := by
  rcases takeLine_cases h with ⟨old, -, hfold, -, -⟩ | ⟨-, hopened⟩
  · -- a continuation line begins with a space or a tab
    have hle := Span.length_bytes_le line.toSpan buffer
    cases hbytes : line.bytes buffer with
    | nil => simp [continues, hbytes] at hfold
    | cons b bytes =>
        rw [hbytes, List.length_cons] at hle
        omega
  · -- an empty line would close the block
    obtain ⟨hempty, -⟩ := Option.ite_none_left_eq_some.1 hopened.symm
    simp only [Span.isEmpty, decide_eq_true_eq, Nat.not_le] at hempty
    exact Nat.sub_pos_of_lt hempty

theorem Charged.next {block : FieldBlock} (h : block.Charged limit) {line : Line}
    (hline : Line.scan limit block.charged buffer block.position = .found line)
    (hpos : 0 < line.length) (pending : Option FieldSpans) :
    Charged ⟨block.charged + line.length, line.next, pending⟩ limit := by
  obtain ⟨hstart, hstop, -, -, hlimit⟩ := Line.scan_found hline
  have hmark := Line.scan_next_le hline
  have hposition := h.position
  refine ⟨?_, hlimit⟩
  simp only [Span.length] at hpos ⊢
  omega

theorem Charged.incomplete {block later : FieldBlock} (h : block.Charged limit)
    (hread : (read limit strict buffer block).2 = .incomplete later) :
    later.Charged limit ∧ buffer.length ≤ 3 * limit + 1 := by
  fun_induction read limit strict buffer block with
  | case1 => cases hread
  | case2 block hline =>
      obtain ⟨hlimit, hlength⟩ := Line.scan_incomplete hline
      have hposition := h.position
      cases hread
      exact ⟨h, by omega⟩
  | case3 => cases hread
  | case4 => cases hread
  | case5 block line hline charged done spans htake further ih =>
      exact ih (h.next hline (length_pos_of_takeLine htake) (some spans)) hread

theorem charged_le_of_complete {block : FieldBlock} {next charged : Nat}
    (hread : (read limit strict buffer block).2 = .complete next charged) : charged ≤ limit := by
  fun_induction read limit strict buffer block with
  | case1 => cases hread
  | case2 => cases hread
  | case3 => cases hread
  | case4 block line hline =>
      obtain ⟨-, -, -, -, hlimit⟩ := Line.scan_found hline
      simp only [Outcome.complete.injEq] at hread
      rw [← hread.2]
      exact hlimit
  | case5 block line hline charged done spans htake further ih => exact ih hread

end FieldBlock

/-! ## Phases -/

namespace Phase

variable {direction : Direction} {limits : Limits}

/-- A phase in which what was charged to the message is within the limit, and the part of a block
that has been taken is paid for. -/
def Charged (limits : Limits) : Phase → Prop
  | header _ _ block => block.Charged limits.header
  | trailer _ _ block => block.Charged limits.header
  | chunkSize body => body.charged ≤ limits.header
  | chunkData body _ => body.charged ≤ limits.header
  | chunkEnd body => body.charged ≤ limits.header
  | idle => True
  | startLine => True
  | fixed _ _ _ => True
  | untilClose => True
  | refused => True
  | raw => True

theorem charged_afterMessage (limits : Limits) (switches : Bool) :
    (afterMessage switches).Charged limits := by
  cases switches <;> trivial

theorem Move.charged {phase : Phase} {buffer : Bytes} {next : Step}
    (hmove : Move direction limits phase buffer next) (h : phase.Charged limits) :
    next.phase.Charged limits := by
  cases hmove with
  | started hline hread => exact ⟨Nat.zero_le _, Nat.zero_le _⟩
  | headerIncomplete hread => exact (h.incomplete (congrArg Prod.snd hread)).1
  | bodiless hread hhead hlength hempty => exact charged_afterMessage limits _
  | chunkedBody hread hhead hlength hlimits =>
      exact FieldBlock.charged_le_of_complete (congrArg Prod.snd hread)
  | fixedEnds hdata hnext hremaining => exact charged_afterMessage limits _
  | sizeIncomplete hline => exact h
  -- the trailer block begins with what the header block was charged
  | lastChunk hline hsize => exact ⟨Nat.zero_le _, h⟩
  | chunk hline hsize hpos => exact h
  | dataWaits hdata => exact h
  | dataEnds hdata hnext hremaining => exact h
  | dataPiece hdata hnext hremaining => exact h
  | endIncomplete hjunk => exact h
  | chunkEnds hjunk => exact h
  | trailerIncomplete hread => exact (h.incomplete (congrArg Prod.snd hread)).1
  | trailerEnds hread => exact charged_afterMessage limits _
  | _ => trivial

theorem step_charged {phase : Phase} {buffer : Bytes} (h : phase.Charged limits) :
    (step direction limits phase buffer).phase.Charged limits :=
  (step_move direction limits phase buffer).charged h

/-- Whether bytes can wait in a phase: those of a line or of a block that is incomplete. -/
def keeps : Phase → Bool
  | startLine => true
  | header _ _ _ => true
  | chunkSize _ => true
  | trailer _ _ _ => true
  | idle => false
  | fixed _ _ _ => false
  | untilClose => false
  | chunkData _ _ => false
  | chunkEnd _ => false
  | refused => false
  | raw => false

/-- A reader that waits in a phase that keeps nothing has read everything. -/
theorem Move.rest_of_not_keeps {phase : Phase} {buffer : Bytes} {next : Step}
    (hmove : Move direction limits phase buffer next) (hvalid : limits.Valid)
    (hsound : phase.Sound buffer) (hagain : next.again = false)
    (hkeeps : next.phase.keeps = false) : next.rest = [] := by
  by_cases hpieces : next.phase.readsPieces = true
  · exact hmove.rest_of_readsPieces hvalid hsound hagain hpieces
  · cases hmove with
    | fixedWaits hdata => exact absurd rfl hpieces
    | openWaits hdata => exact absurd rfl hpieces
    | dataWaits hdata => exact absurd rfl hpieces
    | padding hpadding => rfl
    | endIncomplete hjunk => rfl
    | dropped => rfl
    | rawWaits => rfl
    | passed hbuffer => rfl
    | startTooLong hline => rfl
    | startRefused hline hread => rfl
    | headerRefused hread => rfl
    | unframed hread hhead hlength => rfl
    | unsupported hread hhead hlength hlimits => rfl
    | sizeTooLong hline => rfl
    | sizeRefused hline hsize => rfl
    | trailerRefused hread => rfl
    | _ => first | exact Bool.noConfusion hagain | exact Bool.noConfusion hkeeps

/-- What a reader leaves waiting is bounded by the limits. -/
theorem Move.length_rest_le {phase : Phase} {buffer : Bytes} {next : Step}
    (hmove : Move direction limits phase buffer next) (hvalid : limits.Valid)
    (hsound : phase.Sound buffer) (hcharged : phase.Charged limits) (hagain : next.again = false) :
    next.rest.length ≤ max (limits.line + 1) (3 * limits.header + 1) := by
  cases hkeeps : next.phase.keeps with
  | false =>
      rw [hmove.rest_of_not_keeps hvalid hsound hagain hkeeps]
      exact Nat.zero_le _
  | true =>
      have hline : Line.scan limits.line 0 buffer 0 = .incomplete →
          buffer.length ≤ max (limits.line + 1) (3 * limits.header + 1) := by
        intro hscan
        have hlength := (Line.scan_incomplete hscan).2
        exact Nat.le_trans (by omega) (Nat.le_max_left _ _)
      cases hmove with
      | startIncomplete hscan => exact hline hscan
      | sizeIncomplete hscan => exact hline hscan
      | headerIncomplete hread =>
          have hlength := (hcharged.incomplete (congrArg Prod.snd hread)).2
          exact Nat.le_trans hlength (Nat.le_max_right _ _)
      | trailerIncomplete hread =>
          have hlength := (hcharged.incomplete (congrArg Prod.snd hread)).2
          exact Nat.le_trans hlength (Nat.le_max_right _ _)
      | _ => first | exact Bool.noConfusion hagain | exact Bool.noConfusion hkeeps

/-- A run leaves no more waiting than the limits allow, and nothing in a phase that keeps nothing. -/
theorem run_rest {phase : Phase} {buffer : Bytes} (hvalid : limits.Valid)
    (hsound : phase.Sound buffer) (hcharged : phase.Charged limits) :
    (run direction limits phase buffer).rest.length ≤
        max (limits.line + 1) (3 * limits.header + 1) ∧
      ((run direction limits phase buffer).phase.keeps = false →
        (run direction limits phase buffer).rest = []) := by
  fun_induction run direction limits phase buffer with
  | case1 phase buffer next again later ih => exact ih (step_sound hsound) (step_charged hcharged)
  | case2 phase buffer next again =>
      rw [Bool.not_eq_true] at again
      have hmove := step_move direction limits phase buffer
      exact ⟨hmove.length_rest_le hvalid hsound hcharged again,
        hmove.rest_of_not_keeps hvalid hsound again⟩

end Phase

theorem Walk.charged {direction : Direction} {limits : Limits} {input rest : Bytes}
    {record : List Entry} {phase : Phase} (h : Walk direction limits input record phase rest) :
    phase.Charged limits := by
  induction h with
  | start => trivial
  | receive walk bytes ih => exact ih
  | forget walk ih => trivial
  | step walk ih => exact Phase.step_charged ih
  | ended walk hclose ih => exact ih
  | closed walk hclose hrest ih => trivial

/-! ## Connections -/

namespace Connection

theorem close_buffer (connection : Connection) :
    connection.close.1.buffer = (connection.reader.feed connection.buffer).rest := by
  simp only [close, Reader.close]
  split <;> rfl

/-- What reading leaves of the bytes of a connection, after any history. -/
theorem feed_rest_le {direction : Direction} {limits : Limits} {new : Connection}
    (hstart : start direction limits = .ok new) (calls : List Call) (bytes : Bytes) :
    let connection := new.after calls
    let answer := connection.reader.feed (connection.buffer ++ bytes)
    answer.rest.length ≤ max (limits.line + 1) (3 * limits.header + 1) ∧
      (answer.reader.phase.keeps = false → answer.rest = []) := by
  intro connection answer
  have hwalk := start_walk hstart calls
  obtain ⟨valid, rfl⟩ := start_eq hstart
  obtain ⟨hdirection, hlimits⟩ := after_reader { reader := { direction, limits, valid } } calls
  have hsound : connection.Sound := hwalk.sound
  have hcharged : connection.reader.currentPhase.Charged limits := by
    unfold Reader.currentPhase
    split
    · trivial
    · exact hwalk.charged
  have hrun := @Phase.run_rest direction limits _ _ valid
    (hsound.currentPhase.append bytes) hcharged
  simp only [answer, Reader.feed, connection, hdirection, hlimits]
  exact hrun

/-- Whatever arrives, and however it is cut, a call that reads leaves no more bytes waiting than a
line or three times a header block holds, and one byte more. After bytes are pushed, none of them
wait but those of a line or of a block that is incomplete. -/
theorem buffered_le {direction : Direction} {limits : Limits} {new : Connection}
    (hstart : start direction limits = .ok new) (calls : List Call) :
    (∀ call : Call, call.reads = true →
      ((new.after calls).call call).1.buffered ≤ max (limits.line + 1) (3 * limits.header + 1)) ∧
    ∀ bytes : Bytes, ((new.after calls).push bytes).1.phase.keeps = false →
      ((new.after calls).push bytes).1.buffered = 0 := by
  refine ⟨?_, ?_⟩
  · intro call hreads
    cases call with
    | push bytes => exact (feed_rest_le hstart calls bytes).1
    | close =>
        have hrest := (feed_rest_le hstart calls []).1
        rw [List.append_nil] at hrest
        simp only [Connection.call, buffered, close_buffer]
        exact hrest
    | receive bytes => cases hreads
    | requestReset => cases hreads
    | declineBody => cases hreads
  · intro bytes hkeeps
    exact List.length_eq_zero_iff.2 ((feed_rest_le hstart calls bytes).2 hkeeps)

/-- Four field lines of one byte each and a CR fill the buffer up to the bound, before and after the
connection ends. A body that follows does not wait. -/
theorem buffered_le_full_block :
    let limits : Limits := { line := 12, header := 4 }
    let new : Connection := { reader := ⟨.request, limits, by decide, .idle, false⟩ }
    let block : Call := .push (toBytes "G / HTTP/1.1\r\na\r\nb\r\nc\r\nd\r\n\r")
    start .request limits = .ok new ∧
      (new.call block).1.buffered = max (limits.line + 1) (3 * limits.header + 1) ∧
      (new.call block).1.buffered ≤ max (limits.line + 1) (3 * limits.header + 1) ∧
      ((new.after [block]).call .close).1.buffered ≤
        max (limits.line + 1) (3 * limits.header + 1) ∧
      ((new.after [block]).push [lf, cr, lf]).1.phase.keeps = false ∧
      ((new.after [block]).push [lf, cr, lf]).1.buffered = 0 := by
  intro limits new block
  have hstart : start .request limits = .ok new := rfl
  have hkeeps : ((new.after [block]).push [lf, cr, lf]).1.phase.keeps = false := by decide +kernel
  exact ⟨hstart, by decide +kernel, (buffered_le hstart []).1 block rfl,
    (buffered_le hstart [block]).1 .close rfl, hkeeps,
    (buffered_le hstart [block]).2 [lf, cr, lf] hkeeps⟩

end Connection

end HttpWire

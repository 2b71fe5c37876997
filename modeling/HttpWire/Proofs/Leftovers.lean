import HttpWire.Proofs.Lines
import HttpWire.Proofs.Pieces
import HttpWire.Proofs.Waiting

/-!
# What a message that was cut short leaves behind

The end of a connection ends the message at hand, but not the bytes of it that wait: a header block,
a trailer or a chunk-size line that is incomplete stays in the buffer, and the reader, which is then
between messages, takes these bytes for the beginning of another connection. Whether that shows
depends on the bytes alone.

- `Negligible`: bytes that are passed over between messages.
- `Phase.run_quiet`: a run that reports nothing is one that can be taken up again where it stopped.
- `Connection.close_leftovers`: a connection that was closed inside a message is a new one that has
  received what was left, and cannot be told from a new one exactly if that is negligible.
-/

set_option autoImplicit false

namespace HttpWire

open Text

/-! ## Lines without an end -/

namespace Line

variable {limit : Nat} {text : Bytes}

theorem scan_text (htext : ∀ b ∈ text, isLineEnd b = false) :
    scan limit 0 text 0 = if limit < text.length then .tooLong else .incomplete := by
  have hscan := @scan_unended limit 0 0 text text [] htext (.inl rfl) (List.append_nil text).symm
  rw [Nat.zero_add] at hscan
  exact hscan

/-- A line that ends on a CR is found when the byte after it has come, which belongs to the end mark
if it is an LF. -/
theorem scan_cr (htext : ∀ b ∈ text, isLineEnd b = false) (hle : text.length ≤ limit) (c : UInt8)
    (more : Bytes) :
    ∃ line, scan limit 0 (text ++ cr :: c :: more) 0 = .found line ∧
      line.bytes (text ++ cr :: c :: more) = text ∧
      (text ++ cr :: c :: more).drop line.next = if c = lf then more else c :: more := by
  have hlimit : ¬limit < 0 + text.length := by omega
  by_cases hc : c = lf
  · subst hc
    have hdrop : (text ++ cr :: lf :: more).drop 0 = text ++ ([cr, lf] ++ more) := rfl
    have hscan := @scan_ended limit 0 _ _ _ _ _ htext (.ofCrLf more) hdrop
    rw [if_neg hlimit] at hscan
    rw [if_pos rfl]
    exact ⟨_, hscan, bytes_ofText hdrop, drop_ofText hdrop⟩
  · have hdrop : (text ++ cr :: c :: more).drop 0 = text ++ ([cr] ++ c :: more) := rfl
    have hscan := @scan_ended limit 0 _ _ _ _ _ htext (.ofCr hc more) hdrop
    rw [if_neg hlimit] at hscan
    rw [if_neg hc]
    exact ⟨_, hscan, bytes_ofText hdrop, drop_ofText hdrop⟩

end Line

theorem FieldBlock.read_lf {limit : Nat} {strict : Bool} :
    FieldBlock.read limit strict [lf] {} = ([], .complete 1 0) := by
  have hline : Line.scan limit 0 [lf] 0 = .found ⟨⟨0, 0⟩, 1⟩ :=
    @Line.scan_ended limit 0 0 [lf] [] [lf] [] nofun (.ofLf []) rfl
  rw [FieldBlock.read_found hline]
  rfl

/-! ## Runs that report nothing -/

namespace Phase

variable {direction : Direction} {limits : Limits} {phase : Phase} {buffer : Bytes}

/-- A phase outside of bodies, and the bytes before it: between messages, at a start line that has
begun, or in a header block. -/
def Outside : Phase → Bytes → Prop
  | idle, _ => True
  | startLine, buffer => ∃ b rest, buffer = b :: rest ∧ isPadding b = false
  | header _ _ block, buffer => block.Within buffer
  | _, _ => False

theorem Outside.idle (buffer : Bytes) : Phase.idle.Outside buffer :=
  trivial

theorem Outside.sound (h : phase.Outside buffer) : phase.Sound buffer := by
  cases phase with
  | idle => trivial
  | startLine => trivial
  | header first fields block => exact h
  | _ => exact h.elim

theorem Outside.readsPieces (h : phase.Outside buffer) : phase.readsPieces = false := by
  cases phase with
  | idle => rfl
  | startLine => rfl
  | header first fields block => rfl
  | _ => exact h.elim

/-- A step that reports nothing does not lead into a body. -/
theorem Move.outside {next : Step} (hmove : Move direction limits phase buffer next)
    (h : phase.Outside buffer) (hquiet : next.events = []) : next.phase.Outside next.rest := by
  cases hmove with
  | padding hpadding => trivial
  | beginning hpadding hb => exact ⟨_, _, rfl, hb⟩
  | startIncomplete hline => exact h
  | noise hline hread => trivial
  | started hline hread => exact FieldBlock.within_of_pending_eq_none rfl rfl _
  | headerIncomplete hread => exact FieldBlock.read_within h (congrArg Prod.snd hread)
  | _ => first | exact h.elim | cases hquiet

/-- A run outside of bodies that reports nothing stays there, and is taken up again where it
stopped when more bytes have come. -/
theorem run_quiet (h : phase.Outside buffer)
    (hquiet : (run direction limits phase buffer).events = []) :
    (run direction limits phase buffer).phase.Outside (run direction limits phase buffer).rest ∧
      ∀ more : Bytes, run direction limits phase (buffer ++ more) =
        run direction limits (run direction limits phase buffer).phase
          ((run direction limits phase buffer).rest ++ more) := by
  fun_induction run direction limits phase buffer with
  | case1 phase buffer next again later ih =>
      obtain ⟨hnext, hlater⟩ := List.append_eq_nil_iff.1 hquiet
      have hmove := step_move direction limits phase buffer
      obtain ⟨houtside, hresume⟩ := ih (hmove.outside h hnext) hlater
      refine ⟨houtside, fun more => ?_⟩
      have hcontinues := hmove.append h.sound h.readsPieces more
      simp only [later, next] at again hnext hresume ⊢
      generalize step direction limits phase buffer = taken at again hnext hresume hcontinues ⊢
      cases hcontinues with
      | proceeds hlonger =>
          cases hnext
          rw [run_of_proceed hlonger]
          exact hresume more
      | refuses hlonger => cases again
      | waits hlonger => cases again
  | case2 phase buffer next again =>
      have hmove := step_move direction limits phase buffer
      refine ⟨hmove.outside h hquiet, fun more => ?_⟩
      have hcontinues := hmove.append h.sound h.readsPieces more
      simp only [next] at again hquiet ⊢
      generalize step direction limits phase buffer = taken at again hquiet hcontinues ⊢
      cases hcontinues with
      | proceeds hlonger => exact absurd rfl again
      | refuses hlonger => cases hquiet
      | waits hlonger => exact run_congr hlonger

/-- A run that ends at a start line waits for the end of that line. -/
theorem scan_of_run_startLine (h : (run direction limits phase buffer).phase = .startLine) :
    Line.scan limits.line 0 (run direction limits phase buffer).rest 0 = .incomplete := by
  obtain ⟨last, before, taken, hmove, hagain, hphase, hrest⟩ :=
    run_last direction limits phase buffer
  rw [hphase] at h
  rw [hrest]
  cases hmove with
  | startIncomplete hline => exact hline
  | _ => first | exact Bool.noConfusion hagain | cases h

/-- Padding before a start line makes no difference. -/
theorem run_idle_padding {padding : Bytes} (hpadding : ∀ b ∈ padding, isPadding b = true)
    (rest : Bytes) :
    run direction limits .idle (padding ++ rest) = run direction limits .idle rest := by
  refine run_congr ?_
  simp only [step, stepIdle, List.dropWhile_append_of_pos hpadding]

theorem run_idle_rest (hvalid : limits.Valid) (h : (run direction limits .idle buffer).phase = .idle) :
    (run direction limits .idle buffer).rest = [] := by
  refine (run_rest hvalid ?_ ?_).2 (by rw [h]; rfl)
  · trivial
  · trivial

theorem run_idle_nil : (run direction limits .idle []).events = [] := by
  rw [run_of_wait (Move.padding (by simp)).step_eq]

theorem run_idle_text {text : Bytes} (htext : ∀ b ∈ text, isLineEnd b = false)
    (hle : text.length ≤ limits.line) : (run direction limits .idle text).events = [] := by
  rcases dropWhile_split isPadding text with ⟨-, hall⟩ | ⟨padding, b, rest, -, rfl, hall, hb⟩
  · rw [run_of_wait (Move.padding hall).step_eq]
  · have hline : Line.scan limits.line 0 (b :: rest) 0 = .incomplete := by
      rw [List.length_append] at hle
      rw [Line.scan_text fun c hc => htext c (List.mem_append_right padding hc),
        if_neg (by omega)]
    rw [run_of_proceed (Move.beginning hall hb).step_eq,
      run_of_wait (Move.startIncomplete hline).step_eq]
    rfl

theorem run_ne_nil (h : (step direction limits phase buffer).events ≠ []) :
    (run direction limits phase buffer).events ≠ [] := by
  rw [run_eq]
  simp only
  split
  · exact List.append_ne_nil_of_left_ne_nil h _
  · exact h

theorem run_header_ne_nil {first : StartLine} {fields : Fields} {block : FieldBlock}
    {more : List Field} {next charged : Nat}
    (hread : block.read limits.header limits.strict buffer = (more, .complete next charged)) :
    (run direction limits (.header first fields block) buffer).events ≠ [] := by
  apply run_ne_nil
  have hmove := step_move direction limits (.header first fields block) buffer
  generalize step direction limits (.header first fields block) buffer = taken at hmove
  cases hmove with
  | headerIncomplete hincomplete =>
      rw [hread] at hincomplete
      cases hincomplete
  | _ => exact List.cons_ne_nil _ _

/-- A text that is not empty goes over the budget when bytes follow it that are within the budget by
themselves. -/
theorem exists_tooLong {text : Bytes} (htext : ∀ b ∈ text, isLineEnd b = false)
    (hne : text ≠ []) :
    ∃ fill : Bytes, (run direction limits .idle fill).events = [] ∧
      (run direction limits .startLine (text ++ fill)).events ≠ [] := by
  have hpos := List.length_pos_iff.2 hne
  have hfill : ∀ c ∈ List.replicate limits.line (97 : UInt8), isLineEnd c = false := by
    intro c hc
    rw [List.eq_of_mem_replicate hc]
    rfl
  have hlength := List.length_replicate (n := limits.line) (a := (97 : UInt8))
  have hlong : Line.scan limits.line 0 (text ++ List.replicate limits.line 97) 0 = .tooLong := by
    rw [Line.scan_text fun c hc => (List.mem_append.1 hc).elim (htext c) (hfill c), if_pos]
    rw [List.length_append]
    omega
  refine ⟨List.replicate limits.line 97, run_idle_text hfill (Nat.le_of_eq hlength), ?_⟩
  rw [run_of_refuse (Move.startTooLong hlong).step_eq]
  exact List.cons_ne_nil _ _

/-- Only a line that is no start line can be followed by two line ends without a report: they end the
line, and the block after it. -/
theorem read_eq_none_of_quiet {text : Bytes} (htext : ∀ b ∈ text, isLineEnd b = false)
    (hle : text.length ≤ limits.line)
    (h : (run direction limits .startLine (text ++ [cr, lf, lf])).events = []) :
    StartLine.read direction text = .ok none := by
  obtain ⟨line, hfound, hbytes, hdrop⟩ := Line.scan_cr htext hle lf [lf]
  rw [if_pos rfl] at hdrop
  cases hread : StartLine.read direction text with
  | error cause =>
      rw [← hbytes] at hread
      rw [run_of_refuse (Move.startRefused hfound hread).step_eq] at h
      cases h
  | ok first =>
      cases first with
      | none => rfl
      | some first =>
          rw [← hbytes] at hread
          rw [run_of_proceed (Move.started hfound hread).step_eq, hdrop] at h
          exact absurd h (run_header_ne_nil FieldBlock.read_lf)

end Phase

/-! ## Bytes that are passed over -/

/-- Bytes that are passed over between messages: nothing is reported of them, and no message begins
with them. At most the end mark of a line that is no start line may not be certain yet. -/
def Negligible (direction : Direction) (limits : Limits) (bytes : Bytes) : Prop :=
  let run := Phase.idle.run direction limits bytes
  run.events = [] ∧
    (run.phase = .idle ∨
      run.phase = .startLine ∧ ∃ text, run.rest = text ++ [cr] ∧
        (∀ b ∈ text, isLineEnd b = false) ∧ StartLine.read direction text = .ok none)

section Negligible

variable {direction : Direction} {limits : Limits} {bytes : Bytes}

/-- What follows negligible bytes is read as if it had come first. -/
theorem Negligible.events_append (h : Negligible direction limits bytes) (hvalid : limits.Valid)
    (more : Bytes) :
    (Phase.idle.run direction limits (bytes ++ more)).events =
      (Phase.idle.run direction limits more).events := by
  obtain ⟨hquiet, hphase⟩ := h
  obtain ⟨-, hresume⟩ := Phase.run_quiet (.idle bytes) hquiet
  rw [hresume more]
  rcases hphase with hidle | ⟨hstart, text, hrest, htext, hread⟩
  · rw [hidle, Phase.run_idle_rest hvalid hidle, List.nil_append]
  · have hline := Phase.scan_of_run_startLine hstart
    rw [hrest] at hline
    rw [hstart, hrest]
    cases more with
    | nil =>
        rw [List.append_nil, Phase.run_of_wait (Phase.Move.startIncomplete hline).step_eq,
          Phase.run_idle_nil]
    | cons c more =>
        -- the line is certain now, and is no start line
        have hle : text.length ≤ limits.line := by
          rw [@Line.scan_unended limits.line 0 0 _ text [cr] htext (.inr rfl) rfl] at hline
          split at hline
          · cases hline
          · omega
        obtain ⟨line, hfound, hbytes, hdrop⟩ := Line.scan_cr htext hle c more
        rw [← hbytes] at hread
        rw [List.append_assoc, List.singleton_append,
          Phase.run_of_proceed (Phase.Move.noise hfound hread).step_eq, hdrop]
        split
        · rename_i hlf
          have hpadding : ∀ b ∈ [lf], isPadding b = true := by decide
          rw [hlf, ← List.singleton_append, Phase.run_idle_padding hpadding more]
          rfl
        · rfl

/-- Bytes of which nothing is reported, whether the connection ends after them or more bytes come,
are negligible. -/
theorem negligible_of_silent
    (hquiet : (Phase.idle.run direction limits bytes).events = [])
    (hclose : (Phase.idle.run direction limits bytes).phase.atClose = none)
    (hmore : ∀ more : Bytes, (Phase.idle.run direction limits (bytes ++ more)).events =
      (Phase.idle.run direction limits more).events) :
    Negligible direction limits bytes := by
  obtain ⟨houtside, hresume⟩ := Phase.run_quiet (.idle bytes) hquiet
  refine ⟨hquiet, ?_⟩
  simp only [hresume] at hmore
  cases hphase : (Phase.idle.run direction limits bytes).phase with
  | idle => exact .inl rfl
  | startLine =>
      refine .inr ⟨rfl, ?_⟩
      have hline := Phase.scan_of_run_startLine hphase
      rw [hphase] at houtside hmore
      obtain ⟨text, tail, hrest, htext, rfl | rfl, hle⟩ := Line.scan_incomplete_front hline
      · exfalso
        rw [List.drop_zero, List.append_nil] at hrest
        obtain ⟨b, rest, hcons, -⟩ := houtside
        have hne : text ≠ [] := by
          rw [← hrest, hcons]
          exact List.cons_ne_nil b rest
        obtain ⟨fill, hfill, hreport⟩ := Phase.exists_tooLong htext hne
        rw [← hrest, hmore fill] at hreport
        exact hreport hfill
      · rw [List.drop_zero] at hrest
        rw [Nat.zero_add] at hle
        refine ⟨text, hrest, htext, Phase.read_eq_none_of_quiet htext hle ?_⟩
        have hpadding : ∀ b ∈ [lf, lf], isPadding b = true := by decide
        have hlines := hmore [lf, lf]
        rw [hrest, List.append_assoc, List.singleton_append, ← List.append_nil [lf, lf],
          Phase.run_idle_padding hpadding, Phase.run_idle_nil, List.append_nil] at hlines
        exact hlines
  | header first fields block =>
      rw [hphase] at hclose
      cases hclose
  | _ =>
      rw [hphase] at houtside
      exact houtside.elim

end Negligible

/-! ## Connections that were closed inside a message -/

namespace Connection

/-- Closing a connection inside a message leaves a new connection, apart from the bytes that wait. -/
theorem close_eq_receive {connection : Connection} {direction : Direction} {limits : Limits}
    (hdirection : connection.reader.direction = direction)
    (hlimits : connection.reader.limits = limits) (valid : limits.Valid) {event : Event}
    (hclose : (connection.push []).1.phase.atClose = some event) :
    connection.close.1 = ({ reader := { direction, limits, valid } } : Connection).receive
      (connection.push []).1.buffer := by
  obtain ⟨⟨direction', limits', valid', phase, resetRequested⟩, buffer⟩ := connection
  cases hdirection
  cases hlimits
  simp only [push, List.append_nil] at hclose ⊢
  simp only [close, Reader.close]
  split
  · rename_i hnone
    cases hnone.symm.trans hclose
  · rfl

/-- What follows when a connection is closed inside a message. The connection is then a new one that
has received the bytes of the message that waited. There are none if the message was in its body,
outside of chunk-size lines and of the trailer. The connection cannot be told from a new one, neither
by its end nor by further bytes, exactly if what waited is negligible. -/
theorem close_leftovers {direction : Direction} {limits : Limits} {new : Connection}
    (hstart : start direction limits = .ok new) (calls : List Call) {event : Event}
    (hclose : ((new.after calls).push []).1.phase.atClose = some event) :
    let left := ((new.after calls).push []).1.buffer
    let closed := (new.after calls).close.1
    closed = new.receive left ∧
      (((new.after calls).push []).1.phase.keeps = false → left = []) ∧
      ((closed.close.2 = [] ∧ ∀ bytes : Bytes, (closed.push bytes).2 = (new.push bytes).2) ↔
        Negligible direction limits left) := by
  intro left closed
  have hleft := (feed_rest_le hstart calls []).2
  obtain ⟨valid, rfl⟩ := start_eq hstart
  obtain ⟨hdirection, hlimits⟩ := after_reader { reader := { direction, limits, valid } } calls
  have hclosed := close_eq_receive hdirection hlimits valid hclose
  have hpush : ∀ bytes : Bytes, (closed.push bytes).2 =
      (Phase.idle.run direction limits (left ++ bytes)).events := by
    intro bytes
    simp only [closed, hclosed]
    rfl
  have hend : closed.close.2 = (Phase.idle.run direction limits left).events ++
      (Phase.idle.run direction limits left).phase.atClose.toList := by
    simp only [closed, hclosed]
    exact call_close _
  refine ⟨hclosed, hleft, ?_⟩
  constructor
  · rintro ⟨hsilent, hsame⟩
    rw [hend, List.append_eq_nil_iff, Option.toList_eq_nil_iff] at hsilent
    refine negligible_of_silent hsilent.1 hsilent.2 fun bytes => ?_
    rw [← hpush]
    exact hsame bytes
  · intro hnegligible
    constructor
    · rw [hend, hnegligible.1, List.nil_append, Option.toList_eq_nil_iff]
      rcases hnegligible.2 with hidle | ⟨hline, -⟩
      · rw [hidle]
        rfl
      · rw [hline]
        rfl
    · intro bytes
      rw [hpush, hnegligible.events_append valid]
      rfl

/-- A field line without blanks is no start line, so a header block of it that is cut short leaves
nothing that shows. -/
theorem close_leftovers_passed_over :
    let new : Connection := { reader := ⟨.request, {}, by decide, .idle, false⟩ }
    let calls : List Call := [.push (toBytes "GET / HTTP/1.1\r\nA:b\r\n")]
    let cutShort : Event := .refusedHead { startLine := .request "GET" "/" .http11 }
      (.prematureClosure .headers)
    let closed := (new.after calls).close.1
    start .request {} = .ok new ∧
      ((new.after calls).push []).1.phase.atClose = some cutShort ∧
      closed = new.receive (toBytes "A:b\r\n") ∧
      closed.close.2 = [] ∧ ∀ bytes : Bytes, (closed.push bytes).2 = (new.push bytes).2 := by
  intro new calls cutShort closed
  have hstart : start .request {} = .ok new := rfl
  have hclose : ((new.after calls).push []).1.phase.atClose = some cutShort := by decide +kernel
  have hleft : ((new.after calls).push []).1.buffer = toBytes "A:b\r\n" := by decide +kernel
  have hnegligible : Negligible .request {} (toBytes "A:b\r\n") :=
    ⟨by decide +kernel, .inl (by decide +kernel)⟩
  obtain ⟨hclosed, -, hsilent⟩ := close_leftovers hstart calls hclose
  rw [hleft] at hclosed hsilent
  exact ⟨hstart, hclose, hclosed, hsilent.2 hnegligible⟩

/-- A field line that looks like a request line is taken for one after the connection has ended. The
line end that follows completes the request, and a second end cuts it short. -/
theorem close_leaves_request :
    let new : Connection := { reader := ⟨.request, {}, by decide, .idle, false⟩ }
    let calls : List Call := [.push (toBytes "GET /a HTTP/1.1\r\nGET /b HTTP/1.1\r\n")]
    let cutShort : StartLine → Event := fun first =>
      .refusedHead { startLine := first } (.prematureClosure .headers)
    let closed := (new.after calls).close
    start .request {} = .ok new ∧
      closed.2 = [cutShort (.request "GET" "/a" .http11)] ∧
      closed.1.close.2 = [cutShort (.request "GET" "/b" .http11)] ∧
      (closed.1.push [cr, lf]).2 =
        [.head { startLine := .request "GET" "/b" .http11 }, .last {}] ∧
      (new.push [cr, lf]).2 = [] := by
  intro new calls cutShort closed
  refine ⟨rfl, ?_, ?_, ?_, ?_⟩
  · decide +kernel
  · decide +kernel
  · decide +kernel
  · decide +kernel

end Connection

end HttpWire

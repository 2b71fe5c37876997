import HttpWire.Proofs.History
import HttpWire.Proofs.Lines

/-!
# Where a message begins

A message begins behind what had been read when the last one was over. Between the two a reader passes over
padding and over lines that are no start lines. While the head of the message is read nothing is reported, so
the record tells where that was, unless a message has been forgotten since its last report.

- `ReportedBy`, `origin?`: what a record tells about the bytes that were read.
- `PassedOver`: what may stand in front of a message; `MessageAt`: a message behind what was read before it;
  `EndsInMessage`: an input that ends in one.
- `Phase.Move.begins`: what a step does to the place where the message at hand begins.
- `Walk.begins`: in every walk the message at hand begins at such a place.
-/

set_option autoImplicit false

namespace HttpWire

open Text

variable {direction : Direction} {limits : Limits} {input : Bytes}

/-- A start line that is accepted; `rest` is what follows its line. -/
structure StartLine.Accepted (first : StartLine) (direction : Direction) (limits : Limits)
    (line mark rest : Bytes) : Prop where
  text : ∀ b ∈ line, isLineEnd b = false
  within : line.length ≤ limits.line
  mark : Line.EndMark mark rest
  read : StartLine.read direction line = .ok (some first)

theorem StartLine.Accepted.append {first : StartLine} {line mark rest : Bytes}
    (h : first.Accepted direction limits line mark rest) (more : Bytes) :
    first.Accepted direction limits line mark (rest ++ more) :=
  ⟨h.text, h.within, h.mark.append more, h.read⟩

/-! ## What a record tells -/

/-- Whether no more than the first bytes up to a position had been read at any report. -/
def ReportedBy (position : Nat) (record : List Entry) : Prop :=
  ∀ read event, .report read event ∈ record → read ≤ position

namespace ReportedBy

variable {position : Nat} {record : List Entry}

theorem nil (position : Nat) : ReportedBy position [] :=
  fun _ _ hmem => absurd hmem List.not_mem_nil

theorem mono (h : ReportedBy position record) {later : Nat} (hle : position ≤ later) :
    ReportedBy later record :=
  fun read event hmem => Nat.le_trans (h read event hmem) hle

theorem append_iff {more : List Entry} :
    ReportedBy position (record ++ more) ↔ ReportedBy position record ∧ ReportedBy position more := by
  simp only [ReportedBy, List.mem_append, or_imp, forall_and]

/-- A mark in a record is no report. -/
theorem concat (h : ReportedBy position record) {entry : Entry} (hentry : entry.event? = none) :
    ReportedBy position (record ++ [entry]) := by
  refine append_iff.2 ⟨h, ?_⟩
  intro read event hmem
  rw [← List.mem_singleton.1 hmem] at hentry
  cases hentry

end ReportedBy

/-- The position at which the next message begins, as far as it is known, after one more entry. A message
that is forgotten has been read up to a position that is not reported. -/
def Entry.originAfter (origin : Option Nat) : Entry → Option Nat
  | forgotten => none
  | ended _ => origin
  | report read _ => some read

/-- The position at which the message after a record begins, if the record tells. -/
def origin? (record : List Entry) : Option Nat :=
  record.foldl Entry.originAfter (some 0)

theorem origin?_append (record more : List Entry) :
    origin? (record ++ more) = more.foldl Entry.originAfter (origin? record) :=
  List.foldl_append

/-- A step that reports something tells how far it has read. -/
theorem origin?_reports {events : List Event} (hevents : events ≠ []) (record : List Entry)
    (read : Nat) : origin? (record ++ events.map (.report read)) = some read := by
  obtain ⟨front, last, rfl⟩ := (List.eq_nil_or_concat events).resolve_left hevents
  rw [List.concat_eq_append, List.map_append, ← List.append_assoc, origin?_append]
  rfl

/-- Padding and lines that are no start lines, which are passed over in front of `rest`. -/
inductive PassedOver (direction : Direction) (limits : Limits) : Bytes → Bytes → Prop
  | nil {rest : Bytes} : PassedOver direction limits [] rest
  | padding {skipped padding rest : Bytes}
      (h : PassedOver direction limits skipped (padding ++ rest))
      (hpadding : ∀ b ∈ padding, isPadding b = true) :
      PassedOver direction limits (skipped ++ padding) rest
  | line {skipped text mark rest : Bytes}
      (h : PassedOver direction limits skipped (text ++ (mark ++ rest)))
      (htext : ∀ b ∈ text, isLineEnd b = false) (hle : text.length ≤ limits.line)
      (hmark : Line.EndMark mark rest) (hread : StartLine.read direction text = .ok none) :
      PassedOver direction limits (skipped ++ (text ++ mark)) rest

theorem PassedOver.append {skipped rest : Bytes} (h : PassedOver direction limits skipped rest)
    (more : Bytes) : PassedOver direction limits skipped (rest ++ more) := by
  induction h with
  | nil => exact .nil
  | padding h hpadding ih =>
      rw [List.append_assoc] at ih
      exact .padding ih hpadding
  | line h htext hle hmark hread ih =>
      rw [List.append_assoc, List.append_assoc] at ih
      exact .line ih htext hle (hmark.append more) hread

/-! ## Messages behind one another -/

/-- The bytes of a message behind what had been read before it. All that was reported lies in `origin`, and
nothing else does if the record tells where the message begins. -/
structure MessageAt (direction : Direction) (limits : Limits) (record : List Entry)
    (origin skipped message : Bytes) : Prop where
  passedOver : PassedOver direction limits skipped message
  reported : ReportedBy origin.length record
  recorded : ∀ position, origin? record = some position → origin.length = position

/-- The end of a connection that nothing is reported of does not move a message. -/
theorem MessageAt.ended {record : List Entry} {origin skipped message : Bytes}
    (h : MessageAt direction limits record origin skipped message) (arrived : Nat) :
    MessageAt direction limits (record ++ [.ended arrived]) origin skipped message := by
  refine ⟨h.passedOver, h.reported.concat rfl, ?_⟩
  rw [origin?_append]
  exact h.recorded

/-- An input at the end of which the bytes of a message stand. -/
def EndsInMessage (direction : Direction) (limits : Limits) (input : Bytes) (record : List Entry)
    (message : Bytes) : Prop :=
  ∃ origin skipped, input = origin ++ (skipped ++ message) ∧
    MessageAt direction limits record origin skipped message

namespace EndsInMessage

variable {record : List Entry} {message : Bytes}

theorem append (h : EndsInMessage direction limits input record message) (more : Bytes) :
    EndsInMessage direction limits (input ++ more) record (message ++ more) := by
  obtain ⟨origin, skipped, rfl, hpassed, hreported, hrecorded⟩ := h
  exact ⟨origin, skipped, by simp only [List.append_assoc], hpassed.append more, hreported, hrecorded⟩

theorem ended (h : EndsInMessage direction limits input record message) (arrived : Nat) :
    EndsInMessage direction limits input (record ++ [.ended arrived]) message := by
  obtain ⟨origin, skipped, hinput, hmessage⟩ := h
  exact ⟨origin, skipped, hinput, hmessage.ended arrived⟩

/-- Padding in front of a message is passed over. -/
theorem padding {padding : Bytes}
    (h : EndsInMessage direction limits input record (padding ++ message))
    (hpadding : ∀ b ∈ padding, isPadding b = true) :
    EndsInMessage direction limits input record message := by
  obtain ⟨origin, skipped, rfl, hpassed, hreported, hrecorded⟩ := h
  exact ⟨origin, skipped ++ padding, by simp only [List.append_assoc], .padding hpassed hpadding,
    hreported, hrecorded⟩

theorem line {text mark : Bytes}
    (h : EndsInMessage direction limits input record (text ++ (mark ++ message)))
    (htext : ∀ b ∈ text, isLineEnd b = false) (hle : text.length ≤ limits.line)
    (hmark : Line.EndMark mark message) (hread : StartLine.read direction text = .ok none) :
    EndsInMessage direction limits input record message := by
  obtain ⟨origin, skipped, rfl, hpassed, hreported, hrecorded⟩ := h
  exact ⟨origin, skipped ++ (text ++ mark), by simp only [List.append_assoc],
    .line hpassed htext hle hmark hread, hreported, hrecorded⟩

/-- What waits when a message is over belongs to the next one. -/
theorem of_suffix (hsuffix : message <:+ input)
    (hreported : ReportedBy (input.length - message.length) record)
    (hrecorded : ∀ position, origin? record = some position →
      input.length - message.length = position) :
    EndsInMessage direction limits input record message := by
  obtain ⟨origin, rfl⟩ := hsuffix
  rw [List.length_append, Nat.add_sub_cancel] at hreported hrecorded
  exact ⟨origin, [], rfl, .nil, hreported, hrecorded⟩

end EndsInMessage

/-- Bytes that begin with one that is no padding. -/
def BeginsAtOnce (message : Bytes) : Prop :=
  ∃ b later, message = b :: later ∧ isPadding b = false

theorem BeginsAtOnce.append {message : Bytes} (h : BeginsAtOnce message) (more : Bytes) :
    BeginsAtOnce (message ++ more) := by
  obtain ⟨b, later, rfl, hb⟩ := h
  exact ⟨b, later ++ more, rfl, hb⟩

namespace Phase

/-- A phase up to the end of a head, with the bytes before it: the message at hand begins with what waits,
or with the start line before that. -/
def Begins (direction : Direction) (limits : Limits) (input : Bytes) (record : List Entry) :
    Phase → Bytes → Prop
  | idle, rest => EndsInMessage direction limits input record rest
  | startLine, rest => BeginsAtOnce rest ∧ EndsInMessage direction limits input record rest
  | header first _ _, rest => ∃ line mark, first.Accepted direction limits line mark rest ∧
      BeginsAtOnce (line ++ (mark ++ rest)) ∧
      EndsInMessage direction limits input record (line ++ (mark ++ rest))
  | fixed _ _ _, _ => True
  | untilClose, _ => True
  | chunkSize _, _ => True
  | chunkData _ _, _ => True
  | chunkEnd _, _ => True
  | trailer _ _ _, _ => True
  | refused, _ => True
  | raw, _ => True

variable {record : List Entry} {rest : Bytes} {phase : Phase}

theorem Begins.append (h : phase.Begins direction limits input record rest) (bytes : Bytes) :
    phase.Begins direction limits (input ++ bytes) record (rest ++ bytes) := by
  cases phase with
  | idle => exact EndsInMessage.append h bytes
  | startLine => exact ⟨h.1.append bytes, h.2.append bytes⟩
  | header first fields block =>
      obtain ⟨line, mark, haccepted, hopens, hmessage⟩ := h
      refine ⟨line, mark, haccepted.append bytes, ?_, ?_⟩
      · simpa only [List.append_assoc] using hopens.append bytes
      · simpa only [List.append_assoc] using hmessage.append bytes
  | _ => trivial

theorem Begins.ended (h : phase.Begins direction limits input record rest) (arrived : Nat) :
    phase.Begins direction limits input (record ++ [.ended arrived]) rest := by
  cases phase with
  | idle => exact EndsInMessage.ended h arrived
  | startLine => exact ⟨h.1, h.2.ended arrived⟩
  | header first fields block =>
      obtain ⟨line, mark, haccepted, hopens, hmessage⟩ := h
      exact ⟨line, mark, haccepted, hopens, hmessage.ended arrived⟩
  | _ => trivial

theorem begins_afterMessage (switches : Bool) :
    afterMessage switches = .idle ∨
      ∀ record', (afterMessage switches).Begins direction limits input record' rest := by
  cases switches with
  | false => exact .inl rfl
  | true => exact .inr fun _ => trivial

/-- A step that reports nothing keeps the place where the message at hand begins. One that reports something
leads out of the head, and between messages only if it ends one. -/
theorem Move.begins {next : Step} (hmove : Move direction limits phase rest next)
    (h : phase.Begins direction limits input record rest) :
    (next.events = [] ∧ next.phase.Begins direction limits input record next.rest) ∨
      (next.events ≠ [] ∧ (next.phase = .idle ∨
        ∀ record', next.phase.Begins direction limits input record' next.rest)) := by
  cases hmove with
  | padding hpadding =>
      refine .inl ⟨rfl, EndsInMessage.padding ?_ hpadding⟩
      rw [Step.wait, List.append_nil]
      exact h
  | beginning hpadding hb => exact .inl ⟨rfl, ⟨_, _, rfl, hb⟩, EndsInMessage.padding h hpadding⟩
  | startIncomplete hline => exact .inl ⟨rfl, h⟩
  | noise hline hread =>
      obtain ⟨text, mark, later, hdrop, htext, hmark, rfl, hle⟩ := Line.scan_found_front hline
      rw [Line.bytes_ofText hdrop] at hread
      rw [Nat.zero_add] at hle
      refine .inl ⟨rfl, ?_⟩
      simp only [Step.proceed, Line.drop_ofText hdrop]
      rw [List.drop_zero] at hdrop
      rw [hdrop] at h
      exact EndsInMessage.line h.2 htext hle hmark hread
  | started hline hread =>
      obtain ⟨text, mark, later, hdrop, htext, hmark, rfl, hle⟩ := Line.scan_found_front hline
      rw [Line.bytes_ofText hdrop] at hread
      rw [Nat.zero_add] at hle
      refine .inl ⟨rfl, text, mark, ?_⟩
      simp only [Step.proceed, Line.drop_ofText hdrop]
      rw [List.drop_zero] at hdrop
      rw [hdrop] at h
      exact ⟨⟨htext, hle, hmark, hread⟩, h⟩
  | headerIncomplete hread => exact .inl ⟨rfl, h⟩
  | bodiless hread hhead hlength hempty =>
      exact .inr ⟨List.cons_ne_nil _ _, begins_afterMessage _⟩
  | fixedEnds hdata hnext hremaining =>
      exact .inr ⟨List.cons_ne_nil _ _, begins_afterMessage _⟩
  | trailerEnds hread => exact .inr ⟨List.cons_ne_nil _ _, begins_afterMessage _⟩
  | _ =>
      first
        | exact .inl ⟨rfl, trivial⟩
        | exact .inr ⟨List.cons_ne_nil _ _, .inr fun _ => trivial⟩

end Phase

namespace Walk

variable {rest : Bytes} {record : List Entry} {phase : Phase}

theorem reportedBy (h : Walk direction limits input record phase rest) :
    ReportedBy (input.length - rest.length) record := by
  induction h with
  | start => exact .nil 0
  | receive walk bytes ih =>
      rw [List.length_append, List.length_append, Nat.add_sub_add_right]
      exact ih
  | forget walk ih => exact ih.concat rfl
  | @step input rest record phase walk ih =>
      have hle := (Phase.step_move direction limits phase rest).suffix.length_le
      refine ReportedBy.append_iff.2 ⟨ih.mono (Nat.sub_le_sub_left hle _), ?_⟩
      intro read event hmem
      obtain ⟨event', -, heq⟩ := List.mem_map.1 hmem
      cases heq
      exact Nat.le_refl _
  | ended walk hclose ih => exact ih.concat rfl
  | closed walk hclose hrest ih =>
      refine ReportedBy.append_iff.2 ⟨ih, ?_⟩
      intro read event hmem
      simp only [List.mem_cons, reduceCtorEq, List.not_mem_nil, or_false, false_or,
        Entry.report.injEq] at hmem
      exact Nat.le_of_eq hmem.1

/-- In every walk the message at hand begins behind what was read before it. -/
theorem begins (h : Walk direction limits input record phase rest) :
    phase.Begins direction limits input record rest := by
  induction h with
  | start => exact .of_suffix (List.suffix_refl _) (.nil 0) fun position h => Option.some.inj h
  | receive walk bytes ih => exact ih.append bytes
  | forget walk ih =>
      refine .of_suffix walk.suffix (walk.reportedBy.concat rfl) ?_
      intro position hposition
      rw [origin?_append] at hposition
      cases hposition
  | @step input rest record phase walk ih =>
      have hstep := walk.step
      rw [Phase.stepEntries] at hstep ⊢
      rcases (Phase.step_move direction limits phase rest).begins ih with
        ⟨hquiet, hbegins⟩ | ⟨hevents, hidle | hbegins⟩
      · rw [hquiet, List.map_nil, List.append_nil]
        exact hbegins
      · -- the last report of the step tells how far the message went that it ends
        rw [hidle]
        refine .of_suffix hstep.suffix hstep.reportedBy ?_
        intro position hposition
        rw [origin?_reports hevents] at hposition
        exact Option.some.inj hposition
      · exact hbegins _
  | ended walk hclose ih => exact ih.ended _
  | @closed input rest record phase event walk hclose hrest ih =>
      have hclosed := walk.closed hclose hrest
      refine .of_suffix hclosed.suffix hclosed.reportedBy ?_
      intro position hposition
      rw [origin?_append] at hposition
      exact Option.some.inj hposition

end Walk

end HttpWire

import HttpWire.Proofs.Framing
import HttpWire.Proofs.Precedence

/-!
# Of several declared lengths the first counts

A head may declare the length of its body more than once. Only the first field is read: the others may
declare other numbers, or none at all, and the message is framed as if they were not there.

- `BodyLength.select_first`: what is selected for a head whose first length decides.
- `Connection.mem_call_of_trail`: what is reported from a point of the trail of a call.
- `Connection.first_length_obeyed`, `Connection.first_length_closes`: the body of a message, and the end of
  its header block, by the first length.
- `Connection.first_length_counts`: messages with several declared lengths, as they are selected and as
  they are read.
- `Connection.conflicting_lengths_read`: lengths that conflict are not refused.
-/

set_option autoImplicit false

namespace HttpWire

open Text

namespace BodyLength

variable {direction : Direction} {head : Head} {first : String} {more : List String}

/-- Where neither the status nor a transfer coding decides, the body has the first length that is
declared, or the head is refused with the first value. -/
theorem select_first (hlengths : head.fields.getAll "content-length" = first :: more)
    (hbody : ¬ (direction = .response ∧ head.NeverHasBody)) (hchunked : ¬ head.ListsChunked) :
    select direction head = (declared first).map .fixed := by
  rw [← Head.isBodiless_iff] at hbody
  rw [← Head.isChunked_iff, Bool.not_eq_true] at hchunked
  apply select_of_get? hbody hchunked
  rw [Fields.get?, hlengths]
  rfl

theorem map_fixed_eq_error_iff :
    (declared first).map fixed = .error (.invalidContentLength first) ↔ ∀ n, ¬ Declares first n := by
  constructor
  · intro hrefused n hn
    rw [map_fixed_eq_ok_iff.2 hn] at hrefused
    cases hrefused
  · exact map_fixed_of_malformed

theorem select_first_cases (hlengths : head.fields.getAll "content-length" = first :: more)
    (hbody : ¬ (direction = .response ∧ head.NeverHasBody)) (hchunked : ¬ head.ListsChunked) :
    (∃ n, Declares first n ∧ select direction head = .ok (.fixed n)) ∨
      (∀ n, ¬ Declares first n) ∧ select direction head = .error (.invalidContentLength first) := by
  rw [select_first hlengths hbody hchunked]
  by_cases hdeclares : ∃ n, Declares first n
  · obtain ⟨n, hn⟩ := hdeclares
    exact .inl ⟨n, hn, map_fixed_eq_ok_iff.2 hn⟩
  · have hmalformed : ∀ n, ¬ Declares first n := not_exists.1 hdeclares
    exact .inr ⟨hmalformed, map_fixed_of_malformed hmalformed⟩

end BodyLength

theorem Phase.reports_head {direction : Direction} {limits : Limits} {line : StartLine}
    {fields : Fields} {block : FieldBlock} {buffer : Bytes} {given : List Field}
    {next charged n : Nat} {head : Head}
    (hread : block.read limits.header limits.strict buffer = (given, .complete next charged))
    (hhead : head = { startLine := line, fields := fields.append given })
    (hlength : BodyLength.select direction head = .ok (.fixed n)) :
    .head head ∈ (step direction limits (.header line fields block) buffer).events := by
  cases n with
  | zero =>
      rw [(Move.bodiless hread hhead hlength (.inr rfl)).step_eq]
      exact List.mem_cons_self
  | succ n =>
      rw [(Move.fixedBody hread hhead hlength (Nat.succ_pos n)).step_eq]
      exact List.mem_cons_self

namespace Connection

variable {direction : Direction} {limits : Limits} {new : Connection}

theorem mem_call_of_trail {connection : Connection} {call : Call} {place : Phase × Bytes}
    {event : Event} (hplace : place ∈ connection.trail call)
    (hevent : event ∈ (Phase.step connection.reader.direction connection.reader.limits place.1
      place.2).events) : event ∈ (connection.call call).2 := by
  rw [← events_entries connection 0 call]
  obtain ⟨read, hstep⟩ : ∃ read, .report read event ∈ (connection.trail call).flatMap
      (Phase.stepEntries connection.reader.direction connection.reader.limits
        (0 + call.bytes.length)) :=
    ⟨_, List.mem_flatMap.2 ⟨place, hplace, List.mem_map_of_mem hevent⟩⟩
  refine List.mem_filterMap.2 ⟨.report read event, ?_, rfl⟩
  cases call with
  | push bytes => exact List.mem_append_right _ hstep
  | close => exact List.mem_append_left _ (List.mem_append_right _ hstep)
  | receive bytes => cases hplace
  | requestReset => cases hplace
  | declineBody => cases hplace

section Messages

variable {head : Head} {first : String} {more : List String}

/-- The bytes that are reported of the body of a message are as many as its first length says, if that
decides. -/
theorem first_length_obeyed (hstart : start direction limits = .ok new) (calls : List Call)
    (hlengths : head.fields.getAll "content-length" = first :: more)
    (hbody : ¬ (direction = .response ∧ head.NeverHasBody)) (hchunked : ¬ head.ListsChunked)
    {before later : List Entry} {read : Nat}
    (hrecord : new.record 0 calls = before ++ .report read (.head head) :: later) :
    ∃ n, BodyLength.Declares first n ∧
      (Course.follow later).Obeys (calls.flatMap Call.bytes) read (.fixed n) := by
  obtain ⟨length, hframed, -⟩ := (start_walk hstart calls).framed hrecord
  rcases BodyLength.select_first_cases hlengths hbody hchunked with ⟨n, hn, hselect⟩ | ⟨-, hselect⟩
  · have hobeys := hframed.obeys
    rw [Except.ok.inj (hframed.select.symm.trans hselect)] at hobeys
    exact ⟨n, hn, hobeys⟩
  · cases hframed.select.symm.trans hselect

/-- When the header block of a message is closed, the first length decides whether its head is reported
or refused. -/
theorem first_length_closes (hstart : start direction limits = .ok new) (calls : List Call)
    (hlengths : head.fields.getAll "content-length" = first :: more)
    (hbody : ¬ (direction = .response ∧ head.NeverHasBody)) (hchunked : ¬ head.ListsChunked)
    {call : Call} {line : StartLine} {fields : Fields} {block : FieldBlock} {buffer : Bytes}
    {given : List Field} {next charged : Nat}
    (hplace : (.header line fields block, buffer) ∈ (new.after calls).trail call)
    (hread : block.read limits.header limits.strict buffer = (given, .complete next charged))
    (hhead : head = { startLine := line, fields := fields.append given }) :
    (∀ n, BodyLength.Declares first n → .head head ∈ ((new.after calls).call call).2) ∧
      ((∀ n, ¬ BodyLength.Declares first n) → ∃ earlier, ((new.after calls).call call).2 =
        earlier ++ [.refusedHead head (.invalidContentLength first)]) := by
  obtain ⟨hdirection, hlimits⟩ := start_reader hstart calls
  constructor
  · intro n hn
    rcases BodyLength.select_first_cases hlengths hbody hchunked with
      ⟨m, -, hselect⟩ | ⟨hmalformed, -⟩
    · apply mem_call_of_trail hplace
      rw [hdirection, hlimits]
      exact Phase.reports_head hread hhead hselect
    · exact absurd hn (hmalformed n)
  · intro hmalformed
    rcases BodyLength.select_first_cases hlengths hbody hchunked with ⟨n, hn, -⟩ | ⟨-, hselect⟩
    · exact absurd hn (hmalformed n)
    · apply call_of_refused hplace
      rw [hdirection, hlimits]
      exact (Phase.Move.unframed hread hhead hselect).step_eq

end Messages

/-- Messages that declare a length once or several times, where neither the status nor a transfer coding
decides: the first length counts, and what the others say is not looked at, even where they conflict
with it.

The length that is selected is the number that the first value declares; if it declares none, the head is
refused with this value. However a connection is used, the bytes that are reported of the body of such a
message are those that follow its head, as many as the first value says; and when the header block of such
a message is closed, its head is reported if the first value declares a number, and is refused if it
declares none. -/
theorem first_length_counts (hstart : start direction limits = .ok new) (calls : List Call)
    {head : Head} {first : String} {more : List String}
    (hlengths : head.fields.getAll "content-length" = first :: more)
    (hbody : ¬ (direction = .response ∧ head.NeverHasBody)) (hchunked : ¬ head.ListsChunked) :
    (∀ n, BodyLength.select direction head = .ok (.fixed n) ↔ BodyLength.Declares first n) ∧
    (BodyLength.select direction head = .error (.invalidContentLength first) ↔
      ∀ n, ¬ BodyLength.Declares first n) ∧
    (∀ before read later, new.record 0 calls = before ++ .report read (.head head) :: later →
      ∃ n, BodyLength.Declares first n ∧
        (Course.follow later).Obeys (calls.flatMap Call.bytes) read (.fixed n)) ∧
    ∀ call line fields block buffer given next charged,
      (.header line fields block, buffer) ∈ (new.after calls).trail call →
      block.read limits.header limits.strict buffer = (given, .complete next charged) →
      head = { startLine := line, fields := fields.append given } →
      (∀ n, BodyLength.Declares first n → .head head ∈ ((new.after calls).call call).2) ∧
        ((∀ n, ¬ BodyLength.Declares first n) → ∃ earlier,
          ((new.after calls).call call).2 =
            earlier ++ [.refusedHead head (.invalidContentLength first)]) := by
  refine ⟨?_, ?_, ?_, ?_⟩
  · intro n
    rw [BodyLength.select_first hlengths hbody hchunked]
    exact BodyLength.map_fixed_eq_ok_iff
  · rw [BodyLength.select_first hlengths hbody hchunked]
    exact BodyLength.map_fixed_eq_error_iff
  · intro before read later hrecord
    exact first_length_obeyed hstart calls hlengths hbody hchunked hrecord
  · intro call line fields block buffer given next charged hplace hread hhead
    exact first_length_closes hstart calls hlengths hbody hchunked hplace hread hhead

/-- A message with two lengths, in other cases of letters, is read as its first one says, and the next one
is refused for its first length though the second could be read. -/
theorem first_length_counts_then_refused :
    let new : Connection := { reader := ⟨.request, {}, by decide, .idle, false⟩ }
    let sent := toBytes "PUT /a HTTP/1.1\r\nContent-Length: 5\r\ncontent-length: 6\r\n\r\nhello"
    let calls : List Call := [.push sent]
    let head : Head :=
      { startLine := .request "PUT" "/a" .http11
        fields := ⟨[⟨"Content-Length", "5"⟩, ⟨"content-length", "6"⟩]⟩ }
    let later : List Entry := [.report 62 (.last { data := toBytes "hello" })]
    let block := toBytes "Content-Length: +5\r\nContent-Length: 5\r\n\r\n"
    let call : Call := .push (toBytes "PUT /b HTTP/1.1\r\n" ++ block)
    let refused : Head :=
      { startLine := .request "PUT" "/b" .http11
        fields := ⟨[⟨"Content-Length", "+5"⟩, ⟨"Content-Length", "5"⟩]⟩ }
    start .request {} = .ok new ∧
      head.fields.getAll "content-length" = "5" :: ["6"] ∧
      refused.fields.getAll "content-length" = "+5" :: ["5"] ∧
      ¬ head.ListsChunked ∧ ¬ refused.ListsChunked ∧
      new.record 0 calls = .report 57 (.head head) :: later ∧
      (∃ n, BodyLength.Declares "5" n ∧ (Course.follow later).Obeys sent 57 (.fixed n)) ∧
      (∀ n, ¬ BodyLength.Declares "+5" n) ∧
      ∃ earlier, ((new.after calls).call call).2 =
        earlier ++ [.refusedHead refused (.invalidContentLength "+5")] := by
  intro new sent calls head later block call refused
  have hstart : start .request {} = .ok new := rfl
  have hhead : head.fields.getAll "content-length" = "5" :: ["6"] := by decide +kernel
  have hrefused : refused.fields.getAll "content-length" = "+5" :: ["5"] := by decide +kernel
  have hbody : ∀ head : Head, ¬ (Direction.request = .response ∧ head.NeverHasBody) := by
    rintro head ⟨h, -⟩
    cases h
  have hhead_chunked : ¬ head.ListsChunked := by
    rw [← Head.isChunked_iff]
    decide +kernel
  have hrefused_chunked : ¬ refused.ListsChunked := by
    rw [← Head.isChunked_iff]
    decide +kernel
  have hrecord : new.record 0 calls = [] ++ .report 57 (.head head) :: later := by decide +kernel
  have hmalformed : ∀ n, ¬ BodyLength.Declares "+5" n := by
    intro n hn
    have hread : BodyLength.declared "+5" = .error (.invalidContentLength "+5") := by decide +kernel
    rw [BodyLength.declared_eq_ok_iff.2 hn] at hread
    cases hread
  have hplace : (.header (.request "PUT" "/b" .http11) {} {}, block) ∈
      (new.after calls).trail call := by decide +kernel
  have hread : ({} : FieldBlock).read 8192 true block =
      ([⟨"Content-Length", "+5"⟩, ⟨"Content-Length", "5"⟩], .complete 41 35) := by decide +kernel
  obtain ⟨-, -, hframed, -⟩ := first_length_counts hstart calls hhead (hbody head) hhead_chunked
  obtain ⟨-, -, -, hclosed⟩ :=
    first_length_counts hstart calls hrefused (hbody refused) hrefused_chunked
  obtain ⟨-, hfails⟩ := hclosed call _ _ _ block _ _ _ hplace hread rfl
  exact ⟨hstart, hhead, hrefused, hhead_chunked, hrefused_chunked, hrecord, hframed [] 57 later hrecord,
    hmalformed, hfails hmalformed⟩

/-- Two declared lengths are different numbers, or the second one is no number, and neither the status nor
a transfer coding decides: no fault is reported, and the body has the first length. -/
theorem conflicting_lengths_read :
    let new : Connection := { reader := ⟨.request, {}, by decide, .idle, false⟩ }
    let put (second : String) : Head :=
      { startLine := .request "PUT" "/" .http11
        fields := ⟨[⟨"Content-Length", "5"⟩, ⟨"Content-Length", second⟩]⟩ }
    start .request {} = .ok new ∧
      IsDecimal 5 "5".toList ∧ IsDecimal 6 "6".toList ∧ (∀ n, ¬ IsDecimal n "six".toList) ∧
      ¬ (put "6").ListsChunked ∧ ¬ (put "six").ListsChunked ∧
      BodyLength.select .request (put "6") = .ok (.fixed 5) ∧
      BodyLength.select .request (put "six") = .ok (.fixed 5) ∧
      new.events [.push (toBytes
          "PUT / HTTP/1.1\r\nContent-Length: 5\r\nContent-Length: 6\r\n\r\nhello")] =
        [.head (put "6"), .last { data := toBytes "hello" }] ∧
      new.events [.push (toBytes
          "PUT / HTTP/1.1\r\nContent-Length: 5\r\nContent-Length: six\r\n\r\nhello")] =
        [.head (put "six"), .last { data := toBytes "hello" }] := by
  intro new put
  have hchunked : ¬ (put "6").ListsChunked ∧ ¬ (put "six").ListsChunked := by
    rw [← Head.isChunked_iff, ← Head.isChunked_iff]
    decide +kernel
  refine ⟨rfl, ⟨0, by decide +kernel⟩, ⟨0, by decide +kernel⟩, ?_, hchunked.1, hchunked.2,
    by decide +kernel, by decide +kernel, by decide +kernel, by decide +kernel⟩
  intro n h
  exact absurd (h.isDigit_of_mem (c := 's') (by decide +kernel)) (by decide)

end Connection

end HttpWire

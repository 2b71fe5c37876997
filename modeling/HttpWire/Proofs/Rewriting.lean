import HttpWire.Proofs.Ceilings
import HttpWire.Proofs.RoundTrip
import HttpWire.Proofs.Values

/-!
# Heads are written again

Many lines are read as the same head: a version may be in lower case, a status code may have leading
zeros, and a value may be padded, or folded over several lines. What a reader keeps of them is
settled, in that reading it again changes nothing more. So a head that was reported can be written
with single spaces and without any padding, and is then reported as it was.

- `isLineEnd_of_mem_unfold`, `unfold_ends`: a value that is brought to one line has no line ends
  inside, and still begins and ends on text.
- `StartLine.wellFormed_of_read`: a start line that was read is well-formed.
- `FieldBlock.settled_of_read`: fields that were read are settled.
- `Head.write`: the shortest way to write a head; `Connection.head_rewritten`: it is read back.
-/

set_option autoImplicit false

namespace HttpWire

open Text

namespace Text

theorem isLatin_ofBytes (bytes : Bytes) : IsLatin (ofBytes bytes) := by
  intro c hc
  rw [toList_ofBytes] at hc
  obtain ⟨b, -, rfl⟩ := List.mem_map.1 hc
  change b.toUInt32.toNat < 256
  rw [UInt8.toNat_toUInt32]
  exact b.toNat_lt

theorem ofBytes_ne {bytes : Bytes} (h : bytes.isEmpty = false) : ofBytes bytes ≠ "" := by
  intro hempty
  have htoBytes := congrArg toBytes hempty
  rw [toBytes_ofBytes] at htoBytes
  rw [htoBytes] at h
  cases h

theorem lt_of_unsigned? {bound n : Nat} {digits : List Char} (h : unsigned? bound digits = some n) :
    n < bound := by
  unfold unsigned? at h
  split at h <;> exact lt_of_decimal? h

end Text

/-! ## Start lines -/

namespace StartLine

/-- A start line as bytes. A reason that is empty is left out, with the space in front of it. -/
def write : StartLine → Bytes
  | request method target version => toBytes (request method target version).text
  | status version code reason =>
      if reason = "" then toBytes (version.text ++ " " ++ decimal code)
      else toBytes (status version code reason).text

variable {direction : Direction} {first : StartLine}

/-- What is left out is the end of the line. -/
theorem write_isPrefix (first : StartLine) : first.write <+: toBytes first.text := by
  cases first with
  | request method target version => exact List.prefix_refl _
  | status version code reason =>
      rw [write]
      split
      · have htext : (status version code reason).text =
            version.text ++ " " ++ decimal code ++ (" " ++ reason) := String.append_assoc
        rw [htext, toBytes_append (version.text ++ " " ++ decimal code)]
        exact List.prefix_append _ _
      · exact List.prefix_refl _

/-- A well-formed start line is read back without the space that stands for an empty reason. -/
theorem read_write (h : first.WellFormed direction) :
    StartLine.read direction first.write = .ok (some first) := by
  cases first with
  | request method target version => exact read_text h
  | status version code reason =>
      rw [write]
      split
      · rename_i hreason
        subst hreason
        cases direction with
        | request => exact h.elim
        | response =>
            have hversion := h.1
            have hnone : ∀ b ∈ ([] : Bytes).head?, isBlank b = true := nofun
            have hparts := parts_words (not_isBlank_of_visible hversion.visible)
              (toBytes_ne_nil hversion.text_ne) (not_isBlank_of_visible (visible_decimal code))
              (toBytes_ne_nil (decimal_ne code)) hnone
            rw [List.append_nil] at hparts
            rw [StartLine.read]
            refine readStatus_of_parts h ?_
            rw [toBytes_append, toBytes_append, toBytes_space, List.append_assoc,
              List.singleton_append]
            exact hparts
      · exact read_text h

theorem isLineEnd_of_mem_write (h : first.WellFormed direction) :
    ∀ b ∈ first.write, isLineEnd b = false :=
  fun b hb => isLineEnd_of_mem_text h b ((write_isPrefix first).subset hb)

theorem exists_cons_write (h : first.WellFormed direction) :
    ∃ b rest, first.write = b :: rest ∧ isPadding b = false := by
  obtain ⟨b, rest, htext, hb⟩ := exists_cons_text h
  obtain ⟨left, hleft⟩ := write_isPrefix first
  cases hwrite : first.write with
  | nil =>
      have hread := read_write h
      rw [hwrite] at hread
      cases direction <;> cases hread
  | cons c later =>
      rw [hwrite, htext] at hleft
      cases hleft
      exact ⟨b, later, rfl, hb⟩

/-! ### What was read -/

theorem not_isBlank_of_mem_word {line : Bytes} {b : UInt8} (h : b ∈ (word line).1) :
    isBlank b = false := by
  have hall := List.all_eq_true.1 (List.all_takeWhile (p := (!isBlank ·))) b h
  simpa using hall

theorem word_suffix (line : Bytes) : (word line).2 <:+ line :=
  (List.dropWhile_suffix _).trans (List.dropWhile_suffix _)

/-- The three parts of a line: two words, and a part of the line without blanks around it. -/
theorem of_parts {line first second last : Bytes} (h : parts line = (first, second, last)) :
    (∀ b ∈ first, isBlank b = false) ∧ (∀ b ∈ second, isBlank b = false) ∧
      trim isBlank last = last ∧ ∀ b ∈ last, b ∈ line := by
  simp only [parts, Prod.mk.injEq] at h
  obtain ⟨rfl, rfl, rfl⟩ := h
  refine ⟨fun b hb => not_isBlank_of_mem_word hb, fun b hb => not_isBlank_of_mem_word hb, ?_, ?_⟩
  · obtain ⟨hfirst, hlast⟩ := trim_ends isBlank (word (word line).2).2
    exact trim_of_ends hfirst hlast
  · intro b hb
    exact ((word_suffix _).trans (word_suffix _)).subset (mem_of_mem_trim hb)

/-- A version that was read from a line is well-formed, if no control stands in its protocol. -/
theorem version_wellFormed {bytes : Bytes} {version : Version}
    (h : Version.parse (ofBytes bytes) = .ok version)
    (hcontrols : ∀ c ∈ version.protocol.toList, isControl c = false) : version.WellFormed :=
  ⟨Version.isLatin_of_parse (isLatin_ofBytes bytes) h, hcontrols, Version.parse_text h⟩

theorem wellFormed_of_readRequest {line : Bytes} (hread : readRequest line = .ok (some first))
    (hcontrols : ∀ c ∈ first.version.protocol.toList, isControl c = false) :
    first.WellFormed .request := by
  rcases hparts : parts line with ⟨front, middle, last⟩
  obtain ⟨hfront, hmiddle, -, -⟩ := of_parts hparts
  simp only [readRequest, hparts] at hread
  split at hread
  · cases hread
  · rename_i hnonempty
    simp only [Bool.or_eq_true, not_or, Bool.not_eq_true] at hnonempty
    obtain ⟨⟨hmethod, htarget⟩, -⟩ := hnonempty
    split at hread
    · cases hread
    · rename_i hvalid
      rw [Bool.not_eq_true, List.any_eq_false] at hvalid
      split at hread
      · cases hread
      · rename_i version hversion
        cases hread
        refine ⟨⟨isLatin_ofBytes _, ofBytes_ne hmethod, ?_, ?_⟩,
          ⟨isLatin_ofBytes _, ofBytes_ne htarget, ?_⟩, version_wellFormed hversion hcontrols⟩
        · rw [toBytes_ofBytes]
          exact hfront
        · exact fun c hc => Bool.not_eq_true _ ▸ hvalid c hc
        · rw [toBytes_ofBytes]
          exact hmiddle

theorem wellFormed_of_readStatus {line : Bytes} (hread : readStatus line = .ok (some first))
    (hends : ∀ b ∈ line, isLineEnd b = false)
    (hcontrols : ∀ c ∈ first.version.protocol.toList, isControl c = false) :
    first.WellFormed .response := by
  rcases hparts : parts line with ⟨front, middle, last⟩
  obtain ⟨-, -, htrim, hlast⟩ := of_parts hparts
  simp only [readStatus, hparts] at hread
  split at hread
  · cases hread
  · split at hread
    · cases hread
    · rename_i version hversion
      split at hread
      · cases hread
      · rename_i code hcode
        cases hread
        refine ⟨version_wellFormed hversion hcontrols, lt_of_unsigned? hcode,
          isLatin_ofBytes _, ?_, ?_⟩
        · rw [toBytes_ofBytes]
          exact fun b hb => hends b (hlast b hb)
        · rw [toBytes_ofBytes]
          exact htrim

theorem wellFormed_of_read {line : Bytes} (hread : StartLine.read direction line = .ok (some first))
    (hends : ∀ b ∈ line, isLineEnd b = false)
    (hcontrols : ∀ c ∈ first.version.protocol.toList, isControl c = false) :
    first.WellFormed direction := by
  cases direction with
  | request => exact wellFormed_of_readRequest hread hcontrols
  | response => exact wellFormed_of_readStatus hread hends hcontrols

end StartLine

/-! ## Values -/

theorem isLineEnd_of_mem_unfold {value : Bytes} :
    ∀ b ∈ HttpWire.unfold value, isLineEnd b = false := by
  fun_induction HttpWire.unfold value with
  | case1 value hrest =>
      intro b hb
      rcases Phase.dropWhile_split (fun b => !isLineEnd b) value with
        ⟨-, hall⟩ | ⟨-, c, rest, hdrop, -⟩
      · simpa using hall b hb
      · rw [hrest] at hdrop
        cases hdrop
  | case2 value c rest hrest ih =>
      intro b hb
      rw [List.mem_append, List.mem_cons] at hb
      rcases hb with hfront | rfl | hlater
      · have htake := List.all_eq_true.1 (List.all_takeWhile (p := fun b => !isLineEnd b)) b
          ((dropTrailing_isPrefix isFold _).subset hfront)
        simpa using htake
      · rfl
      · exact ih b hlater

/-- Text stands on both sides of a blank in a value that begins and ends on text. -/
theorem text_around {front rest : Bytes} {c : UInt8} (hc : isBlank c = true)
    (hfirst : ∀ b ∈ (front ++ c :: rest).head?, isBlank b = false)
    (hlast : ∀ b ∈ (front ++ c :: rest).getLast?, isBlank b = false) :
    (∃ b text, front = b :: text ∧ isBlank b = false) ∧
      (∃ b text, rest.dropWhile isBlank = b :: text ∧ isBlank b = false) ∧
      ∀ b ∈ (rest.dropWhile isBlank).getLast?, isBlank b = false := by
  have hfront : ∃ b text, front = b :: text ∧ isBlank b = false := by
    cases front with
    | nil =>
        rw [hfirst c rfl] at hc
        cases hc
    | cons b text => exact ⟨b, text, rfl, hfirst b rfl⟩
  rw [List.getLast?_append, List.getLast?_cons, Option.some_or, ← List.getLast?_cons] at hlast
  refine ⟨hfront, ?_⟩
  rcases Phase.dropWhile_split isBlank rest with
    ⟨-, hall⟩ | ⟨blanks, d, text, hdrop, hsplit, -, hd⟩
  · -- the value would end on a blank
    have hblank : ∀ b ∈ c :: rest, isBlank b = true := List.forall_mem_cons.2 ⟨hc, hall⟩
    obtain ⟨b, hb⟩ : ∃ b, (c :: rest).getLast? = some b := ⟨_, List.getLast?_cons⟩
    have htext := hlast b hb
    rw [hblank b (List.mem_of_getLast? hb)] at htext
    cases htext
  · rw [hdrop]
    refine ⟨⟨d, text, rfl, hd⟩, ?_⟩
    intro b hb
    refine hlast b ?_
    rw [hsplit, ← List.cons_append, List.getLast?_append, hb, Option.some_or]
    rfl

/-- A value that begins and ends on text still does on one line. -/
theorem unfold_ends {value : Bytes} (hfirst : ∀ b ∈ value.head?, isBlank b = false)
    (hlast : ∀ b ∈ value.getLast?, isBlank b = false) :
    (∀ b ∈ (HttpWire.unfold value).head?, isBlank b = false) ∧
      (∀ b ∈ (HttpWire.unfold value).getLast?, isBlank b = false) ∧
      (value ≠ [] → HttpWire.unfold value ≠ []) := by
  fun_induction HttpWire.unfold value with
  | case1 value hrest => exact ⟨hfirst, hlast, id⟩
  | case2 value c rest hrest ih =>
      have hc : isBlank c = true := by
        have hhead := List.head?_dropWhile_not (fun b => !isLineEnd b) value
        rw [hrest] at hhead
        have hend : isLineEnd c = true := by simpa using hhead
        cases hblank : isBlank c with
        | true => rfl
        | false =>
            rw [isLineEnd_of_not_isBlank hblank] at hend
            cases hend
      have hsplit := List.takeWhile_append_dropWhile (p := fun b => !isLineEnd b) (l := value)
      rw [hrest] at hsplit
      rw [← hsplit] at hfirst hlast
      obtain ⟨⟨b, text, hfront, hb⟩, ⟨d, later, hdrop, hd⟩, hends⟩ := text_around hc hfirst hlast
      rw [hdrop] at hends ih
      obtain ⟨-, hlater, hne⟩ := ih (by simpa using hd) hends
      rw [hfront, hdrop]
      refine ⟨?_, ?_, fun _ => by simp⟩
      · -- the first byte of the value is no fold, and so it stays
        intro e he
        obtain ⟨e', front, hdropped⟩ :=
          List.exists_cons_of_ne_nil (dropTrailing_cons_ne_nil text (isFold_of_not_isBlank hb))
        have hprefix := dropTrailing_isPrefix isFold (b :: text)
        rw [hdropped] at hprefix he
        obtain ⟨rfl, -⟩ := List.cons_prefix_cons.1 hprefix
        cases he
        exact hb
      · intro e he
        obtain ⟨e', hlast'⟩ := Option.isSome_iff_exists.1
          (List.getLast?_isSome.2 (hne (List.cons_ne_nil d later)))
        rw [List.getLast?_append, ← List.singleton_append, List.getLast?_append, hlast',
          Option.some_or, Option.some_or] at he
        cases he
        exact hlater e hlast'

/-! ## Fields -/

/-- The shortest way to write a field: its name, a colon, and its value. -/
def Field.write (field : Field) : Bytes :=
  toBytes field.name ++ colon :: toBytes field.value

theorem Field.Settled.spelledBy_write {field : Field} {strict : Bool} (h : field.Settled strict) :
    field.SpelledBy strict field.write :=
  h.spelledBy (List.forall_mem_nil _)

/-- A field that passes the checks is the name and the value that were checked. -/
theorem Field.eq_of_check {strict : Bool} {name value : Bytes} {field : Field}
    (h : Field.check strict name value = .ok field) :
    toBytes field.name = name ∧ toBytes field.value = value := by
  unfold Field.check at h
  split at h
  · cases h
  · split at h
    · cases h
    · cases h
      exact ⟨toBytes_ofBytes name, toBytes_ofBytes value⟩

namespace FieldSpans

variable {buffer : Bytes} {line : Line} {spans : FieldSpans}

/-- Spans at which a name and a value stand: the name has no blank and no colon inside, and the
value begins and ends on text. -/
structure Proper (spans : FieldSpans) (buffer : Bytes) : Prop where
  name : ∀ b ∈ spans.name.bytes buffer, endsName b = false
  value : spans.Trimmed buffer

theorem ofLine_proper (h : line.Within buffer) : (ofLine buffer line).Proper buffer := by
  refine ⟨?_, ofLine_trimmed h⟩
  intro b hb
  rw [name_ofLine, nameText] at hb
  simpa using List.all_eq_true.1 List.all_takeWhile b hb

/-- A line that continues a field leaves its name alone. -/
theorem name_extend (buffer : Bytes) (spans : FieldSpans) (line : Line) :
    (extend buffer spans line).name = spans.name := by
  simp only [extend]
  split
  · split <;> rfl
  · rfl

theorem extend_proper (hline : line.Within buffer) (hspans : spans.InOrder line.start)
    (h : spans.Proper buffer) : (extend buffer spans line).Proper buffer := by
  refine ⟨?_, extend_trimmed hline hspans h.value⟩
  rw [name_extend]
  exact h.name

theorem Proper.settled (h : spans.Proper buffer) {strict : Bool} {field : Field}
    (hfield : spans.field strict buffer = .ok field) : field.Settled strict := by
  obtain ⟨hname, hvalue⟩ := Field.eq_of_check hfield
  obtain ⟨hfirst, hlast, -⟩ := unfold_ends h.value.first h.value.last
  refine ⟨?_, ?_, ?_, ?_⟩
  · rw [hname]
    exact h.name
  · rw [hvalue]
    exact isLineEnd_of_mem_unfold
  · rw [hvalue]
    exact trim_of_ends hfirst hlast
  · rw [hname, hvalue]
    exact hfield

end FieldSpans

theorem FieldBlock.settled_of_takeLine {strict : Bool} {buffer : Bytes}
    {pending opened : Option FieldSpans} {line : Line} {done : Option Field}
    (htake : takeLine strict buffer pending line = .ok (done, opened))
    (hproper : ∀ spans ∈ pending, spans.Proper buffer) :
    ∀ field ∈ done.toList, field.Settled strict := by
  intro field hfield
  rw [Option.mem_toList] at hfield
  rcases takeLine_cases htake with ⟨-, -, -, rfl, -⟩ | ⟨hdone, -⟩
  · cases hfield
  · obtain ⟨spans, hspans, hfield⟩ := hdone field hfield
    exact (hproper spans hspans).settled hfield

theorem FieldBlock.settled_of_read {limit : Nat} {strict : Bool} {buffer : Bytes}
    {block : FieldBlock} (hwithin : block.Within buffer)
    (hproper : ∀ spans ∈ block.pending, spans.Proper buffer) :
    ∀ field ∈ (read limit strict buffer block).1, field.Settled strict := by
  fun_induction read limit strict buffer block with
  | case1 block hline => exact List.forall_mem_nil _
  | case2 block hline => exact List.forall_mem_nil _
  | case3 block line hline cause htake => exact List.forall_mem_nil _
  | case4 block line hline charged done htake => exact settled_of_takeLine htake hproper
  | case5 block line hline charged done spans htake further ih =>
      refine List.forall_mem_append.2 ⟨settled_of_takeLine htake hproper,
        ih (hwithin.next hline htake charged) ?_⟩
      obtain ⟨hspan, hpending⟩ := hwithin.found hline
      rintro spans' ⟨⟩
      apply takeLine_opened htake
      · intro old hold
        exact FieldSpans.extend_proper hspan (hpending old hold) (hproper old hold)
      · exact FieldSpans.ofLine_proper hspan

/-! ## Heads -/

namespace Head

/-- The shortest way to write a head: its start line, a line for each field, and an empty line. -/
def write (head : Head) : Bytes :=
  endLine head.startLine.write
    ++ ((head.fields.toList.flatMap fun field => endLine field.write) ++ endLine [])

/-- The bytes in the field lines of a head as it is written, their ends not counted. -/
def charge (head : Head) : Nat :=
  (head.fields.toList.flatMap Field.write).length

/-- A head that a reader within the limits reports. -/
structure Reported (head : Head) (direction : Direction) (limits : Limits) : Prop where
  startLine : ∃ line, StartLine.read direction line = .ok (some head.startLine) ∧
    ∀ b ∈ line, isLineEnd b = false
  fields : ∀ field ∈ head.fields.toList, field.Settled limits.strict
  verdict : head.verdict = .success
  length : ∃ length, BodyLength.select direction head = .ok length ∧
    Phase.bodyFault? limits length = none

end Head

/-- A step that reports a head accepts its body. -/
theorem Phase.Move.accepts_head {direction : Direction} {limits : Limits} {phase : Phase}
    {buffer : Bytes} {next : Step} {head : Head} (hmove : Move direction limits phase buffer next)
    (hhead : .head head ∈ next.events) :
    ∃ length, BodyLength.select direction head = .ok length ∧ bodyFault? limits length = none := by
  cases hmove with
  | bodiless hread hopening hlength hempty =>
      obtain rfl : head = _ := by simpa [Step.proceed] using hhead
      rcases hempty with rfl | rfl <;> exact ⟨_, hlength, rfl⟩
  | fixedBody hread hopening hlength hpos =>
      obtain rfl : head = _ := by simpa [Step.proceed] using hhead
      exact ⟨_, hlength, rfl⟩
  | chunkedBody hread hopening hlength hlimits =>
      obtain rfl : head = _ := by simpa [Step.proceed] using hhead
      exact ⟨_, hlength, if_pos hlimits⟩
  | openBody hread hopening hlength =>
      obtain rfl : head = _ := by simpa [Step.proceed] using hhead
      exact ⟨_, hlength, rfl⟩
  | _ => simp [Step.proceed, Step.wait, Step.refuse, Event.refusedHead, Event.refusedContent]
      at hhead

/-- A head whose start line and fields are read, and whose body is accepted, is reported. -/
theorem Phase.step_reports {direction : Direction} {limits : Limits} {head : Head} {buffer : Bytes}
    {next charged : Nat} {length : BodyLength} (hverdict : head.verdict = .success)
    (hread : FieldBlock.read limits.header limits.strict buffer {} =
      (head.fields.toList, .complete next charged))
    (hselect : BodyLength.select direction head = .ok length)
    (haccepts : bodyFault? limits length = none) :
    ∃ phase later, step direction limits (.header head.startLine {} {}) buffer =
      .proceed phase (buffer.drop next) (.head head :: later) := by
  have hhead : ({ startLine := head.startLine
                  fields := ({} : Fields).append head.fields.toList } : Head) = head := by
    rcases head with ⟨first, fields, verdict⟩
    cases hverdict
    rfl
  simp only [step, stepHeader, hread, hhead, stepHead, hselect, haccepts]
  exact ⟨_, _, rfl⟩

theorem Phase.bodyFault?_congr {limits larger : Limits} (h : larger.chunked = limits.chunked)
    (length : BodyLength) : bodyFault? larger length = bodyFault? limits length := by
  cases length with
  | chunked => rw [bodyFault?, bodyFault?, h]
  | _ => rfl

theorem Walk.reported_head {direction : Direction} {limits : Limits} {input rest : Bytes}
    {record : List Entry} {phase : Phase} (h : Walk direction limits input record phase rest)
    {read : Nat} {head : Head} (hmem : .report read (.head head) ∈ record) :
    head.Reported direction limits := by
  obtain ⟨input', record', phase', rest', -, walk, ⟨hevent, -⟩ | hclose⟩ := h.reported hmem
  · have hmove := Phase.step_move direction limits phase' rest'
    obtain ⟨line, block, -, hstands, -⟩ := walk.stands hmove hevent
    refine ⟨⟨line, hstands.begins.read⟩, ?_, ?_, hmove.accepts_head hevent⟩
    · rw [← hstands.fields]
      exact FieldBlock.settled_of_read (FieldBlock.within_start 0 _) nofun
    · obtain ⟨first, fields, block, more, closed, charged, -, -, rfl, -⟩ := hmove.of_head hevent
      rfl
  · exact absurd hclose (Phase.atClose_ne_head phase' head)

namespace Connection

variable {direction : Direction} {limits larger : Limits} {new other : Connection}

/-- Every head that a new connection reports, however it is used, was read from a line, and is
accepted. -/
theorem reported_head (hstart : start direction limits = .ok new) {calls : List Call} {head : Head}
    (hhead : .head head ∈ new.events calls) : head.Reported direction limits := by
  rw [← events_record new 0 calls] at hhead
  obtain ⟨entry, hentry, hevent⟩ := List.mem_filterMap.1 hhead
  cases entry with
  | report read event =>
      cases hevent
      exact (start_walk hstart calls).reported_head hentry
  | _ => cases hevent

/-- A head that was reported, in any use of a connection, is the first report of another new
connection of the same direction that receives it as it is written. The limits on lines may differ,
if they are large enough, and the limit on pieces in any way. Of the version it is only asked that
no control stands in its protocol, since these are blanks in front of a line. -/
theorem head_rewritten (hstart : start direction limits = .ok new) (calls : List Call) {head : Head}
    (hhead : .head head ∈ new.events calls)
    (hcontrols : ∀ c ∈ head.startLine.version.protocol.toList, isControl c = false)
    (hother : start direction larger = .ok other) (hchunked : larger.chunked = limits.chunked)
    (hstrict : larger.strict = limits.strict) (hline : head.startLine.write.length ≤ larger.line)
    (hheader : head.charge ≤ larger.header) :
    ∃ later, (other.push head.write).2 = .head head :: later := by
  obtain ⟨⟨line, hread, hends⟩, hfields, hverdict, length, hselect, haccepts⟩ :=
    reported_head hstart hhead
  have hfirst := StartLine.wellFormed_of_read hread hends hcontrols
  have hrun := Phase.run_line (StartLine.read_write hfirst)
    (StartLine.isLineEnd_of_mem_write hfirst) (StartLine.exists_cons_write hfirst) hline
    ((head.fields.toList.flatMap fun field => endLine field.write) ++ endLine [])
  -- the block is read back into the fields, and the head is then what it was
  obtain ⟨next, hblock, -⟩ := @FieldBlock.read_lines
    ((head.fields.toList.flatMap fun field => endLine field.write) ++ endLine []) []
    larger.header larger.strict Field.write head.fields.toList
    (fun field hfield => hstrict ▸ (hfields field hfield).spelledBy_write) 0 0 none none rfl
    (by rw [List.append_nil, List.drop_zero]) (by rw [Nat.zero_add]; exact hheader)
  rw [← Phase.bodyFault?_congr hchunked] at haccepts
  obtain ⟨phase, later, hstep⟩ := Phase.step_reports hverdict hblock hselect haccepts
  rw [start_push hother, Head.write]
  simp only
  rw [hrun, Phase.run_of_proceed hstep]
  exact ⟨later ++ _, rfl⟩

/-- A reader that checks nothing reads a version in lower case, leading zeros, padding, a folded
value and an empty name. None of it is written again, and a reader with exactly enough room for the
rest reports the same head. -/
theorem head_rewritten_unchecked :
    let lenient : Limits := { strict := false }
    let narrow : Limits := { lenient with line := 15, header := 7, piece := 1 }
    let head : Head :=
      { startLine := .status .http11 200 "OK"
        fields := ⟨[⟨"", "x"⟩, ⟨"A", "b c"⟩]⟩ }
    let new : Connection := { reader := ⟨.response, lenient, by decide, .idle, false⟩ }
    let other : Connection := { reader := ⟨.response, narrow, by decide, .idle, false⟩ }
    let received : Bytes := toBytes " http/01.1  00200\tOK \n:x\r\nA : b \r\n\t c\r\n\r\n"
    start .response lenient = .ok new ∧
      .head head ∈ new.events [.push received] ∧
      (∀ c ∈ head.startLine.version.protocol.toList, isControl c = false) ∧
      start .response narrow = .ok other ∧
      head.startLine.write.length ≤ narrow.line ∧ head.charge ≤ narrow.header ∧
      ∃ later, (other.push head.write).2 = .head head :: later := by
  intro lenient narrow head new other received
  have hhead : .head head ∈ new.events [.push received] := by decide +kernel
  have hcontrols : ∀ c ∈ head.startLine.version.protocol.toList, isControl c = false := by
    decide +kernel
  have hline : head.startLine.write.length ≤ narrow.line := by decide +kernel
  have hheader : head.charge ≤ narrow.header := by decide +kernel
  have hstart : start .response lenient = .ok new := rfl
  have hother : start .response narrow = .ok other := rfl
  exact ⟨hstart, hhead, hcontrols, hother, hline, hheader,
    head_rewritten hstart [.push received] hhead hcontrols hother rfl rfl hline hheader⟩

end Connection

end HttpWire

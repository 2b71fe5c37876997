import HttpWire.Proofs.Rewriting

/-!
# Texts on one line

Each text that a reader makes of a line is on one line: none holds a carriage return or a line feed.
Most of them are bytes between the ends of a line. A value is brought to one line when it is read, a
version is assembled from its parts, and a fault quotes what it shows of a value.

- `OneLine`: a text on one line.
- `StartLine.texts`, `Fields.texts`, `Event.texts`: the texts that come with a part of a message.
- `StartLine.oneLine_of_read`, `FieldBlock.oneLine_of_read`: the texts of what is read.
- `StartLine.oneLine_message`, `FieldBlock.oneLine_message`, `BodyLength.oneLine_message`,
  `Chunked.oneLine_message`: the wording of what is refused.
-/

set_option autoImplicit false

namespace HttpWire

open Text

/-! ## Texts -/

/-- A character that ends a line. -/
def Text.isBreak (c : Char) : Bool :=
  c == '\r' || c == '\n'

/-- A text without a carriage return or a line feed. -/
def OneLine (text : String) : Prop :=
  ∀ c ∈ text.toList, isBreak c = false

instance (text : String) : Decidable (OneLine text) :=
  inferInstanceAs (Decidable (∀ c ∈ text.toList, isBreak c = false))

namespace Text

@[simp] theorem oneLine_append_iff {s t : String} : OneLine (s ++ t) ↔ OneLine s ∧ OneLine t := by
  simp only [OneLine, String.toList_append, List.forall_mem_append]

/-- A line end among the bytes is one among the characters. -/
theorem isBreak_ofUInt8 (b : UInt8) : isBreak (Char.ofUInt8 b) = isLineEnd b := by
  have hall := forall_byte (p := fun b => isBreak (Char.ofUInt8 b) == isLineEnd b)
    (by decide +kernel) b
  exact beq_iff_eq.1 hall

theorem oneLine_ofBytes_iff {bytes : Bytes} :
    OneLine (ofBytes bytes) ↔ ∀ b ∈ bytes, isLineEnd b = false := by
  simp only [OneLine, toList_ofBytes, List.forall_mem_map, isBreak_ofUInt8]

theorem isBreak_of_lt {c : Char} (h : 13 < c.toNat) : isBreak c = false := by
  rw [isBreak, Bool.or_eq_false_iff, beq_eq_false_iff_ne, beq_eq_false_iff_ne]
  constructor
  · rintro rfl
    exact absurd h (by decide)
  · rintro rfl
    exact absurd h (by decide)

@[simp] theorem oneLine_decimal (n : Nat) : OneLine (decimal n) := by
  intro c hc
  have hdigit := toNat_of_isDigit (isDigit_of_mem_decimal hc)
  exact isBreak_of_lt (by omega)

/-- The digits of an escape are on the line. -/
theorem isBreak_of_mem_escape {c : Char} (hhidden : isHidden c = true) :
    ∀ d ∈ Nat.toDigits 16 c.toNat, isBreak d = false := by
  have hall : ∀ n < 174, ∀ d ∈ Nat.toDigits 16 n, isBreak d = false := by decide +kernel
  refine hall c.toNat ?_
  simp only [isHidden, Bool.or_eq_true, Bool.and_eq_true, decide_eq_true_eq, beq_iff_eq] at hhidden
  omega

/-- Whatever is quoted is on one line then. -/
@[simp] theorem oneLine_quoted (text : String) : OneLine (quoted text) := by
  have hchar : ∀ c, ∀ d ∈ quoteChar c, isBreak d = false := by
    intro c
    unfold quoteChar
    split
    · decide
    · split
      · decide
      · split
        · decide
        · rename_i hlf
          split
          · decide
          · rename_i hcr
            split
            · decide
            · split
              · decide
              · split
                · rename_i hhidden
                  simp only [List.forall_mem_append]
                  exact ⟨⟨by decide, isBreak_of_mem_escape hhidden⟩, by decide⟩
                · rw [List.forall_mem_singleton, isBreak, Bool.or_eq_false_iff]
                  exact ⟨Bool.not_eq_true _ ▸ hcr, Bool.not_eq_true _ ▸ hlf⟩
  intro c hc
  rw [quoted, String.toList_ofList, List.cons_append, List.mem_cons, List.mem_append] at hc
  rcases hc with rfl | hmiddle | hlast
  · decide
  · obtain ⟨d, -, hd⟩ := List.mem_flatMap.1 hmiddle
    exact hchar d c hd
  · rw [List.mem_singleton.1 hlast]
    decide

end Text

/-! ## The texts of a message -/

/-- The texts of a start line. -/
def StartLine.texts : StartLine → List String
  | request method target version => [method, target, version.text]
  | status version _ reason => [version.text, reason]

/-- The texts of some fields: their names and values. -/
def Fields.texts (fields : Fields) : List String :=
  fields.toList.flatMap fun field => [field.name, field.value]

/-- The text of a verdict: the wording of the fault, if there is one. -/
def Verdict.texts : Verdict → List String
  | success => []
  | failure cause => [cause.message]

/-- The texts of a head. -/
def Head.texts (head : Head) : List String :=
  head.startLine.texts ++ (head.fields.texts ++ head.verdict.texts)

/-- The texts of the end of a body. -/
def Ending.texts (ending : Ending) : List String :=
  ending.trailers.texts ++ ending.verdict.texts

/-- The texts of what a fault spoiled. -/
def Spoiled.texts : Spoiled → List String
  | .head part => part.texts
  | .content part => part.texts

/-- The texts that come with an event. -/
def Event.texts : Event → List String
  | .head opening => opening.texts
  | .body _ => []
  | .last ending => ending.texts
  | .failure cause spoiled => cause.message :: spoiled.texts
  | .raw _ => []

/-- The wording of a fault that does not lie in the bytes of a message. -/
theorem Fault.oneLine_message {cause : Fault} (h : cause.inText = false) :
    OneLine cause.message := by
  have hlimit : ∀ {before after : String} (n : Nat), OneLine before → OneLine after →
      OneLine (before ++ decimal n ++ after) := by
    intro before after n hbefore hafter
    simp only [oneLine_append_iff, hbefore, hafter, oneLine_decimal, and_self]
  cases cause with
  | lineTooLong limit => exact hlimit limit (by decide) (by decide)
  | headerTooLong limit => exact hlimit limit (by decide) (by decide)
  | prematureClosure missing => cases missing <;> decide
  | unsupportedChunked => decide
  | _ => cases h

/-! ## Versions and start lines -/

theorem Version.oneLine_of_parse {raw : String} {version : Version} (h : parse raw = .ok version) :
    OneLine version.text := by
  obtain ⟨protocol, major, minor, rfl, hparts⟩ := parse_eq_ok h
  obtain ⟨-, -, -, -, -, -, hforbidden, -⟩ := parts?_eq_some_iff.1 hparts
  have hprotocol : OneLine protocol := by
    intro c hc
    have hc := hforbidden c hc
    simp only [isForbidden, Bool.or_eq_false_iff, decide_eq_false_iff_not] at hc
    exact isBreak_of_lt (by omega)
  have hof := parts_ofParts protocol major minor
  simp only [Prod.mk.injEq] at hof
  simp only [text, hof.1, oneLine_append_iff, hprotocol, oneLine_decimal, true_and, and_true]
  decide

theorem Version.oneLine_message {raw : String} {cause : Fault} (h : parse raw = .error cause)
    (hraw : OneLine raw) : OneLine cause.message := by
  simp only [parse] at h
  split at h
  · cases h
    decide
  · split at h
    · cases h
      exact oneLine_append_iff.2 ⟨by decide, hraw⟩
    · cases h

namespace StartLine

variable {direction : Direction} {line : Bytes}

theorem oneLine_parts {first second last : Bytes} (h : parts line = (first, second, last))
    (hends : ∀ b ∈ line, isLineEnd b = false) :
    OneLine (ofBytes first) ∧ OneLine (ofBytes second) ∧ OneLine (ofBytes last) := by
  obtain ⟨hfirst, hsecond, -, hlast⟩ := of_parts h
  simp only [oneLine_ofBytes_iff]
  exact ⟨fun b hb => isLineEnd_of_not_isBlank (hfirst b hb),
    fun b hb => isLineEnd_of_not_isBlank (hsecond b hb), fun b hb => hends b (hlast b hb)⟩

theorem oneLine_of_read {first : StartLine} (h : StartLine.read direction line = .ok (some first))
    (hends : ∀ b ∈ line, isLineEnd b = false) : ∀ text ∈ first.texts, OneLine text := by
  rcases hparts : parts line with ⟨front, middle, last⟩
  obtain ⟨hfront, hmiddle, hlast⟩ := oneLine_parts hparts hends
  cases direction with
  | request =>
      simp only [StartLine.read, readRequest, hparts] at h
      split at h
      · cases h
      · split at h
        · cases h
        · split at h
          · cases h
          · rename_i hversion
            cases h
            have hversion := Version.oneLine_of_parse hversion
            exact List.forall_mem_cons.2 ⟨hfront, List.forall_mem_cons.2
              ⟨hmiddle, List.forall_mem_singleton.2 hversion⟩⟩
  | response =>
      simp only [StartLine.read, readStatus, hparts] at h
      split at h
      · cases h
      · split at h
        · cases h
        · rename_i hversion
          split at h
          · cases h
          · cases h
            have hversion := Version.oneLine_of_parse hversion
            exact List.forall_mem_cons.2 ⟨hversion, List.forall_mem_singleton.2 hlast⟩

/-- The wording of what is refused of a line. -/
theorem oneLine_message {cause : Fault} (h : StartLine.read direction line = .error cause)
    (hends : ∀ b ∈ line, isLineEnd b = false) : OneLine cause.message := by
  rcases hparts : parts line with ⟨front, middle, last⟩
  obtain ⟨hfront, -, hlast⟩ := oneLine_parts hparts hends
  cases direction with
  | request =>
      simp only [StartLine.read, readRequest, hparts] at h
      split at h
      · cases h
      · split at h
        · cases h
          exact oneLine_append_iff.2 ⟨by decide, hfront⟩
        · split at h
          · rename_i hversion
            cases h
            exact Version.oneLine_message hversion hlast
          · cases h
  | response =>
      simp only [StartLine.read, readStatus, hparts] at h
      split at h
      · cases h
      · split at h
        · rename_i hversion
          cases h
          exact Version.oneLine_message hversion hfront
        · split at h
          · cases h
            exact oneLine_append_iff.2 ⟨by decide, oneLine_ofBytes_iff.2 hends⟩
          · cases h

theorem oneLine_text {first : StartLine} (h : ∀ text ∈ first.texts, OneLine text) :
    OneLine first.text := by
  have hspace : OneLine " " := by decide
  cases first with
  | request method target version =>
      simp only [texts, List.forall_mem_cons] at h
      simp only [text, oneLine_append_iff, h, hspace, and_self]
  | status version code reason =>
      simp only [texts, List.forall_mem_cons] at h
      simp only [text, oneLine_append_iff, h, hspace, oneLine_decimal, and_self]

end StartLine

/-! ## Fields -/

theorem Fields.oneLine_iff {fields : Fields} : (∀ text ∈ fields.texts, OneLine text) ↔
    ∀ field ∈ fields.toList, OneLine field.name ∧ OneLine field.value := by
  simp only [texts, List.forall_mem_flatMap, List.forall_mem_cons, List.not_mem_nil, false_imp_iff,
    implies_true, and_true]

namespace Field

variable {strict : Bool} {name value : Bytes} {field : Field}

theorem oneLine_of_check (h : check strict name value = .ok field)
    (hname : ∀ b ∈ name, isLineEnd b = false) (hvalue : ∀ b ∈ value, isLineEnd b = false) :
    OneLine field.name ∧ OneLine field.value := by
  unfold check at h
  split at h
  · cases h
  · split at h
    · cases h
    · cases h
      exact ⟨oneLine_ofBytes_iff.2 hname, oneLine_ofBytes_iff.2 hvalue⟩

/-- The wording of what is refused of a field: its name stands as it is, and the value in quotes. -/
theorem oneLine_message {cause : Fault} (h : check strict name value = .error cause)
    (hname : ∀ b ∈ name, isLineEnd b = false) : OneLine cause.message := by
  have hname := oneLine_ofBytes_iff.2 hname
  unfold check at h
  split at h
  · cases h
    exact oneLine_append_iff.2 ⟨by decide, hname⟩
  · split at h
    · cases h
      refine oneLine_append_iff.2 ⟨?_, oneLine_quoted _⟩
      exact oneLine_append_iff.2 ⟨oneLine_append_iff.2 ⟨by decide, hname⟩, by decide⟩
    · cases h

theorem isLineEnd_of_not_endsName {b : UInt8} (h : FieldSpans.endsName b = false) :
    isLineEnd b = false := by
  rw [FieldSpans.endsName, Bool.or_eq_false_iff] at h
  exact isLineEnd_of_not_isBlank h.2

theorem Settled.oneLine (h : field.Settled strict) : OneLine field.name ∧ OneLine field.value :=
  oneLine_of_check h.check (fun b hb => isLineEnd_of_not_endsName (h.name b hb)) h.ends

end Field

namespace FieldBlock

variable {limit : Nat} {strict : Bool} {buffer : Bytes} {block : FieldBlock}

theorem oneLine_of_read {charged : Nat} {fields : List Field} {outcome : Outcome}
    (h : read limit strict buffer { charged } = (fields, outcome)) :
    ∀ field ∈ fields, OneLine field.name ∧ OneLine field.value := by
  obtain rfl : (read limit strict buffer { charged }).1 = fields := congrArg Prod.fst h
  intro field hfield
  exact (settled_of_read (within_start charged buffer) nofun field hfield).oneLine

theorem oneLine_of_takeLine {pending : Option FieldSpans} {line : Line} {cause : Fault}
    (h : takeLine strict buffer pending line = .error cause)
    (hproper : ∀ spans ∈ pending, spans.Proper buffer) : OneLine cause.message := by
  cases pending with
  | none => cases h
  | some spans =>
      simp only [takeLine] at h
      split at h
      · cases h
      · split at h
        · rename_i hfield
          cases h
          refine Field.oneLine_message hfield fun b hb => ?_
          exact Field.isLineEnd_of_not_endsName ((hproper spans rfl).name b hb)
        · cases h

theorem oneLine_of_refused {cause : Fault} (hwithin : block.Within buffer)
    (hproper : ∀ spans ∈ block.pending, spans.Proper buffer)
    (h : (read limit strict buffer block).2 = .refused cause) : OneLine cause.message := by
  fun_induction read limit strict buffer block with
  | case1 block hline =>
      cases h
      exact Fault.oneLine_message rfl
  | case2 => cases h
  | case3 block line hline cause' htake =>
      cases h
      exact oneLine_of_takeLine htake hproper
  | case4 => cases h
  | case5 block line hline charged done spans htake further ih =>
      refine ih (hwithin.next hline htake charged) ?_ h
      obtain ⟨hspan, hpending⟩ := hwithin.found hline
      rintro spans' ⟨⟩
      apply takeLine_opened htake
      · intro old hold
        exact FieldSpans.extend_proper hspan (hpending old hold) (hproper old hold)
      · exact FieldSpans.ofLine_proper hspan

theorem oneLine_message {charged : Nat} {fields : List Field} {cause : Fault}
    (h : read limit strict buffer { charged } = (fields, .refused cause)) :
    OneLine cause.message :=
  oneLine_of_refused (within_start charged buffer) nofun (congrArg Prod.snd h)

end FieldBlock

/-! ## Bodies -/

theorem Fields.oneLine_of_get? {fields : Fields} {name value : String}
    (h : fields.get? name = some value) (hfields : ∀ text ∈ fields.texts, OneLine text) :
    OneLine value := by
  obtain ⟨field, hfield, rfl⟩ := List.mem_map.1 (List.mem_of_head? h)
  exact (oneLine_iff.1 hfields field (List.mem_filter.1 hfield).1).2

theorem BodyLength.oneLine_message {direction : Direction} {head : Head} {cause : Fault}
    (h : select direction head = .error cause)
    (hfields : ∀ text ∈ head.fields.texts, OneLine text) : OneLine cause.message := by
  obtain ⟨value, hvalue, rfl⟩ := eq_of_select h
  exact oneLine_append_iff.2 ⟨by decide, Fields.oneLine_of_get? hvalue hfields⟩

theorem Chunked.oneLine_message {line : Bytes} {cause : Fault} (h : readSize line = .error cause)
    (hends : ∀ b ∈ line, isLineEnd b = false) : OneLine cause.message := by
  simp only [readSize] at h
  split at h
  · cases h
    exact oneLine_append_iff.2 ⟨by decide, oneLine_ofBytes_iff.2 hends⟩
  · cases h

end HttpWire

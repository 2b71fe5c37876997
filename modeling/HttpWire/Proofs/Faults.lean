import HttpWire.BodyLength
import HttpWire.Chunked
import HttpWire.FieldBlock
import HttpWire.StartLine

/-!
# Why a message is refused

A message can be refused for its bytes, for how many there are, and because its connection closed.
Each function that reads a part of a message refuses it for its bytes alone: `Fault.inText` is what
they have in common. Of a block of fields it is the bytes of one field, which is `Fault.inField`.
-/

set_option autoImplicit false

namespace HttpWire

/-- Whether a fault lies in the bytes of a message. -/
def Fault.inText : Fault → Bool
  | lineTooLong _ => false
  | headerTooLong _ => false
  | prematureClosure _ => false
  | unsupportedChunked => false
  | malformedChunkSize _ => true
  | emptyVersion => true
  | invalidVersion _ => true
  | invalidMethod _ => true
  | invalidStatusLine _ => true
  | invalidContentLength _ => true
  | invalidHeaderName _ => true
  | invalidHeaderValue _ _ => true

/-- Whether a fault lies in the bytes of a field. -/
def Fault.inField : Fault → Bool
  | invalidHeaderName _ => true
  | invalidHeaderValue _ _ => true
  | _ => false

theorem Fault.inText_of_inField {cause : Fault} (h : cause.inField = true) :
    cause.inText = true := by
  cases cause <;> first | rfl | cases h

theorem Version.inText_of_parse {raw : String} {cause : Fault}
    (h : parse raw = .error cause) : cause.inText = true := by
  simp only [parse] at h
  split at h
  · cases h
    rfl
  · split at h
    · cases h
      rfl
    · cases h

theorem StartLine.inText_of_read {direction : Direction} {line : Bytes} {cause : Fault}
    (h : StartLine.read direction line = .error cause) : cause.inText = true := by
  cases direction with
  | request =>
      simp only [StartLine.read, readRequest] at h
      split at h
      · cases h
      · split at h
        · cases h
          rfl
        · split at h
          · cases h
            exact Version.inText_of_parse ‹_›
          · cases h
  | response =>
      simp only [StartLine.read, readStatus] at h
      split at h
      · cases h
      · split at h
        · cases h
          exact Version.inText_of_parse ‹_›
        · split at h
          · cases h
            rfl
          · cases h

theorem Field.inField_of_check {strict : Bool} {name value : Bytes} {cause : Fault}
    (h : Field.check strict name value = .error cause) : cause.inField = true := by
  unfold Field.check at h
  split at h
  · cases h
    rfl
  · split at h
    · cases h
      rfl
    · cases h

theorem FieldBlock.inField_of_takeLine {strict : Bool} {buffer : Bytes}
    {pending : Option FieldSpans} {line : Line} {cause : Fault}
    (h : takeLine strict buffer pending line = .error cause) : cause.inField = true := by
  cases pending with
  | none => cases h
  | some spans =>
      simp only [takeLine] at h
      split at h
      · cases h
      · split at h
        · cases h
          exact Field.inField_of_check ‹_›
        · cases h

/-- A block of fields is refused for its weight, or for the bytes of one of them. -/
theorem FieldBlock.fault_of_read {limit : Nat} {strict : Bool} {buffer : Bytes}
    {block : FieldBlock} {cause : Fault} (h : (block.read limit strict buffer).2 = .refused cause) :
    cause = .headerTooLong limit ∨ cause.inField = true := by
  fun_induction read limit strict buffer block with
  | case1 block hline =>
      cases h
      exact .inl rfl
  | case2 block hline => cases h
  | case3 block line hline cause' htake =>
      cases h
      exact .inr (inField_of_takeLine htake)
  | case4 block line hline charged done htake => cases h
  | case5 block line hline charged done spans htake further ih => exact ih h

/-- No length is selected only where the first declared length is none. -/
theorem BodyLength.eq_of_select {direction : Direction} {head : Head} {cause : Fault}
    (h : select direction head = .error cause) :
    ∃ value, head.fields.get? "content-length" = some value ∧ cause = .invalidContentLength value := by
  unfold select at h
  split at h
  · cases h
  · split at h
    · cases h
    · split at h
      · rename_i fault hannounced
        cases h
        unfold announced at hannounced
        split at hannounced
        · rename_i value hvalue
          unfold declared at hannounced
          split at hannounced
          · cases hannounced
            exact ⟨value, hvalue, rfl⟩
          · cases hannounced
        · cases hannounced
      · cases h
      · cases direction <;> cases h

theorem BodyLength.inText_of_select {direction : Direction} {head : Head} {cause : Fault}
    (h : select direction head = .error cause) : cause.inText = true := by
  obtain ⟨value, -, rfl⟩ := eq_of_select h
  rfl

theorem Chunked.inText_of_readSize {line : Bytes} {cause : Fault}
    (h : readSize line = .error cause) : cause.inText = true := by
  simp only [readSize] at h
  split at h
  · cases h
    rfl
  · cases h

end HttpWire

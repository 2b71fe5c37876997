import HttpWire.FileFault

/-!
# Limits of a reader

A reader is set up with three ceilings and two switches. A ceiling of zero would let nothing
through, so `Limits.check` refuses it; `Limits.zeroCeiling?_eq_none_iff` says that it refuses
nothing else.
-/

set_option autoImplicit false

namespace HttpWire

/-- What a reader accepts, and in what pieces it hands on a body. -/
structure Limits where
  /-- The most bytes in a start line or a chunk-size line. -/
  line : Nat := 4096
  /-- The most bytes in the header and trailer lines of one message. -/
  header : Nat := 8192
  /-- The most body bytes in one event. -/
  piece : Nat := 8192
  /-- Whether chunked bodies are accepted. -/
  chunked : Bool := true
  /-- Whether field names and values are checked. -/
  strict : Bool := true
  deriving Repr, DecidableEq

namespace Limits

/-- One of the three ceilings. -/
inductive Ceiling where
  | line
  | header
  | piece
  deriving Repr, DecidableEq

/-- The name under which a ceiling is set. -/
def Ceiling.name : Ceiling → String
  | line => "max_initial_line_length"
  | header => "max_header_size"
  | piece => "max_chunk_size"

/-- Limits with which a reader can work: every ceiling is positive. -/
structure Valid (limits : Limits) : Prop where
  line : 0 < limits.line
  header : 0 < limits.header
  piece : 0 < limits.piece

/-- The first ceiling that is zero. -/
def zeroCeiling? (limits : Limits) : Option Ceiling :=
  if limits.line = 0 then some .line
  else if limits.header = 0 then some .header
  else if limits.piece = 0 then some .piece
  else none

/-- Limits without a zero ceiling are valid, and no others. -/
theorem zeroCeiling?_eq_none_iff {limits : Limits} :
    limits.zeroCeiling? = none ↔ limits.Valid := by
  unfold zeroCeiling?
  constructor
  · intro h
    split at h
    · simp at h
    · split at h
      · simp at h
      · split at h
        · simp at h
        · exact ⟨by omega, by omega, by omega⟩
  · rintro ⟨hl, hh, hp⟩
    simp [Nat.ne_of_gt hl, Nat.ne_of_gt hh, Nat.ne_of_gt hp]

instance (limits : Limits) : Decidable limits.Valid :=
  decidable_of_iff _ zeroCeiling?_eq_none_iff

/-- Why limits could not be taken into use. -/
inductive Refusal where
  /-- A ceiling is zero. -/
  | invalid (ceiling : Ceiling)
  /-- The file of the settings could not be read. -/
  | unreadable (fault : FileFault)
  /-- The settings are not a document that sets limits. -/
  | malformed
  deriving Repr, DecidableEq

/-- The wording of a refusal. -/
def Refusal.message : Refusal → String
  | invalid ceiling => "invalid decoder configuration: " ++ ceiling.name ++ " must be positive"
  | unreadable fault => "decoder configuration IO error: " ++ fault.message
  | malformed => "decoder configuration parse error"

/-- Refuses limits with a zero ceiling. -/
def check (limits : Limits) : Except Refusal { limits : Limits // limits.Valid } :=
  match h : limits.zeroCeiling? with
  | some ceiling => .error (.invalid ceiling)
  | none => .ok ⟨limits, zeroCeiling?_eq_none_iff.1 h⟩

/-- Limits that are accepted stay as they are. -/
theorem eq_of_check_eq_ok {limits : Limits} {checked : { limits : Limits // limits.Valid }}
    (h : limits.check = .ok checked) : checked.1 = limits := by
  unfold check at h
  split at h
  · cases h
  · cases h
    rfl

end Limits

end HttpWire

import HttpWire.Proofs.Folds.Layout

/-!
# How far a block of fields is read

A block may be closed, or cut short, or refused at some byte. Whichever it is, its lines go up to a place
where no further line can be taken, they fall into fields, and the fields that reading it gives are those
in front of that place. The last field before it stays open, unless the place is an empty line.

- `FieldBlock.Stop`: the places where the lines of a block come to an end; `FieldBlock.exists_stop`.
- `FieldBlock.Arrived`: the fields of a block, and what stands behind them.
- `FieldBlock.Ends`: which of these fields are given, for each outcome; `FieldBlock.read_ends` says so of
  every block, and `FieldBlock.Ends.isPrefix` that they are its first ones.
-/

set_option autoImplicit false

namespace HttpWire

open Text

namespace FieldBlock

variable {limit base : Nat} {strict : Bool} {bytes tail : Bytes} {written : List WrittenField}
  {fields : List Field} {outcome : Outcome}

/-! ## Where the lines of a block come to an end -/

/-- A place at which no line with text follows: an empty line, a line that goes over the limit on top of
what was spent before it, or a line the end of which has not come. -/
inductive Stop (limit spent : Nat) : Bytes → Prop
  | closing {mark rest : Bytes} (hmark : Line.EndMark mark rest) : Stop limit spent (mark ++ rest)
  | tooLong {text rest : Bytes} (htext : ∀ b ∈ text, isLineEnd b = false)
      (hover : limit < spent + text.length) : Stop limit spent (text ++ rest)
  | waiting {text tail : Bytes} (htext : ∀ b ∈ text, isLineEnd b = false)
      (htail : tail = [] ∨ tail = [cr]) (hwithin : spent + text.length ≤ limit) :
      Stop limit spent (text ++ tail)

/-- Some bytes are lines with text that keep to the limit, up to such a place. -/
theorem exists_stop {spent : Nat} (hspent : spent ≤ limit) (bytes : Bytes) :
    ∃ lines tail, bytes = lines.flatMap TextLine.bytes ++ tail ∧ TextLine.Stand lines tail ∧
      spent + weight (lines.flatMap TextLine.bytes) ≤ limit ∧
      Stop limit (spent + weight (lines.flatMap TextLine.bytes)) tail := by
  -- by induction on the number of bytes: each line leaves fewer of them
  induction hlength : bytes.length using Nat.strong_induction_on generalizing bytes spent with
  | _ length ih =>
      cases Line.front bytes with
      | @unended text tail htext htail =>
          refine ⟨[], text ++ tail, rfl, .nil, hspent, ?_⟩
          by_cases hover : limit < spent + text.length
          · exact .tooLong htext hover
          · exact .waiting htext htail (Nat.not_lt.1 hover)
      | @ended text mark rest htext hmark =>
          by_cases hover : limit < spent + text.length
          · exact ⟨[], _, rfl, .nil, hspent, .tooLong htext hover⟩
          · cases text with
            | nil => exact ⟨[], mark ++ rest, rfl, .nil, hspent, .closing hmark⟩
            | cons b text =>
                have hless : rest.length < length := by
                  rw [← hlength, List.length_append, List.length_append, List.length_cons]
                  omega
                obtain ⟨lines, tail, rfl, hstand, hwithin, hstop⟩ :=
                  ih rest.length hless (Nat.not_lt.1 hover) rest rfl
                have hclosed : TextLine.Closed ⟨b :: text, mark⟩ :=
                  ⟨htext, hmark.isLineEnd, hmark.ne_nil⟩
                have hweight : spent + weight ((⟨b :: text, mark⟩ :: lines).flatMap TextLine.bytes) =
                    spent + (b :: text).length + weight (lines.flatMap TextLine.bytes) := by
                  rw [List.flatMap_cons, weight_append, hclosed.weight_bytes, Nat.add_assoc]
                refine ⟨⟨b :: text, mark⟩ :: lines, tail, ?_, ?_, ?_, ?_⟩
                · rw [List.flatMap_cons, TextLine.bytes, List.append_assoc, List.append_assoc]
                · exact .cons htext (List.cons_ne_nil b text) hmark hstand
                · rw [hweight]
                  exact hwithin
                · rw [hweight]
                  exact hstop

/-! ## Fields up to such a place -/

/-- Fields at the beginning of a block that keep to the limit, and what stands behind them. -/
structure Arrived (limit base : Nat) (written : List WrittenField) (tail : Bytes) : Prop where
  apart : Apart written
  stand : TextLine.Stand (written.flatMap WrittenField.lines) tail
  within : base + weight (written.flatMap WrittenField.bytes) ≤ limit
  stop : Stop limit (base + weight (written.flatMap WrittenField.bytes)) tail

/-- Every block has fields up to the place where its lines come to an end. -/
theorem exists_arrived (hbase : base ≤ limit) (bytes : Bytes) :
    ∃ written tail, bytes = written.flatMap WrittenField.bytes ++ tail ∧
      Arrived limit base written tail := by
  obtain ⟨lines, tail, rfl, hstand, hwithin, hstop⟩ := exists_stop hbase bytes
  obtain ⟨written, rfl, hapart⟩ := exists_apart lines
  rw [← WrittenField.flatMap_bytes] at hwithin hstop ⊢
  exact ⟨written, tail, rfl, hapart, hstand, hwithin, hstop⟩

/-- Reading such fields hands on all but the last one. -/
theorem Arrived.read_upTo (h : Arrived limit base written tail) (strict : Bool) :
    ∃ pending, read limit strict (written.flatMap WrittenField.bytes ++ tail) { charged := base } =
      handOn strict written.dropLast
        (read limit strict (written.flatMap WrittenField.bytes ++ tail)
          ⟨base + weight (written.flatMap WrittenField.bytes),
            (written.flatMap WrittenField.bytes).length, pending⟩) := by
  rcases List.eq_nil_or_concat written with rfl | ⟨init, last, hlast⟩
  · exact ⟨none, rfl⟩
  · obtain rfl : written = init ++ [last] := hlast.trans List.concat_eq_append
    obtain ⟨spans, -, hread⟩ := read_fields strict h.apart rfl h.stand h.within
    rw [List.dropLast_concat]
    exact ⟨some spans, hread⟩

/-! ## Which fields are given -/

/-- Either all fields pass the checks, or there is a first one that does not. -/
theorem first_fault (strict : Bool) (written : List WrittenField) :
    (∃ fields : List Field, written.map (WrittenField.field strict) = fields.map .ok) ∨
      ∃ (kept : List WrittenField) (bad : WrittenField) (later : List WrittenField)
        (fields : List Field) (cause : Fault), written = kept ++ bad :: later ∧
        kept.map (WrittenField.field strict) = fields.map .ok ∧ bad.field strict = .error cause := by
  induction written with
  | nil => exact .inl ⟨[], rfl⟩
  | cons first written ih =>
      cases hfirst : first.field strict with
      | error cause => exact .inr ⟨[], first, written, [], cause, rfl, rfl, hfirst⟩
      | ok field =>
          rcases ih with ⟨fields, hfields⟩ | ⟨kept, bad, later, fields, cause, rfl, hkept, hbad⟩
          · refine .inl ⟨field :: fields, ?_⟩
            rw [List.map_cons, List.map_cons, hfirst, hfields]
          · refine .inr ⟨first :: kept, bad, later, field :: fields, cause, rfl, ?_, hbad⟩
            rw [List.map_cons, List.map_cons, hfirst, hkept]

/-- The first field that does not pass the checks ends the block, and those before it are handed on. -/
theorem handOn_fault {kept later : List WrittenField} {bad : WrittenField} {cause : Fault}
    (hkept : kept.map (WrittenField.field strict) = fields.map .ok)
    (hbad : bad.field strict = .error cause) (further : List Field × Outcome) :
    handOn strict (kept ++ bad :: later) further = (fields, .refused cause) := by
  rw [handOn_append, handOn_ok hkept, handOn, hbad, List.append_nil]

/-- What reading a block gives of its fields, of which `tail` is what follows. A field is complete when
another one or an empty line follows it. -/
inductive Ends (limit base : Nat) (strict : Bool) :
    List WrittenField → Bytes → List Field → Outcome → Prop
  /-- A closed block gives all its fields. -/
  | closed {written : List WrittenField} {mark rest : Bytes} {fields : List Field}
      {next charged : Nat} (hmark : Line.EndMark mark rest)
      (hfields : written.map (WrittenField.field strict) = fields.map .ok) :
      Ends limit base strict written (mark ++ rest) fields (.complete next charged)
  /-- A complete field that does not pass the checks is refused, and those before it are given. -/
  | fault {kept later : List WrittenField} {bad : WrittenField} {tail : Bytes}
      {fields : List Field} {cause : Fault}
      (hfields : kept.map (WrittenField.field strict) = fields.map .ok)
      (hbad : bad.field strict = .error cause)
      (hcomplete : later ≠ [] ∨ ∃ mark rest, tail = mark ++ rest ∧ Line.EndMark mark rest) :
      Ends limit base strict (kept ++ bad :: later) tail fields (.refused cause)
  /-- A line that goes over the limit is refused, and all complete fields are given. -/
  | tooLong {written : List WrittenField} {text rest : Bytes} {fields : List Field}
      (htext : ∀ b ∈ text, isLineEnd b = false)
      (hover : limit < base + weight (written.flatMap WrittenField.bytes) + text.length)
      (hfields : written.dropLast.map (WrittenField.field strict) = fields.map .ok) :
      Ends limit base strict written (text ++ rest) fields (.refused (.headerTooLong limit))
  /-- Of a block that is open all complete fields are given. -/
  | waiting {written : List WrittenField} {text tail : Bytes} {fields : List Field}
      {block : FieldBlock} (htext : ∀ b ∈ text, isLineEnd b = false)
      (htail : tail = [] ∨ tail = [cr])
      (hwithin : base + weight (written.flatMap WrittenField.bytes) + text.length ≤ limit)
      (hfields : written.dropLast.map (WrittenField.field strict) = fields.map .ok) :
      Ends limit base strict written (text ++ tail) fields (.incomplete block)

/-- If all fields but the last one are handed on, what comes behind them decides the outcome, unless one
of them does not pass the checks. -/
theorem ends_of_handOn {found : List Field × Outcome}
    (hfound : found = handOn strict written.dropLast ([], outcome))
    (hends : ∀ {fields : List Field},
      written.dropLast.map (WrittenField.field strict) = fields.map .ok →
        Ends limit base strict written tail fields outcome) :
    Ends limit base strict written tail found.1 found.2 := by
  rcases first_fault strict written.dropLast with ⟨fields, hfields⟩ |
    ⟨kept, bad, later, fields, cause, hsplit, hkept, hbad⟩
  · rw [hfound, handOn_ok hfields, List.append_nil]
    exact hends hfields
  · -- the last field is behind the one at fault
    rcases List.eq_nil_or_concat written with rfl | ⟨init, last, hlast⟩
    · exact absurd hsplit.symm (by simp)
    · obtain rfl : written = init ++ [last] := hlast.trans List.concat_eq_append
      rw [List.dropLast_concat] at hsplit hfound
      rw [hfound, hsplit, handOn_fault hkept hbad, List.append_assoc, List.cons_append]
      exact .fault hkept hbad (.inl (List.append_ne_nil_of_right_ne_nil later (by simp)))

theorem Arrived.ends (h : Arrived limit base written tail) (strict : Bool) :
    let found :=
      read limit strict (written.flatMap WrittenField.bytes ++ tail) { charged := base }
    Ends limit base strict written tail found.1 found.2 := by
  obtain ⟨pending, hread⟩ := h.read_upTo strict
  obtain ⟨hapart, hstand, hwithin, hstop⟩ := h
  have hdrop : (written.flatMap WrittenField.bytes ++ tail).drop
      (written.flatMap WrittenField.bytes).length = tail := List.drop_left
  cases hstop with
  | @closing mark rest hmark =>
      have hwritten : Written written mark rest := ⟨hapart, hstand, hmark⟩
      have hle : base + weight (written.flatMap WrittenField.bytes ++ mark) ≤ limit := by
        rw [weight_append, hmark.weight_eq, Nat.add_zero]
        exact hwithin
      rw [hwritten.read_eq hle strict]
      rcases first_fault strict written with ⟨fields, hfields⟩ |
        ⟨kept, bad, later, fields, cause, rfl, hkept, hbad⟩
      · rw [handOn_ok hfields, List.append_nil]
        exact .closed hmark hfields
      · rw [handOn_fault hkept hbad]
        exact .fault hkept hbad (.inr ⟨mark, rest, rfl, hmark⟩)
  | tooLong htext hover =>
      have hscan := Line.scan_of_lt htext hover hdrop
      rw [@read_tooLong _ _ _ ⟨_, _, pending⟩ hscan] at hread
      exact ends_of_handOn hread (.tooLong htext hover)
  | waiting htext htail hle =>
      have hscan := (Line.scan_unended htext htail hdrop).trans (if_neg (Nat.not_lt.2 hle))
      rw [@read_incomplete _ _ _ ⟨_, _, pending⟩ hscan] at hread
      exact ends_of_handOn hread (.waiting htext htail hle)

theorem read_ends (hbase : base ≤ limit)
    (hread : read limit strict bytes { charged := base } = (fields, outcome)) :
    ∃ written tail, bytes = written.flatMap WrittenField.bytes ++ tail ∧
      Arrived limit base written tail ∧ Ends limit base strict written tail fields outcome := by
  obtain ⟨written, tail, rfl, harrived⟩ := exists_arrived hbase bytes
  have hends := harrived.ends strict
  rw [hread] at hends
  exact ⟨written, tail, rfl, harrived, hends⟩

/-- The fields that are given are the first ones of the block, in order and as they are written. -/
theorem Ends.isPrefix (h : Ends limit base strict written tail fields outcome) :
    fields.map .ok <+: written.map (WrittenField.field strict) := by
  cases h with
  | closed hmark hfields => exact ⟨[], by rw [List.append_nil, hfields]⟩
  | fault hfields hbad hcomplete =>
      rw [List.map_append, hfields]
      exact List.prefix_append _ _
  | tooLong htext hover hfields =>
      rw [← hfields]
      exact (List.dropLast_prefix written).map _
  | waiting htext htail hwithin hfields =>
      rw [← hfields]
      exact (List.dropLast_prefix written).map _

end FieldBlock

end HttpWire

import HttpWire.Proofs.Growth
import HttpWire.Proofs.RoundTrip.Lines

/-!
# Reading written fields

A block of lines from each of which a field is read gives these fields, whatever follows it. Lines
of well-formed fields are such lines.

- `Field.SpelledBy`: a line from which a field is read; `Field.Settled.spelledBy` says which lines
  these are for a field of which nothing can be lost.
- `FieldBlock.read_lines`: a block of such lines.
- `FieldBlock.read_writeBlock`: a written block is read back.
-/

set_option autoImplicit false

namespace HttpWire

open Text

/-! ## One field -/

theorem unfold_eq_self {value : Bytes} (h : ∀ b ∈ value, isLineEnd b = false) :
    HttpWire.unfold value = value := by
  have hdrop : (value.dropWhile fun b => !isLineEnd b) = [] := by
    rw [← List.append_nil value, List.dropWhile_append_of_pos fun b hb => by simp [h b hb],
      List.dropWhile_nil]
  rw [HttpWire.unfold]
  split
  · rfl
  · rename_i hcons
    rw [hdrop] at hcons
    cases hcons

namespace Text

theorem endsName_of_isTokenByte {b : UInt8} (h : isTokenByte b = true) :
    FieldSpans.endsName b = false := by
  have hall := forall_byte (p := fun b => !isTokenByte b || !FieldSpans.endsName b)
    (by decide +kernel) b
  simpa [h] using hall

theorem isFold_of_not_isBlank {b : UInt8} (h : isBlank b = false) : isFold b = false := by
  have hall := forall_byte (p := fun b => isBlank b || !isFold b) (by decide +kernel) b
  simpa [h] using hall

theorem isBlank_of_isFold {b : UInt8} (h : isFold b = true) :
    isBlank b = true ∧ isLineEnd b = false := by
  have hall := forall_byte (p := fun b => !isFold b || (isBlank b && !isLineEnd b))
    (by decide +kernel) b
  simpa [h] using hall

/-- What stands in front of a list is trimmed away if it is of the class. -/
theorem trim_append_of_pos {α : Type} {p : α → Bool} {gap : List α} (h : ∀ x ∈ gap, p x = true)
    (xs : List α) : trim p (gap ++ xs) = trim p xs := by
  rw [trim, List.dropWhile_append_of_pos h, trim]

end Text

namespace FieldSpans

variable {name : Bytes}

theorem exists_cons_named (hname : ∀ b ∈ name, endsName b = false) (tail : Bytes) :
    ∃ b rest, name ++ colon :: tail = b :: rest ∧ isBlank b = false := by
  cases name with
  | nil => exact ⟨colon, tail, rfl, rfl⟩
  | cons b name =>
      have hb := hname b List.mem_cons_self
      rw [endsName, Bool.or_eq_false_iff] at hb
      exact ⟨b, name ++ colon :: tail, rfl, hb.2⟩

theorem dropWhile_named (hname : ∀ b ∈ name, endsName b = false) (tail : Bytes) :
    (name ++ colon :: tail).dropWhile isBlank = name ++ colon :: tail := by
  obtain ⟨b, rest, hline, hb⟩ := exists_cons_named hname tail
  rw [hline]
  exact List.dropWhile_cons_of_neg (by simp [hb])

theorem nameText_named (hname : ∀ b ∈ name, endsName b = false) (tail : Bytes) :
    nameText (name ++ colon :: tail) = name := by
  have hnot : ∀ b ∈ name, (!endsName b) = true := fun b hb => by simp [hname b hb]
  rw [nameText, dropWhile_named hname, List.takeWhile_append_of_pos hnot,
    List.takeWhile_cons_of_neg (by decide), List.append_nil]

theorem afterColon_named (hname : ∀ b ∈ name, endsName b = false) (tail : Bytes) :
    afterColon (name ++ colon :: tail) = tail := by
  have hnot : ∀ b ∈ name, (!endsName b) = true := fun b hb => by simp [hname b hb]
  rw [afterColon, dropWhile_named hname, List.dropWhile_append_of_pos hnot,
    List.dropWhile_cons_of_neg (by decide), List.dropWhile_cons_of_neg (by decide)]
  rfl

end FieldSpans

namespace Field

/-- A line from which a field is read, and which continues no other. -/
structure SpelledBy (field : Field) (strict : Bool) (text : Bytes) : Prop where
  ends : ∀ b ∈ text, isLineEnd b = false
  opens : ∃ b rest, text = b :: rest ∧ isFold b = false
  reads : ∀ {buffer : Bytes} {line : Line}, line.Within buffer → line.bytes buffer = text →
    (FieldSpans.ofLine buffer line).field strict buffer = .ok field

/-- A field of which nothing is lost on a line: its name ends where the colon stands, its value has
neither blanks around it nor line ends inside, and both pass the checks. -/
structure Settled (field : Field) (strict : Bool) : Prop where
  name : ∀ b ∈ toBytes field.name, FieldSpans.endsName b = false
  ends : ∀ b ∈ toBytes field.value, isLineEnd b = false
  trimmed : trim isBlank (toBytes field.value) = toBytes field.value
  check : Field.check strict (toBytes field.name) (toBytes field.value) = .ok field

/-- A field is read from its name, a colon, and its value after any spaces and tabs. -/
theorem Settled.spelledBy {field : Field} {strict : Bool} (h : field.Settled strict) {gap : Bytes}
    (hgap : ∀ b ∈ gap, isFold b = true) :
    field.SpelledBy strict (toBytes field.name ++ colon :: (gap ++ toBytes field.value)) := by
  refine ⟨?_, ?_, ?_⟩
  · intro b hb
    rw [List.mem_append, List.mem_cons, List.mem_append] at hb
    rcases hb with hname | rfl | hgap' | hvalue
    · have hends := h.name b hname
      rw [FieldSpans.endsName, Bool.or_eq_false_iff] at hends
      exact isLineEnd_of_not_isBlank hends.2
    · rfl
    · exact (isBlank_of_isFold (hgap b hgap')).2
    · exact h.ends b hvalue
  · obtain ⟨b, rest, hline, hb⟩ := FieldSpans.exists_cons_named h.name (gap ++ toBytes field.value)
    exact ⟨b, rest, hline, isFold_of_not_isBlank hb⟩
  · intro buffer line hwithin hline
    have hblank : ∀ b ∈ gap, isBlank b = true := fun b hb => (isBlank_of_isFold (hgap b hb)).1
    rw [FieldSpans.field, FieldSpans.name_ofLine, FieldSpans.value_ofLine hwithin, hline,
      FieldSpans.nameText_named h.name, FieldSpans.afterColon_named h.name,
      trim_append_of_pos hblank, h.trimmed, unfold_eq_self h.ends, h.check]

theorem WellFormed.check_eq {field : Field} (h : field.WellFormed) (strict : Bool) :
    Field.check strict (toBytes field.name) (toBytes field.value) = .ok field := by
  have hname : ((toBytes field.name).isEmpty || !(toBytes field.name).all isTokenByte) = false := by
    rw [List.all_eq_true.2 h.token]
    simpa using toBytes_ne_nil h.name_ne
  have hvalue : (toBytes field.value).any isForbiddenInValue = false := by
    rw [List.any_eq_false]
    intro b hb
    simp [h.controls b hb]
  simp only [Field.check, hname, hvalue, Bool.and_false, Bool.false_eq_true, if_false,
    ofBytes_toBytes h.latin_name, ofBytes_toBytes h.latin_value]

theorem WellFormed.settled {field : Field} (h : field.WellFormed) (strict : Bool) :
    field.Settled strict where
  name := fun b hb => endsName_of_isTokenByte (h.token b hb)
  ends := fun b hb => isLineEnd_of_not_isForbiddenInValue (h.controls b hb)
  trimmed := h.trimmed
  check := h.check_eq strict

theorem WellFormed.spelledBy {field : Field} (h : field.WellFormed) (strict : Bool) :
    field.SpelledBy strict field.line :=
  (h.settled strict).spelledBy (List.forall_mem_singleton.2 rfl)

end Field

/-! ## Blocks -/

theorem Fields.charge_eq_length (fields : List Field) :
    charge fields = (fields.flatMap Field.line).length := by
  induction fields with
  | nil => rfl
  | cons field fields ih => rw [charge, ih, List.flatMap_cons, List.length_append]

namespace FieldBlock

open Fields

variable {buffer rest : Bytes}

theorem isEmpty_of_length {line : Line} {text : Bytes} (h : line.length = text.length) :
    line.isEmpty = text.isEmpty := by
  simp only [Span.length] at h
  cases text with
  | nil =>
      rw [List.length_nil] at h
      simp only [Span.isEmpty, List.isEmpty_nil, decide_eq_true_eq]
      omega
  | cons b text =>
      rw [List.length_cons] at h
      simp only [Span.isEmpty, List.isEmpty_cons, decide_eq_false_iff_not]
      omega

theorem continues_eq_false {line : Line} {text : Bytes} (hbytes : line.bytes buffer = text)
    (htext : ∀ b ∈ text.head?, isFold b = false) : continues buffer line = false := by
  rw [continues, hbytes]
  cases text with
  | nil => rfl
  | cons b text => exact htext b rfl

/-- The field that is still open, as a line that does not continue it completes it. -/
def pendingField (strict : Bool) (buffer : Bytes) :
    Option FieldSpans → Except Fault (Option Field)
  | none => .ok none
  | some spans => (spans.field strict buffer).map some

theorem takeLine_of_not_continues {strict : Bool} {line : Line} {pending : Option FieldSpans}
    {done : Option Field} (hcontinues : continues buffer line = false)
    (hpending : pendingField strict buffer pending = .ok done) :
    takeLine strict buffer pending line =
      .ok (done, if line.isEmpty then none else some (.ofLine buffer line)) := by
  cases pending with
  | none =>
      cases hpending
      rfl
  | some spans =>
      rw [pendingField] at hpending
      cases hfield : spans.field strict buffer with
      | error cause =>
          rw [hfield] at hpending
          cases hpending
      | ok field =>
          rw [hfield] at hpending
          cases hpending
          simp only [takeLine, hcontinues, Bool.false_eq_true, if_false, hfield]

/-- The next line of a block, when it is a written one that continues nothing: it completes the
field that is open, and closes the block if it is empty. -/
theorem read_endLine (limit : Nat) {strict : Bool} {block : FieldBlock} {text : Bytes}
    {done : Option Field} (hbuffer : buffer.drop block.position = endLine text ++ rest)
    (htext : ∀ b ∈ text, isLineEnd b = false) (hname : ∀ b ∈ text.head?, isFold b = false)
    (hpending : pendingField strict buffer block.pending = .ok done)
    (hle : block.charged + text.length ≤ limit) :
    ∃ line, line.Within buffer ∧ line.bytes buffer = text ∧ buffer.drop line.next = rest ∧
      read limit strict buffer block =
        if text.isEmpty then (done.toList, .complete line.next (block.charged + text.length))
        else
          let further := read limit strict buffer
            ⟨block.charged + text.length, line.next, some (.ofLine buffer line)⟩
          (done.toList ++ further.1, further.2) := by
  obtain ⟨line, hscan, hbytes, hlength, hrest⟩ := Line.scan_endLine hbuffer htext hle
  obtain ⟨-, hstop, hnext, hle', -⟩ := Line.scan_found hscan
  refine ⟨line, ⟨hstop, by omega⟩, hbytes, hrest, ?_⟩
  have htake := takeLine_of_not_continues (continues_eq_false hbytes hname) hpending
  rw [isEmpty_of_length hlength] at htake
  rw [read_found hscan, htake, hlength]
  cases text with
  | nil => rfl
  | cons b text => rfl

/-- Lines from which fields are read give these fields, after a field that may still be open. -/
theorem read_lines (limit : Nat) {strict : Bool} {write : Field → Bytes} {fields : List Field}
    (hfields : ∀ field ∈ fields, field.SpelledBy strict (write field)) {charged position : Nat}
    {pending : Option FieldSpans} {done : Option Field}
    (hpending : pendingField strict buffer pending = .ok done)
    (hbuffer : buffer.drop position =
      (fields.flatMap fun field => endLine (write field)) ++ (endLine [] ++ rest))
    (hle : charged + (fields.flatMap write).length ≤ limit) :
    ∃ next, read limit strict buffer ⟨charged, position, pending⟩ =
        (done.toList ++ fields, .complete next (charged + (fields.flatMap write).length)) ∧
      buffer.drop next = rest := by
  -- each line completes the field before it, so the induction carries the field that is open
  induction fields generalizing charged position pending done with
  | nil =>
      obtain ⟨line, -, -, hrest, hread⟩ := @read_endLine buffer rest limit strict
        ⟨charged, position, pending⟩ [] done hbuffer nofun nofun hpending hle
      refine ⟨line.next, ?_, hrest⟩
      rw [hread, List.append_nil]
      rfl
  | cons new fields ih =>
      obtain ⟨hnew, hothers⟩ := List.forall_mem_cons.1 hfields
      obtain ⟨b, text, hline, hb⟩ := hnew.opens
      have hname : ∀ b ∈ (write new).head?, isFold b = false := by
        rw [hline]
        simpa using hb
      have hempty : (write new).isEmpty = false := by
        rw [hline]
        rfl
      rw [List.flatMap_cons, List.append_assoc] at hbuffer
      rw [List.flatMap_cons, List.length_append, ← Nat.add_assoc] at hle
      obtain ⟨line, hwithin, hbytes, hrest, hread⟩ := @read_endLine buffer _ limit strict
        ⟨charged, position, pending⟩ (write new) done hbuffer hnew.ends hname hpending
        (Nat.le_trans (Nat.le_add_right _ _) hle)
      have hopen : pendingField strict buffer (some (.ofLine buffer line)) = .ok (some new) := by
        rw [pendingField, hnew.reads hwithin hbytes]
        rfl
      obtain ⟨next, hfurther, hnext⟩ := ih hothers hopen hrest hle
      refine ⟨next, ?_, hnext⟩
      rw [hread, hempty, List.flatMap_cons, List.length_append, ← Nat.add_assoc]
      simp only [Bool.false_eq_true, if_false, hfurther]
      rfl

/-- A written block is read back, and what follows it is left. -/
theorem read_writeBlock {limit : Nat} (strict : Bool) {fields : List Field}
    (hfields : ∀ field ∈ fields, field.WellFormed) {charged : Nat}
    (hle : charged + charge fields ≤ limit) (rest : Bytes) :
    ∃ next, read limit strict (writeBlock fields ++ rest) { charged } =
        (fields, .complete next (charged + charge fields)) ∧
      (writeBlock fields ++ rest).drop next = rest := by
  rw [charge_eq_length] at hle ⊢
  have hbuffer : (writeBlock fields ++ rest).drop 0 =
      (fields.flatMap fun field => endLine field.line) ++ (endLine [] ++ rest) := by
    rw [List.drop_zero, writeBlock, writeLines, List.append_assoc]
  exact @read_lines _ rest limit strict Field.line fields
    (fun field hfield => (hfields field hfield).spelledBy strict) charged 0 none none rfl hbuffer
    hle

end FieldBlock

end HttpWire

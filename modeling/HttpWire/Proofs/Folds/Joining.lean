import HttpWire.Proofs.Folds.Layout

/-!
# Folded values are joined

A value without controls may be folded over any number of lines, with any end marks. Its parts are
then stripped of spaces and tabs, those that are empty are left out, and the others are joined by
single spaces. No line that continues a field closes the block or opens another field, wherever the
bytes of the block are cut.

- `FieldBlock.readPieces`: a block that arrives in pieces; `readPieces_eq` says that it is read like
  one that arrives as a whole.
- `WrittenField.field_plain`: the field that is read off lines without controls.
- `FieldBlock.folds_joined`: what is handed on, in any pieces.
-/

set_option autoImplicit false

namespace HttpWire

open Text

/-! ## Blocks in pieces -/

namespace FieldBlock

variable {limit : Nat} {strict : Bool} {buffer : Bytes} {block : FieldBlock}

/-- Reads a block that arrives in pieces. With each piece the reader looks at all that has arrived,
and goes on where it stands. -/
def readPieces (limit : Nat) (strict : Bool) (buffer : Bytes) (block : FieldBlock) :
    List Bytes → List Field × Outcome
  | [] => ([], .incomplete block)
  | piece :: pieces =>
      match read limit strict (buffer ++ piece) block with
      | (fields, .incomplete later) =>
          let further := readPieces limit strict (buffer ++ piece) later pieces
          (fields ++ further.1, further.2)
      | decided => decided

/-- How a block is cut into pieces does not matter. -/
theorem readPieces_eq (h : block.Within buffer) (first : Bytes) (pieces : List Bytes) :
    readPieces limit strict buffer block (first :: pieces) =
      read limit strict (buffer ++ (first :: pieces).flatten) block := by
  induction pieces generalizing buffer block first with
  | nil =>
      rw [readPieces, List.flatten_singleton]
      rcases read limit strict (buffer ++ first) block with ⟨fields, outcome⟩
      cases outcome with
      | incomplete later => simp only [readPieces, List.append_nil]
      | complete next charged => rfl
      | refused cause => rfl
  | cons second pieces ih =>
      have hfirst := h.append first
      have hlonger := read_append limit strict hfirst (second :: pieces).flatten
      rw [List.flatten_cons, ← List.append_assoc, hlonger, readPieces]
      rcases hread : read limit strict (buffer ++ first) block with ⟨fields, outcome⟩
      cases outcome with
      | incomplete later =>
          simp only [ih (read_within hfirst (congrArg Prod.snd hread)) second]
      | complete next charged => rfl
      | refused cause => rfl

/-- A block that is incomplete was so at every point before, and had handed on no other fields. -/
theorem incomplete_of_append {fields : List Field} {later : FieldBlock} {more : Bytes}
    (h : block.Within buffer)
    (hread : read limit strict (buffer ++ more) block = (fields, .incomplete later)) :
    ∃ early between, read limit strict buffer block = (early, .incomplete between) ∧
      early <+: fields := by
  have hlonger := read_append limit strict h more
  rw [hread] at hlonger
  rcases hshort : read limit strict buffer block with ⟨early, outcome⟩
  rw [hshort] at hlonger
  cases outcome with
  | incomplete between =>
      simp only [Prod.mk.injEq] at hlonger
      exact ⟨early, between, rfl, ⟨_, hlonger.1.symm⟩⟩
  | complete next charged => simp at hlonger
  | refused cause => simp at hlonger

end FieldBlock

/-! ## Lines before a CR -/

/-- Of what follows an end mark only the first byte counts. -/
theorem Line.EndMark.congr_head {mark rest more : Bytes} {b : UInt8}
    (h : EndMark mark (b :: rest)) : EndMark mark (b :: more) := by
  cases h with
  | ofLf => exact .ofLf _
  | ofCrLf => exact .ofCrLf _
  | ofCr hc => exact .ofCr hc _

theorem Line.EndMark.before_cr {mark rest : Bytes} (h : EndMark mark rest) : EndMark mark [cr] := by
  cases h with
  | ofLf => exact .ofLf _
  | ofCrLf => exact .ofCrLf _
  | ofCr hc rest => exact .ofCr (by decide) _

theorem TextLine.Stand.before_cr {lines : List TextLine} {rest : Bytes} (h : Stand lines rest) :
    Stand lines [cr] := by
  induction h with
  | nil => exact .nil
  | @cons line lines rest text ne mark later ih =>
      refine .cons text ne ?_ ih
      cases later with
      | nil => exact mark.before_cr
      | @cons second others _ _ ne' _ _ =>
          obtain ⟨b, text', htext'⟩ := List.exists_cons_of_ne_nil ne'
          simp only [List.flatMap_cons, bytes, htext', List.cons_append] at mark ⊢
          exact mark.congr_head

/-! ## Fields without controls -/

namespace WrittenField

theorem value_plain {written : WrittenField}
    (h : ∀ part ∈ written.parts, ∀ b ∈ part, isForbiddenInValue b = false) :
    written.value = joinTrimmed isFold written.parts ∧
      ∀ b ∈ written.value, isForbiddenInValue b = false := by
  have hvalue : ∀ b ∈ written.value, isForbiddenInValue b = false := by
    intro b hb
    rcases of_mem_joinParts hb with rfl | ⟨part, hpart, hmem⟩
    · rfl
    · exact h part hpart b hmem
  refine ⟨?_, hvalue⟩
  rw [value, joinParts_eq_joinTrimmed fun b hb hblank => isBlank_eq_isFold (hvalue b hb) ▸ hblank]
  exact joinTrimmed_congr fun part hpart b hb => isBlank_eq_isFold (h part hpart b hb)

/-- The field that is read off lines without controls, whether it is checked or not. -/
theorem field_plain (strict : Bool) {written : WrittenField} {name first : Bytes}
    (hopening : written.opening.text = name ++ colon :: first) (hne : name ≠ [])
    (htoken : ∀ b ∈ name, isTokenByte b = true)
    (hfirst : ∀ b ∈ first, isForbiddenInValue b = false)
    (hfolds : ∀ line ∈ written.folds, ∀ b ∈ line.text, isForbiddenInValue b = false) :
    written.field strict =
      .ok ⟨ofBytes name, ofBytes (joinTrimmed isFold (first :: written.folds.map TextLine.text))⟩ := by
  have hends : ∀ b ∈ name, FieldSpans.endsName b = false :=
    fun b hb => endsName_of_isTokenByte (htoken b hb)
  have hparts : written.parts = first :: written.folds.map TextLine.text := by
    rw [parts, hopening, FieldSpans.afterColon_named hends]
  have hall : ∀ part ∈ written.parts, ∀ b ∈ part, isForbiddenInValue b = false := by
    rw [hparts]
    exact List.forall_mem_cons.2 ⟨hfirst, List.forall_mem_map.2 hfolds⟩
  obtain ⟨hvalue, hcontrols⟩ := value_plain hall
  have hname : (name.isEmpty || !name.all isTokenByte) = false := by
    rw [List.all_eq_true.2 htoken]
    simpa using hne
  have hforbidden : written.value.any isForbiddenInValue = false := by
    rw [List.any_eq_false]
    intro b hb
    simp [hcontrols b hb]
  rw [field, WrittenField.name, hopening, FieldSpans.nameText_named hends, Field.check, hname,
    hforbidden, hvalue, hparts]
  simp only [Bool.and_false, Bool.false_eq_true, if_false]

end WrittenField

/-! ## Folded values -/

namespace FieldBlock

variable {base : Nat} {earlier : List WrittenField} {fields : List Field} {rest : Bytes}
  {written : WrittenField}

theorem Apart.concat (h : Apart earlier) (hopening : written.opening.continues = false)
    (hfolds : ∀ line ∈ written.folds, line.continues = true) : Apart (earlier ++ [written]) := by
  refine ⟨List.forall_mem_append.2 ⟨h.folds, List.forall_mem_singleton.2 hfolds⟩, ?_⟩
  cases earlier with
  | nil => exact List.forall_mem_nil _
  | cons first earlier =>
      exact List.forall_mem_append.2 ⟨h.openings, List.forall_mem_singleton.2 hopening⟩

/-- While the lines of a field arrive, only fields before it are handed on, and the block is open. -/
theorem open_while_folded {limit : Nat} {strict : Bool}
    (hearlier : earlier.map (WrittenField.field strict) = fields.map .ok)
    (hapart : Apart (earlier ++ [written])) {bytes : Bytes}
    (hbytes : (earlier ++ [written]).flatMap WrittenField.bytes = bytes)
    (hstand : TextLine.Stand ((earlier ++ [written]).flatMap WrittenField.lines) rest)
    (hle : base + weight bytes ≤ limit) {upTo : Bytes} (hupTo : upTo <+: bytes) :
    ∃ early later, read limit strict upTo { charged := base } = (early, .incomplete later) ∧
      early <+: fields := by
  -- a CR behind the lines makes their ends certain, and is no line yet
  obtain ⟨spans, -, hread⟩ := read_fields strict hapart hbytes hstand.before_cr hle
  have hscan : Line.scan limit (base + weight bytes) (bytes ++ [cr]) bytes.length = .incomplete := by
    have hdrop : (bytes ++ [cr]).drop bytes.length = [] ++ [cr] := List.drop_left
    rw [Line.scan_unended (List.forall_mem_nil _) (.inr rfl) hdrop]
    exact if_neg (Nat.not_lt.2 hle)
  rw [@read_incomplete _ _ _ ⟨base + weight bytes, bytes.length, some spans⟩ hscan,
    handOn_ok hearlier] at hread
  obtain ⟨more, rfl⟩ := hupTo
  rw [List.append_assoc] at hread
  obtain ⟨early, later, hearly, hprefix⟩ := incomplete_of_append (within_start base upTo) hread
  rw [List.append_nil] at hprefix
  exact ⟨early, later, hearly, hprefix⟩

/-- The next line that is empty, or does not begin with a space or a tab, completes a field. -/
theorem handed_on_after {limit : Nat} {strict : Bool} {field : Field}
    (hearlier : earlier.map (WrittenField.field strict) = fields.map .ok)
    (hwritten : written.field strict = .ok field) (hapart : Apart (earlier ++ [written]))
    {bytes : Bytes} (hbytes : (earlier ++ [written]).flatMap WrittenField.bytes = bytes)
    {line : TextLine} {after : Bytes}
    (hstand : TextLine.Stand ((earlier ++ [written]).flatMap WrittenField.lines)
      (line.bytes ++ after))
    (htext : ∀ b ∈ line.text, isLineEnd b = false) (hmark : Line.EndMark line.mark after)
    (hcontinues : line.continues = false) (hle : base + weight (bytes ++ line.bytes) ≤ limit) :
    ∃ more outcome, read limit strict (bytes ++ (line.bytes ++ after)) { charged := base } =
        (fields ++ field :: more, outcome) ∧
      (line.text = [] → more = [] ∧
        outcome = .complete (bytes ++ line.bytes).length (base + weight (bytes ++ line.bytes))) := by
  rw [weight_append, ← Nat.add_assoc] at hle ⊢
  obtain ⟨spans, hholds, hread⟩ := read_fields strict hapart hbytes hstand
    (Nat.le_trans (Nat.le_add_right _ _) hle)
  have hdrop : (bytes ++ (line.bytes ++ after)).drop bytes.length =
      line.text ++ (line.mark ++ after) := by
    rw [List.drop_left, TextLine.bytes, List.append_assoc]
  rw [hread, handOn_ok hearlier, @Holds.read_other limit strict _ _ _ _ _ hholds htext hmark
    (.inr hcontinues) hdrop hle, Option.toList_some, handOn, hwritten]
  refine ⟨_, _, rfl, ?_⟩
  intro hempty
  rw [hempty, List.length_append]
  exact ⟨rfl, rfl⟩

/-- A field that is folded over any number of lines, in any place of a block, is handed on with its
parts joined, whether it is checked or not.

The field has a token as its name, and its other bytes are no controls but tabs; its lines stand
behind those of fields that pass the checks, with any end marks, and keep to the limit. In whatever
pieces these lines come, the block is open after each of them, and only fields before this one have
been handed on. The next line that does not begin with a space or a tab completes it, in whatever
pieces everything comes; if that line is empty it closes the block. -/
theorem folds_joined (limit : Nat) (strict : Bool) {base : Nat} {earlier : List WrittenField}
    {fields : List Field} {written : WrittenField} {name first rest : Bytes}
    (hearlier : earlier.map (WrittenField.field strict) = fields.map .ok) (hapart : Apart earlier)
    (hopening : written.opening.text = name ++ colon :: first) (hne : name ≠ [])
    (htoken : ∀ b ∈ name, isTokenByte b = true)
    (hfirst : ∀ b ∈ first, isForbiddenInValue b = false)
    (hfolds : ∀ line ∈ written.folds, line.continues = true ∧
      ∀ b ∈ line.text, isForbiddenInValue b = false)
    (hstand : TextLine.Stand ((earlier ++ [written]).flatMap WrittenField.lines) rest)
    (hle : base + weight ((earlier ++ [written]).flatMap WrittenField.bytes) ≤ limit) :
    let bytes := (earlier ++ [written]).flatMap WrittenField.bytes
    let field : Field :=
      ⟨ofBytes name, ofBytes (joinTrimmed isFold (first :: written.folds.map TextLine.text))⟩
    (∀ piece pieces, (piece :: pieces).flatten <+: bytes →
      ∃ early later, readPieces limit strict [] { charged := base } (piece :: pieces) =
        (early, .incomplete later) ∧ early <+: fields) ∧
    ∀ (line : TextLine) (after : Bytes), rest = line.bytes ++ after →
      (∀ b ∈ line.text, isLineEnd b = false) → Line.EndMark line.mark after →
      line.continues = false → base + weight (bytes ++ line.bytes) ≤ limit →
      ∀ piece pieces, (piece :: pieces).flatten = bytes ++ rest →
        ∃ more outcome, readPieces limit strict [] { charged := base } (piece :: pieces) =
            (fields ++ field :: more, outcome) ∧
          (line.text = [] → more = [] ∧ outcome =
            .complete (bytes ++ line.bytes).length (base + weight (bytes ++ line.bytes))) := by
  intro bytes field
  have hends : ∀ b ∈ name, FieldSpans.endsName b = false :=
    fun b hb => endsName_of_isTokenByte (htoken b hb)
  have hcontinues : written.opening.continues = false := by
    obtain ⟨b, text, htext, hb⟩ := FieldSpans.exists_cons_named hends first
    rw [TextLine.continues, hopening, htext]
    exact isFold_of_not_isBlank hb
  have hall : Apart (earlier ++ [written]) :=
    hapart.concat hcontinues fun line hline => (hfolds line hline).1
  have hfield : written.field strict = .ok field :=
    WrittenField.field_plain strict hopening hne htoken hfirst fun line hline =>
      (hfolds line hline).2
  refine ⟨?_, ?_⟩
  · intro piece pieces hpieces
    rw [readPieces_eq (within_start base [])]
    exact open_while_folded hearlier hall rfl hstand hle hpieces
  · rintro line after rfl htext hmark hother hle' piece pieces hpieces
    rw [readPieces_eq (within_start base []), List.nil_append, hpieces]
    exact handed_on_after hearlier hfield hall rfl hstand htext hmark hother hle'

/-- A value whose first part is empty, with a blank line after it and three kinds of end marks, comes
byte by byte. -/
theorem folds_joined_byte_by_byte :
    let earlier : List WrittenField := [⟨⟨toBytes "A: b", [lf]⟩, []⟩]
    let written : WrittenField :=
      ⟨⟨toBytes "Fold:", [cr]⟩,
        [⟨toBytes " \t", [cr, lf]⟩, ⟨toBytes "\tx \ty ", [lf]⟩, ⟨toBytes " z", [cr]⟩]⟩
    let closing : TextLine := ⟨[], [cr, lf]⟩
    let bytes := (earlier ++ [written]).flatMap WrittenField.bytes
    written.opening.text = toBytes "Fold" ++ colon :: [] ∧
      TextLine.Stand ((earlier ++ [written]).flatMap WrittenField.lines) closing.bytes ∧
      readPieces 32 true [] {} ([] :: (bytes ++ closing.bytes).map ([·])) =
        ([⟨"A", "b"⟩, ⟨"Fold", "x \ty z"⟩], .complete 27 19) := by
  intro earlier written closing bytes
  have hstand : TextLine.Stand ((earlier ++ [written]).flatMap WrittenField.lines) closing.bytes := by
    refine .cons (by decide +kernel) (by decide +kernel) (.ofLf _) ?_
    refine .cons (by decide +kernel) (by decide +kernel) (.ofCr (by decide +kernel) _) ?_
    refine .cons (by decide +kernel) (by decide +kernel) (.ofCrLf _) ?_
    refine .cons (by decide +kernel) (by decide +kernel) (.ofLf _) ?_
    exact .cons (by decide +kernel) (by decide +kernel) (.ofCr (by decide +kernel) _) .nil
  have hearlier : earlier.map (WrittenField.field true) = [⟨"A", "b"⟩].map .ok := by
    decide +kernel
  have hopening : written.opening.text = toBytes "Fold" ++ colon :: [] := by decide +kernel
  obtain ⟨-, hclosing⟩ := @folds_joined 32 true 0 earlier _ written _ _ _ hearlier
    ⟨by decide +kernel, by decide +kernel⟩ hopening (by decide +kernel) (by decide +kernel)
    (by decide +kernel) (by decide +kernel) hstand (by decide +kernel)
  obtain ⟨more, outcome, hread, hempty⟩ := hclosing closing [] (List.append_nil _).symm nofun
    (.ofCrLf []) rfl (by decide +kernel) [] ((bytes ++ closing.bytes).map ([·])) (by decide +kernel)
  obtain ⟨rfl, rfl⟩ := hempty rfl
  exact ⟨hopening, hstand, hread.trans (by decide +kernel)⟩

end FieldBlock

end HttpWire

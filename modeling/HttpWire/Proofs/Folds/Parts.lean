import Mathlib.Data.List.TakeWhile
import HttpWire.Proofs.Lines
import HttpWire.Proofs.RoundTrip.Blocks

/-!
# The parts of a folded value

A value may go over several lines, and each of them brings a part of it. What a reader makes of a
value depends on these parts alone, and not on the marks between them: parts without text are left
out, and the others are joined by single spaces.

- `TextLine`: a line with the mark that ends it.
- `joinParts`: the parts of a value on one line, as a reader makes it; `unfold_lines` says so.
- `joinTrimmed`: the parts stripped and joined by single spaces. `joinParts_eq_joinTrimmed`: this is
  the value unless some control has stayed in it.
- `edge_of_not_mem_joinParts`: what is lost of a part, spaces and tabs aside, is lost at its edges.
-/

set_option autoImplicit false

namespace HttpWire

open Text

/-! ## Lines -/

/-- A line: its text, and the mark that ends it. -/
structure TextLine where
  text : Bytes
  mark : Bytes
  deriving Repr, DecidableEq

namespace TextLine

/-- The bytes of a line. -/
def bytes (line : TextLine) : Bytes :=
  line.text ++ line.mark

/-- Whether a line begins with a space or a tab, and so continues a field that is open. -/
def continues (line : TextLine) : Bool :=
  line.text.head?.any isFold

/-- A line of which the mark ends lines, and nothing before it does. -/
structure Closed (line : TextLine) : Prop where
  text : ∀ b ∈ line.text, isLineEnd b = false
  mark : ∀ b ∈ line.mark, isLineEnd b = true
  marked : line.mark ≠ []

end TextLine

/-! ## What is dropped at the ends of a list -/

namespace Text

variable {α : Type} {p : α → Bool} {xs ys : List α} {x : α}

theorem isBlank_of_isLineEnd {b : UInt8} (h : isLineEnd b = true) : isBlank b = true := by
  cases hb : isBlank b with
  | true => rfl
  | false => exact absurd h (by simp [isLineEnd_of_not_isBlank hb])

/-- Of the bytes that may stand in a checked value, only spaces and tabs are blank. -/
theorem isBlank_eq_isFold {b : UInt8} (h : isForbiddenInValue b = false) :
    isBlank b = isFold b := by
  have hall := forall_byte (p := fun b => isForbiddenInValue b || isBlank b == isFold b)
    (by decide +kernel) b
  simpa [h] using hall

theorem dropTrailing_of_all (h : ∀ x ∈ xs, p x = true) : dropTrailing p xs = [] := by
  rw [dropTrailing, List.dropWhile_eq_nil_iff.2 (by simpa using h), List.reverse_nil]

theorem dropTrailing_append_of_pos (xs : List α) (h : ∀ y ∈ ys, p y = true) :
    dropTrailing p (xs ++ ys) = dropTrailing p xs := by
  rw [dropTrailing, List.reverse_append, List.dropWhile_append_of_pos (by simpa using h),
    dropTrailing]

theorem mem_dropTrailing (h : x ∈ xs) (hx : p x = false) : x ∈ dropTrailing p xs := by
  have hsplit := List.takeWhile_append_dropWhile (p := p) (l := xs.reverse)
  rw [dropTrailing, List.mem_reverse]
  rw [← List.mem_reverse, ← hsplit, List.mem_append] at h
  rcases h with hdropped | hleft
  · have hall := List.all_eq_true.1 List.all_takeWhile x hdropped
    rw [hx] at hall
    cases hall
  · exact hleft

theorem dropTrailing_ne_nil (h : ¬ ∀ x ∈ xs, p x = true) : dropTrailing p xs ≠ [] := by
  obtain ⟨x, hmem, hx⟩ : ∃ x ∈ xs, p x = false := by simpa using h
  exact List.ne_nil_of_mem (mem_dropTrailing hmem hx)

theorem dropTrailing_eq_self (h : ∀ x ∈ xs.getLast?, p x = false) : dropTrailing p xs = xs := by
  rw [← List.head?_reverse] at h
  rw [dropTrailing, dropWhile_of_head h, List.reverse_reverse]

theorem dropTrailing_split (p : α → Bool) (xs : List α) :
    ∃ dropped, xs = dropTrailing p xs ++ dropped ∧ ∀ x ∈ dropped, p x = true := by
  have hsplit := List.takeWhile_append_dropWhile (p := p) (l := xs.reverse)
  refine ⟨(xs.reverse.takeWhile p).reverse, ?_, ?_⟩
  · rw [dropTrailing, ← List.reverse_append, hsplit, List.reverse_reverse]
  · intro x hx
    exact List.all_eq_true.1 List.all_takeWhile x (List.mem_reverse.1 hx)

/-- A smaller class drops the same if what it leaves holds no others of the larger class. -/
theorem dropTrailing_congr {q : α → Bool} (hq : ∀ x, q x = true → p x = true)
    (h : ∀ x ∈ dropTrailing q xs, p x = true → q x = true) :
    dropTrailing q xs = dropTrailing p xs := by
  obtain ⟨dropped, hsplit, hdropped⟩ := dropTrailing_split q xs
  have hlast : ∀ x ∈ (dropTrailing q xs).getLast?, p x = false := by
    intro x hx
    cases hpx : p x with
    | false => rfl
    | true =>
        have hqx := getLast_dropTrailing q xs x hx
        rw [h x (List.mem_of_getLast? hx) hpx] at hqx
        cases hqx
  calc dropTrailing q xs
      = dropTrailing p (dropTrailing q xs) := (dropTrailing_eq_self hlast).symm
    _ = dropTrailing p (dropTrailing q xs ++ dropped) :=
        (dropTrailing_append_of_pos _ fun x hx => hq x (hdropped x hx)).symm
    _ = dropTrailing p xs := by rw [← hsplit]

theorem dropWhile_congr {q : α → Bool} (h : ∀ x ∈ xs, p x = q x) :
    xs.dropWhile p = xs.dropWhile q := by
  induction xs with
  | nil => rfl
  | cons x xs ih =>
      obtain ⟨hx, hxs⟩ := List.forall_mem_cons.1 h
      rw [List.dropWhile_cons, List.dropWhile_cons, hx, ih hxs]

theorem trim_congr {q : α → Bool} (h : ∀ x ∈ xs, p x = q x) : trim p xs = trim q xs := by
  have hleft : ∀ x ∈ (xs.dropWhile q).reverse, p x = q x := by
    intro x hx
    exact h x ((List.dropWhile_suffix q).subset (List.mem_reverse.1 hx))
  rw [trim, dropWhile_congr h, dropTrailing, dropWhile_congr hleft, trim, dropTrailing]

/-- The runs at the two ends may be dropped in either order. -/
theorem dropWhile_dropTrailing (p : α → Bool) (xs : List α) :
    (dropTrailing p xs).dropWhile p = trim p xs := by
  induction xs with
  | nil => rfl
  | cons x xs ih =>
      cases hx : p x with
      | false =>
          obtain ⟨y, rest, hrest⟩ :=
            List.exists_cons_of_ne_nil (dropTrailing_cons_ne_nil xs hx)
          have hprefix := dropTrailing_isPrefix p (x :: xs)
          rw [hrest] at hprefix
          obtain ⟨rfl, -⟩ := List.cons_prefix_cons.1 hprefix
          rw [trim, List.dropWhile_cons_of_neg (by simp [hx]), hrest,
            List.dropWhile_cons_of_neg (by simp [hx])]
      | true =>
          rw [trim, List.dropWhile_cons_of_pos hx, ← trim, ← ih]
          by_cases hall : ∀ y ∈ xs, p y = true
          · rw [dropTrailing_of_all hall, dropTrailing_of_all (List.forall_mem_cons.2 ⟨hx, hall⟩)]
          · rw [← List.singleton_append, dropTrailing_append_of_ne_nil _ (dropTrailing_ne_nil hall),
              List.singleton_append, List.dropWhile_cons_of_pos hx]

/-- Elements of the class on both sides of a trimmed list are trimmed away. -/
theorem trim_between {lead text tail : List α} (hlead : ∀ x ∈ lead, p x = true)
    (htail : ∀ x ∈ tail, p x = true) (htext : trim p text = text) :
    trim p (lead ++ (text ++ tail)) = text := by
  rw [trim_append_of_pos hlead, ← dropWhile_dropTrailing, dropTrailing_append_of_pos _ htail,
    dropWhile_dropTrailing, htext]

theorem trim_eq_nil_iff : trim p xs = [] ↔ ∀ x ∈ xs, p x = true := by
  constructor
  · intro h x hx
    cases hpx : p x with
    | true => rfl
    | false =>
        have hmem := mem_dropTrailing hx hpx
        rw [← dropWhile_dropTrailing, List.dropWhile_eq_nil_iff] at h
        rw [h x hmem] at hpx
        cases hpx
  · intro h
    rw [trim, List.dropWhile_eq_nil_iff.2 h, dropTrailing_nil]

/-- An element is dropped from the front only behind others of the class. -/
theorem forall_of_not_mem_dropWhile {before after : List α}
    (h : x ∉ (before ++ x :: after).dropWhile p) :
    p x = true ∧ ∀ y ∈ before, p y = true := by
  induction before with
  | nil =>
      cases hx : p x with
      | true => exact ⟨rfl, List.forall_mem_nil _⟩
      | false =>
          rw [List.nil_append, List.dropWhile_cons_of_neg (by simp [hx])] at h
          exact absurd List.mem_cons_self h
  | cons y before ih =>
      cases hy : p y with
      | true =>
          rw [List.cons_append, List.dropWhile_cons_of_pos hy] at h
          obtain ⟨hx, hbefore⟩ := ih h
          exact ⟨hx, List.forall_mem_cons.2 ⟨hy, hbefore⟩⟩
      | false =>
          rw [List.cons_append, List.dropWhile_cons_of_neg (by simp [hy])] at h
          exact absurd (by simp) h

/-- An element is dropped from the end only before others of the class. -/
theorem forall_of_not_mem_dropTrailing {before after : List α}
    (h : x ∉ dropTrailing p (before ++ x :: after)) :
    p x = true ∧ ∀ y ∈ after, p y = true := by
  rw [dropTrailing, List.mem_reverse, List.reverse_append, List.reverse_cons, List.append_assoc,
    List.singleton_append] at h
  obtain ⟨hx, hafter⟩ := forall_of_not_mem_dropWhile h
  exact ⟨hx, by simpa using hafter⟩

/-- An element is trimmed away only together with all that is before it, or all that is after. -/
theorem forall_of_not_mem_trim {before after : List α} (h : x ∉ trim p (before ++ x :: after)) :
    p x = true ∧ ((∀ y ∈ before, p y = true) ∨ ∀ y ∈ after, p y = true) := by
  rw [trim, List.dropWhile_append] at h
  split at h
  · rename_i hempty
    have hbefore := List.dropWhile_eq_nil_iff.1 (List.isEmpty_iff.1 hempty)
    refine ⟨?_, .inl hbefore⟩
    cases hx : p x with
    | true => rfl
    | false =>
        rw [List.dropWhile_cons_of_neg (by simp [hx])] at h
        exact absurd (mem_dropTrailing List.mem_cons_self hx) h
  · obtain ⟨hx, hafter⟩ := forall_of_not_mem_dropTrailing h
    exact ⟨hx, .inr hafter⟩

end Text

/-! ## Values over several lines -/

/-- The parts of a value on one line. Parts without text are left out, and a space stands between
the others. Before a part all blanks are dropped, but after it spaces and tabs only, unless no other
part follows. -/
def joinParts : List Bytes → Bytes
  | [] => []
  | part :: parts =>
      if part.all isBlank then joinParts parts
      else if parts.all (·.all isBlank) then trim isBlank part
      else dropTrailing isFold (part.dropWhile isBlank) ++ sp :: joinParts parts

/-- The parts of a value that hold text, each without the bytes of a class around it. -/
def textParts (p : UInt8 → Bool) (parts : List Bytes) : List Bytes :=
  (parts.map (trim p)).filter (!·.isEmpty)

/-- The parts of a value that hold text, joined by single spaces. -/
def joinTrimmed (p : UInt8 → Bool) (parts : List Bytes) : Bytes :=
  [sp].intercalate (textParts p parts)

/-- A value whose first line ends after some text, on one line. -/
theorem unfold_append {front rest : Bytes} {mark : UInt8}
    (hfront : ∀ b ∈ front, isLineEnd b = false) (hmark : isLineEnd mark = true) :
    HttpWire.unfold (front ++ mark :: rest) =
      dropTrailing isFold front ++ sp :: HttpWire.unfold (rest.dropWhile isBlank) := by
  have hnot : ∀ b ∈ front, (!isLineEnd b) = true := fun b hb => by simp [hfront b hb]
  have hdrop : ((front ++ mark :: rest).dropWhile fun b => !isLineEnd b) = mark :: rest := by
    rw [List.dropWhile_append_of_pos hnot, List.dropWhile_cons_of_neg (by simp [hmark])]
  have htake : ((front ++ mark :: rest).takeWhile fun b => !isLineEnd b) = front := by
    rw [List.takeWhile_append_of_pos hnot, List.takeWhile_cons_of_neg (by simp [hmark]),
      List.append_nil]
  rw [HttpWire.unfold]
  split
  · rename_i hnil
    rw [hdrop] at hnil
    cases hnil
  · rename_i hcons
    rw [hdrop] at hcons
    cases hcons
    rw [htake]

namespace TextLine

theorem Closed.isBlank_mark {line : TextLine} (h : line.Closed) :
    ∀ b ∈ line.mark, isBlank b = true :=
  fun b hb => isBlank_of_isLineEnd (h.mark b hb)

theorem isBlank_bytes_iff {lines : List TextLine} (h : ∀ line ∈ lines, line.Closed) :
    (∀ b ∈ lines.flatMap bytes, isBlank b = true) ↔
      (lines.map text).all (·.all isBlank) = true := by
  simp only [List.all_map, List.all_eq_true, Function.comp_apply, List.mem_flatMap, bytes,
    List.mem_append]
  constructor
  · exact fun hall line hline b hb => hall b ⟨line, hline, .inl hb⟩
  · rintro hall b ⟨line, hline, htext | hmark⟩
    · exact hall line hline b htext
    · exact (h line hline).isBlank_mark b hmark

/-- What is made of the lines of a value depends on the texts of these lines alone. -/
theorem unfold_lines {lines : List TextLine} (h : ∀ line ∈ lines, line.Closed) :
    HttpWire.unfold (trim isBlank (lines.flatMap bytes)) = joinParts (lines.map text) := by
  induction lines with
  | nil => exact unfold_eq_self (List.forall_mem_nil _)
  | cons line lines ih =>
      obtain ⟨hline, hlines⟩ := List.forall_mem_cons.1 h
      rw [List.flatMap_cons, List.map_cons, joinParts, bytes, List.append_assoc]
      by_cases htext : line.text.all isBlank = true
      · -- a line without text is trimmed away with its mark
        rw [if_pos htext, trim_append_of_pos (List.all_eq_true.1 htext),
          trim_append_of_pos hline.isBlank_mark, ih hlines]
      · rw [if_neg htext]
        have htrim : trim isBlank (line.text ++ (line.mark ++ lines.flatMap bytes)) =
            dropTrailing isBlank
              (line.text.dropWhile isBlank ++ (line.mark ++ lines.flatMap bytes)) := by
          rw [trim, List.dropWhile_append, if_neg]
          rw [List.isEmpty_iff, List.dropWhile_eq_nil_iff]
          exact fun hall => htext (List.all_eq_true.2 hall)
        have hfront : ∀ b ∈ line.text.dropWhile isBlank, isLineEnd b = false :=
          fun b hb => hline.text b ((List.dropWhile_suffix _).subset hb)
        rw [htrim]
        by_cases hlater : (lines.map text).all (·.all isBlank) = true
        · -- no text follows, so the value ends on this line
          have hblank := (isBlank_bytes_iff hlines).2 hlater
          have hends : ∀ b ∈ trim isBlank line.text, isLineEnd b = false :=
            fun b hb => hline.text b (mem_of_mem_trim hb)
          rw [if_pos hlater, dropTrailing_append_of_pos _
            (List.forall_mem_append.2 ⟨hline.isBlank_mark, hblank⟩), ← trim, unfold_eq_self hends]
        · -- the mark and the blanks around it become a space
          have hne : dropTrailing isBlank (lines.flatMap bytes) ≠ [] :=
            dropTrailing_ne_nil fun hall => hlater ((isBlank_bytes_iff hlines).1 hall)
          obtain ⟨mark, marks, hmark⟩ := List.exists_cons_of_ne_nil hline.marked
          have hmarks : ∀ b ∈ mark :: marks, isLineEnd b = true := hmark ▸ hline.mark
          rw [if_neg hlater, ← List.append_assoc, dropTrailing_append_of_ne_nil _ hne,
            List.append_assoc, hmark, List.cons_append,
            unfold_append hfront (hmarks mark List.mem_cons_self),
            List.dropWhile_append_of_pos fun b hb =>
              isBlank_of_isLineEnd (hmarks b (List.mem_cons_of_mem _ hb)),
            dropWhile_dropTrailing, ih hlines]

end TextLine

/-! ## What is left of the parts, and what is lost -/

section Parts

variable {part : Bytes} {parts : List Bytes}

/-- A value holds the bytes of its parts, and spaces between them. -/
theorem of_mem_joinParts {b : UInt8} (h : b ∈ joinParts parts) :
    b = sp ∨ ∃ part ∈ parts, b ∈ part := by
  induction parts with
  | nil => cases h
  | cons part parts ih =>
      have hlater : b ∈ joinParts parts → b = sp ∨ ∃ other ∈ part :: parts, b ∈ other := by
        intro hb
        exact (ih hb).imp id fun ⟨other, hother, hmem⟩ =>
          ⟨other, List.mem_cons_of_mem _ hother, hmem⟩
      rw [joinParts] at h
      split at h
      · exact hlater h
      · split at h
        · exact .inr ⟨part, List.mem_cons_self, mem_of_mem_trim h⟩
        · rw [List.mem_append, List.mem_cons] at h
          rcases h with hfront | rfl | hb
          · exact .inr ⟨part, List.mem_cons_self,
              (List.dropWhile_suffix _).subset ((dropTrailing_isPrefix _ _).subset hfront)⟩
          · exact .inl rfl
          · exact hlater hb

theorem textParts_eq_nil_iff {p : UInt8 → Bool} :
    textParts p parts = [] ↔ parts.all (·.all p) = true := by
  simp only [textParts, List.filter_eq_nil_iff, List.forall_mem_map, Bool.not_eq_true,
    Bool.not_eq_false', List.isEmpty_iff, trim_eq_nil_iff, List.all_eq_true]

theorem textParts_cons_of_blank {p : UInt8 → Bool} (h : part.all p = true) (parts : List Bytes) :
    textParts p (part :: parts) = textParts p parts := by
  rw [textParts, List.map_cons, trim_eq_nil_iff.2 (List.all_eq_true.1 h),
    List.filter_cons_of_neg (by simp), textParts]

theorem textParts_cons {p : UInt8 → Bool} (h : part.all p ≠ true) (parts : List Bytes) :
    textParts p (part :: parts) = trim p part :: textParts p parts := by
  rw [textParts, List.map_cons, List.filter_cons_of_pos, textParts]
  rw [Bool.not_eq_true', List.isEmpty_eq_false_iff]
  exact fun hnil => h (List.all_eq_true.2 (trim_eq_nil_iff.1 hnil))

/-- A value in which only spaces and tabs are blank is made of its parts without the blanks around
each of them. -/
theorem joinParts_eq_joinTrimmed (h : ∀ b ∈ joinParts parts, isBlank b = true → isFold b = true) :
    joinParts parts = joinTrimmed isBlank parts := by
  induction parts with
  | nil => rfl
  | cons part parts ih =>
      rw [joinParts] at h ⊢
      rw [joinTrimmed]
      split
      · rename_i hblank
        rw [if_pos hblank] at h
        rw [textParts_cons_of_blank hblank, ih h, joinTrimmed]
      · rename_i htext
        rw [if_neg htext] at h
        rw [textParts_cons htext]
        split
        · rename_i hlater
          rw [textParts_eq_nil_iff.2 hlater, List.intercalate_singleton]
        · rename_i hlater
          rw [if_neg hlater] at h
          obtain ⟨hfront, hrest⟩ := List.forall_mem_append.1 h
          rw [List.intercalate_cons_of_ne_nil fun hnil => hlater (textParts_eq_nil_iff.1 hnil),
            dropTrailing_congr (fun b hb => (isBlank_of_isFold hb).1) hfront,
            ih (List.forall_mem_cons.1 hrest).2, joinTrimmed, trim, List.append_assoc,
            List.singleton_append]

theorem joinTrimmed_congr (h : ∀ part ∈ parts, ∀ b ∈ part, isBlank b = isFold b) :
    joinTrimmed isBlank parts = joinTrimmed isFold parts := by
  rw [joinTrimmed, textParts, List.map_congr_left fun part hpart => trim_congr (h part hpart),
    joinTrimmed, textParts]

/-- A byte of a part that is lost, other than a space or a tab, is lost at an edge of the value or of
its part: it is blank, and so is everything before it in the part, or everything after it in the
value. -/
theorem edge_of_not_mem_joinParts {earlier later : List Bytes} {before after : Bytes} {c : UInt8}
    (hc : isFold c = false) (h : c ∉ joinParts (earlier ++ (before ++ c :: after) :: later)) :
    isBlank c = true ∧ ((∀ b ∈ before, isBlank b = true) ∨
      (∀ b ∈ after, isBlank b = true) ∧ ∀ part ∈ later, ∀ b ∈ part, isBlank b = true) := by
  induction earlier with
  | nil =>
      rw [List.nil_append, joinParts] at h
      split at h
      · rename_i hblank
        obtain ⟨hbefore, hafter⟩ := List.forall_mem_append.1 (List.all_eq_true.1 hblank)
        exact ⟨(List.forall_mem_cons.1 hafter).1, .inl hbefore⟩
      · split at h
        · rename_i hlater
          have hall : ∀ part ∈ later, ∀ b ∈ part, isBlank b = true := by simpa using hlater
          exact (forall_of_not_mem_trim h).imp id (Or.imp_right fun hafter => ⟨hafter, hall⟩)
        · rw [List.mem_append, not_or] at h
          obtain ⟨hblank, hbefore⟩ :=
            forall_of_not_mem_dropWhile fun hmem => h.1 (mem_dropTrailing hmem hc)
          exact ⟨hblank, .inl hbefore⟩
  | cons part earlier ih =>
      rw [List.cons_append, joinParts] at h
      split at h
      · exact ih h
      · split at h
        · rename_i hlater
          have hpart := List.all_eq_true.1 hlater (before ++ c :: after) (by simp)
          obtain ⟨hbefore, hafter⟩ := List.forall_mem_append.1 (List.all_eq_true.1 hpart)
          exact ⟨(List.forall_mem_cons.1 hafter).1, .inl hbefore⟩
        · rw [List.mem_append, List.mem_cons, not_or, not_or] at h
          exact ih h.2.2

end Parts

end HttpWire

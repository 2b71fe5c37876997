import HttpWire.Proofs.ChunkSizes
import HttpWire.Proofs.DeclaredLengths
import HttpWire.Proofs.Lines

/-!
# Which lines are start lines

A line is read in three ways. With too few words it is noise and dropped. Otherwise its parts are checked
in an order that depends on the direction: the first part that is at fault is reported, and if none is,
the line is a start line that consists of these parts.

- `Text.words`: what stands between the blanks of a line; `StartLine.LaidOut`: a line of two words and a
  rest.
- `StartLine.Spelled`, `StartLine.Refused`: the start line that a line spells, and the fault that it has.
- `StartLine.read_eq_none_iff`, `StartLine.read_eq_error_iff`, `StartLine.read_eq_some_iff`: each answer of
  `StartLine.read`, in these terms.
- `Phase.startLine_by_grammar`: a complete line, where a start line is awaited.
-/

set_option autoImplicit false

namespace HttpWire

open Text

/-! ## Words -/

namespace Text

/-- What stands between the blanks of a line. -/
def words (line : Bytes) : List Bytes :=
  (line.splitOnP isBlank).filter fun piece => !piece.isEmpty

/-- A text without blanks. -/
def IsWord (text : Bytes) : Prop :=
  text ≠ [] ∧ ∀ b ∈ text, isBlank b = false

variable {text gap rest : Bytes}

theorem words_nil : words [] = [] := rfl

/-- A blank belongs to no word and keeps those on its sides apart. -/
theorem words_append_cons {b : UInt8} (hb : isBlank b = true) (before after : Bytes) :
    words (before ++ b :: after) = words before ++ words after := by
  rw [words, List.splitOnP_append_cons before after hb, List.filter_append, words, words]

theorem words_append_of_blank (hgap : ∀ b ∈ gap, isBlank b = true) (rest : Bytes) :
    words (gap ++ rest) = words rest := by
  induction gap with
  | nil => rfl
  | cons b gap ih =>
      obtain ⟨hb, hgap⟩ := List.forall_mem_cons.1 hgap
      have hsplit := words_append_cons hb [] (gap ++ rest)
      rw [List.nil_append, words_nil, List.nil_append] at hsplit
      rw [List.cons_append, hsplit, ih hgap]

theorem words_of_blank (hgap : ∀ b ∈ gap, isBlank b = true) : words gap = [] := by
  rw [← List.append_nil gap, words_append_of_blank hgap, words_nil]

theorem words_append_blank (text : Bytes) (hgap : ∀ b ∈ gap, isBlank b = true) :
    words (text ++ gap) = words text := by
  cases gap with
  | nil => rw [List.append_nil]
  | cons b gap =>
      obtain ⟨hb, hgap⟩ := List.forall_mem_cons.1 hgap
      rw [words_append_cons hb, words_of_blank hgap, List.append_nil]

theorem IsWord.words_eq (h : IsWord text) : words text = [text] := by
  have hkept : (!text.isEmpty) = true := by simpa using h.1
  simp only [words, List.splitOnP_eq_singleton h.2, List.filter_cons, hkept, if_true, List.filter_nil]

theorem IsWord.words_append (h : IsWord text) (hrest : ∀ b ∈ rest.head?, isBlank b = true) :
    words (text ++ rest) = text :: words rest := by
  cases rest with
  | nil => rw [List.append_nil, h.words_eq, words_nil]
  | cons b rest =>
      have hb : isBlank b = true := hrest b rfl
      have hgap : ∀ c ∈ [b], isBlank c = true := by simpa using hb
      rw [words_append_cons hb, h.words_eq, ← words_append_of_blank hgap rest]
      rfl

theorem IsWord.head (h : IsWord text) : ∀ b ∈ (text ++ rest).head?, isBlank b = false := by
  obtain ⟨hne, htext⟩ := h
  obtain ⟨b, text, rfl⟩ := List.exists_cons_of_ne_nil hne
  rintro b ⟨rfl⟩
  exact htext b List.mem_cons_self

theorem eq_nil_of_head {α : Type} {p : α → Bool} {xs : List α} (h : ∀ x ∈ xs.head?, p x = true)
    (h' : ∀ x ∈ xs.head?, p x = false) : xs = [] := by
  cases xs with
  | nil => rfl
  | cons x xs =>
      have hx := h x rfl
      rw [h' x rfl] at hx
      cases hx

end Text

/-! ## The layout of a line -/

namespace StartLine

variable {direction : Direction} {line first second rest : Bytes}

/-- A line of two words and a rest, with gaps between the three and blanks around them. The rest may be
empty and may hold blanks, but it neither begins nor ends with one. -/
inductive LaidOut : Bytes → Bytes → Bytes → Bytes → Prop
  | mk {lead first gap second gap' rest trail : Bytes} (hlead : ∀ b ∈ lead, isBlank b = true)
      (hfirst : IsWord first) (hgap : ∀ b ∈ gap, isBlank b = true) (hgap_ne : gap ≠ [])
      (hsecond : IsWord second) (hgap' : ∀ b ∈ gap', isBlank b = true)
      (hgap'_ne : rest ≠ [] → gap' ≠ [])
      (hrest : (∀ b ∈ rest.head?, isBlank b = false) ∧ ∀ b ∈ rest.getLast?, isBlank b = false)
      (htrail : ∀ b ∈ trail, isBlank b = true) :
      LaidOut (lead ++ (first ++ (gap ++ (second ++ (gap' ++ (rest ++ trail)))))) first second rest

/-- A line has no word, or begins with one. -/
theorem word_cases (line : Bytes) :
    (∀ b ∈ line, isBlank b = true) ∨
      ∃ lead first rest, line = lead ++ (first ++ rest) ∧ (∀ b ∈ lead, isBlank b = true) ∧
        IsWord first ∧ ∀ b ∈ rest.head?, isBlank b = true := by
  rcases Phase.dropWhile_split isBlank line with ⟨-, hall⟩ | ⟨lead, b, after, -, rfl, hlead, hb⟩
  · exact .inl hall
  · right
    rcases Phase.dropWhile_split (!isBlank ·) (b :: after) with
      ⟨-, hall⟩ | ⟨first, c, rest, -, hsplit, hall, hc⟩
    · -- the word ends with the line
      have hword : IsWord (b :: after) := ⟨List.cons_ne_nil b after, by simpa using hall⟩
      exact ⟨lead, b :: after, [], by rw [List.append_nil], hlead, hword, nofun⟩
    · have hc : isBlank c = true := by simpa using hc
      have hne : first ≠ [] := by
        rintro rfl
        rw [List.nil_append] at hsplit
        cases hsplit
        rw [hb] at hc
        cases hc
      refine ⟨lead, first, c :: rest, by rw [hsplit], hlead, ⟨hne, ?_⟩, ?_⟩
      · simpa using hall
      · rintro b ⟨rfl⟩
        exact hc

/-- Every line has no word, or one, or is laid out as two words and a rest. -/
theorem laidOut_cases (line : Bytes) :
    (words line = [] ∧ parts line = ([], [], [])) ∨
      (∃ first, words line = [first] ∧ parts line = (first, [], [])) ∨
        ∃ first second rest, LaidOut line first second rest := by
  have hblank : ∀ {text : Bytes}, (∀ b ∈ text, isBlank b = true) → word text = ([], []) := by
    intro text htext
    simp only [word, List.dropWhile_eq_nil_iff.2 htext, List.takeWhile_nil, List.dropWhile_nil]
  rcases word_cases line with hall | ⟨lead, first, after, rfl, hlead, hfirst, hafter⟩
  · left
    refine ⟨words_of_blank hall, ?_⟩
    simp only [parts, hblank hall]
    rfl
  · right
    rcases word_cases after with hall | ⟨gap, second, tail, rfl, hgap, hsecond, htail⟩
    · left
      refine ⟨first, ?_, ?_⟩
      · rw [words_append_of_blank hlead, words_append_blank first hall, hfirst.words_eq]
      · simp only [parts, word_append after hlead hfirst.2 hfirst.1 hafter, hblank hall]
        rfl
    · right
      obtain ⟨-, gap', trail, hsplit, hgap', htrail⟩ := trim_eq_iff.1 (rfl : trim isBlank tail = _)
      have hends := trim_ends isBlank tail
      refine ⟨first, second, trim isBlank tail, ?_⟩
      generalize trim isBlank tail = rest at hsplit hends ⊢
      subst hsplit
      -- a word ends on a blank or with the line, so neither gap is missing
      refine .mk hlead hfirst hgap ?_ hsecond hgap' ?_ hends htrail
      · rintro rfl
        rw [List.nil_append] at hafter
        have hnil := eq_nil_of_head hafter hsecond.head
        exact hsecond.1 (List.append_eq_nil_iff.1 hnil).1
      · rintro hne rfl
        apply hne
        apply eq_nil_of_head _ hends.1
        intro b hb
        apply htail
        rw [List.nil_append, List.head?_append, hb]
        rfl

namespace LaidOut

theorem first_ne (h : LaidOut line first second rest) : first ≠ [] := by
  cases h with
  | mk _ hfirst => exact hfirst.1

theorem second_ne (h : LaidOut line first second rest) : second ≠ [] := by
  cases h with
  | mk _ _ _ _ hsecond => exact hsecond.1

theorem rest_head (h : LaidOut line first second rest) : ∀ b ∈ rest.head?, isBlank b = false := by
  cases h with
  | mk _ _ _ _ _ _ _ hrest => exact hrest.1

/-- The first word of a line that is laid out, and that of what follows it. -/
theorem exists_words (h : LaidOut line first second rest) :
    ∃ lead gap tail, line = lead ++ (first ++ (gap ++ (second ++ tail))) ∧
      (∀ b ∈ lead, isBlank b = true) ∧ IsWord first ∧ (∀ b ∈ gap, isBlank b = true) ∧
      (∀ b ∈ (gap ++ (second ++ tail)).head?, isBlank b = true) ∧ IsWord second ∧
      (∀ b ∈ tail.head?, isBlank b = true) ∧ words tail = words rest ∧ trim isBlank tail = rest := by
  cases h with
  | @mk lead _ gap _ gap' _ trail hlead hfirst hgap hgap_ne hsecond hgap' hgap'_ne hrest htrail =>
      refine ⟨lead, gap, gap' ++ (rest ++ trail), rfl, hlead, hfirst, hgap, ?_, hsecond, ?_, ?_, ?_⟩
      · obtain ⟨b, gap, rfl⟩ := List.exists_cons_of_ne_nil hgap_ne
        rintro b ⟨rfl⟩
        exact hgap b List.mem_cons_self
      · intro b hb
        cases gap' with
        | cons c gap' =>
            cases hb
            exact hgap' b List.mem_cons_self
        | nil =>
            have hempty : rest = [] := by
              by_contra hne
              exact hgap'_ne hne rfl
            rw [hempty, List.nil_append, List.nil_append] at hb
            exact htrail b (List.mem_of_mem_head? hb)
      · rw [words_append_of_blank hgap', words_append_blank rest htrail]
      · exact trim_between hgap' htrail (trim_of_ends hrest.1 hrest.2)

theorem words_eq (h : LaidOut line first second rest) :
    words line = first :: second :: words rest := by
  obtain ⟨lead, gap, tail, rfl, hlead, hfirst, hgap, hafter, hsecond, htail, hwords, -⟩ :=
    h.exists_words
  rw [words_append_of_blank hlead, hfirst.words_append hafter, words_append_of_blank hgap,
    hsecond.words_append htail, hwords]

theorem parts_eq (h : LaidOut line first second rest) : parts line = (first, second, rest) := by
  obtain ⟨lead, gap, tail, rfl, hlead, hfirst, hgap, hafter, hsecond, htail, -, htrim⟩ :=
    h.exists_words
  simp only [parts, word_append _ hlead hfirst.2 hfirst.1 hafter,
    word_append _ hgap hsecond.2 hsecond.1 htail, htrim]

theorem words_rest (h : LaidOut line first second rest) : words rest = [] ↔ rest = [] := by
  constructor
  · intro hwords
    rcases word_cases rest with hall | ⟨lead, third, after, rfl, hlead, hthird, hafter⟩
    · apply eq_nil_of_head _ h.rest_head
      exact fun b hb => hall b (List.mem_of_mem_head? hb)
    · rw [words_append_of_blank hlead, hthird.words_append hafter] at hwords
      cases hwords
  · rintro rfl
    exact words_nil

end LaidOut

/-! ## The grammar -/

/-- The number of words that a line needs so as not to be noise. -/
def wordsNeeded : Direction → Nat
  | .request => 3
  | .response => 2

/-- A line with enough words is laid out as two words and a rest, which a request needs. -/
theorem exists_laidOut (h : wordsNeeded direction ≤ (words line).length) :
    ∃ first second rest, LaidOut line first second rest ∧ (direction = .request → rest ≠ []) := by
  have htwo : 2 ≤ wordsNeeded direction := by
    cases direction <;> decide
  rcases laidOut_cases line with ⟨hwords, -⟩ | ⟨first, hwords, -⟩ | ⟨first, second, rest, hline⟩
  · rw [hwords, List.length_nil] at h
    omega
  · rw [hwords, List.length_singleton] at h
    omega
  · refine ⟨first, second, rest, hline, ?_⟩
    rintro rfl rfl
    rw [hline.words_eq, words_nil] at h
    exact Nat.lt_irrefl 2 h

/-- The start line that a line spells. -/
inductive Spelled : Direction → Bytes → StartLine → Prop
  | request {line method target rest : Bytes} {version : Version}
      (hline : LaidOut line method target rest) (hrest : rest ≠ [])
      (hmethod : ∀ c ∈ (ofBytes method).toList, isControl c = false)
      (hversion : Version.parse (ofBytes rest) = .ok version) :
      Spelled .request line (.request (ofBytes method) (ofBytes target) version)
  | status {line first second reason : Bytes} {version : Version} {code : Nat}
      (hline : LaidOut line first second reason)
      (hversion : Version.parse (ofBytes first) = .ok version)
      (hcode : IsUnsigned code (ofBytes second).toList) (hlt : code < bitBound 16) :
      Spelled .response line (.status version code (ofBytes reason))

/-- The fault of a line that is neither noise nor a start line. The method of a request is checked before
its version, and the version of a response before its status code. -/
inductive Refused : Direction → Bytes → Fault → Prop
  | method {line method target rest : Bytes} {c : Char} (hline : LaidOut line method target rest)
      (hrest : rest ≠ []) (hc : c ∈ (ofBytes method).toList) (hcontrol : isControl c = true) :
      Refused .request line (.invalidMethod (ofBytes method))
  | requestVersion {line method target rest : Bytes} {cause : Fault}
      (hline : LaidOut line method target rest) (hrest : rest ≠ [])
      (hmethod : ∀ c ∈ (ofBytes method).toList, isControl c = false)
      (hversion : Version.parse (ofBytes rest) = .error cause) : Refused .request line cause
  | responseVersion {line first second reason : Bytes} {cause : Fault}
      (hline : LaidOut line first second reason)
      (hversion : Version.parse (ofBytes first) = .error cause) : Refused .response line cause
  | code {line first second reason : Bytes} {version : Version}
      (hline : LaidOut line first second reason)
      (hversion : Version.parse (ofBytes first) = .ok version)
      (hcode : ∀ code < bitBound 16, ¬ IsUnsigned code (ofBytes second).toList) :
      Refused .response line (.invalidStatusLine (ofBytes line))

/-! ## Reading by the grammar -/

/-- The parts of a line with too few words are missing, one of them at least. -/
theorem read_of_few_words (h : (words line).length < wordsNeeded direction) :
    read direction line = .ok none := by
  rcases laidOut_cases line with ⟨-, hparts⟩ | ⟨first, -, hparts⟩ | ⟨first, second, rest, hline⟩
  · cases direction with
    | request => simp only [read, readRequest, hparts, List.isEmpty_nil, Bool.true_or, if_true]
    | response => simp only [read, readStatus, hparts, List.isEmpty_nil, Bool.true_or, if_true]
  · cases direction with
    | request => simp only [read, readRequest, hparts, List.isEmpty_nil, Bool.or_true, if_true]
    | response => simp only [read, readStatus, hparts, List.isEmpty_nil, Bool.or_true, if_true]
  · rw [hline.words_eq, List.length_cons, List.length_cons] at h
    cases direction with
    | request =>
        have hwords : words rest = [] := by
          rw [← List.length_eq_zero_iff]
          simp only [wordsNeeded] at h
          omega
        have hrest := hline.words_rest.1 hwords
        simp only [read, readRequest, hline.parts_eq, hrest, List.isEmpty_nil, Bool.or_true, if_true]
    | response =>
        simp only [wordsNeeded] at h
        omega

/-- A request line of three parts: its method is checked before its version. -/
theorem LaidOut.readRequest_eq (h : LaidOut line first second rest) (hrest : rest ≠ []) :
    readRequest line =
      if (ofBytes first).toList.any isControl then .error (.invalidMethod (ofBytes first))
      else (Version.parse (ofBytes rest)).map fun version =>
        some (.request (ofBytes first) (ofBytes second) version) := by
  simp only [readRequest, h.parts_eq]
  rw [if_neg (by simp [h.first_ne, h.second_ne, hrest])]
  cases Version.parse (ofBytes rest) with
  | error cause => rfl
  | ok version => rfl

/-- A status line of two or three parts whose version can be read. -/
theorem LaidOut.readStatus_eq (h : LaidOut line first second rest) {version : Version}
    (hversion : Version.parse (ofBytes first) = .ok version) :
    readStatus line =
      match unsigned? (bitBound 16) (ofBytes second).toList with
      | none => .error (.invalidStatusLine (ofBytes line))
      | some code => .ok (some (.status version code (ofBytes rest))) := by
  have hwords : ¬ (first.isEmpty || second.isEmpty) = true := by
    simp [h.first_ne, h.second_ne]
  simp only [readStatus, h.parts_eq, hversion]
  exact if_neg hwords

theorem Spelled.read_eq {start : StartLine} (h : Spelled direction line start) :
    read direction line = .ok (some start) := by
  cases h with
  | request hline hrest hmethod hversion =>
      rw [read, hline.readRequest_eq hrest, any_isControl_eq_false hmethod, hversion]
      rfl
  | status hline hversion hcode hlt =>
      rw [read, hline.readStatus_eq hversion, unsigned?_eq_some_iff.2 ⟨hcode, hlt⟩]

theorem Refused.read_eq {cause : Fault} (h : Refused direction line cause) :
    read direction line = .error cause := by
  cases h with
  | method hline hrest hc hcontrol =>
      rw [read, hline.readRequest_eq hrest, if_pos (List.any_eq_true.2 ⟨_, hc, hcontrol⟩)]
  | requestVersion hline hrest hmethod hversion =>
      rw [read, hline.readRequest_eq hrest, any_isControl_eq_false hmethod, hversion]
      rfl
  | responseVersion hline hversion =>
      simp only [read, readStatus, hline.parts_eq, hversion]
      rw [if_neg (by simp [hline.first_ne, hline.second_ne])]
  | @code _ first second reason version hline hversion hcode =>
      have hnone : unsigned? (bitBound 16) (ofBytes second).toList = none := by
        rw [Option.eq_none_iff_forall_ne_some]
        intro code hsome
        obtain ⟨hunsigned, hlt⟩ := unsigned?_eq_some_iff.1 hsome
        exact hcode code hlt hunsigned
      rw [read, hline.readStatus_eq hversion, hnone]

/-- Every line is noise, or has a fault, or spells a start line. -/
theorem grammar_cases (direction : Direction) (line : Bytes) :
    (words line).length < wordsNeeded direction ∨ (∃ cause, Refused direction line cause) ∨
      ∃ start, Spelled direction line start := by
  by_cases hfew : (words line).length < wordsNeeded direction
  · exact .inl hfew
  right
  obtain ⟨first, second, rest, hline, hthird⟩ := exists_laidOut (Nat.not_lt.1 hfew)
  cases direction with
  | request =>
      have hrest : rest ≠ [] := hthird rfl
      by_cases hmethod : ∀ c ∈ (ofBytes first).toList, isControl c = false
      · cases hversion : Version.parse (ofBytes rest) with
        | error cause => exact .inl ⟨cause, .requestVersion hline hrest hmethod hversion⟩
        | ok version => exact .inr ⟨_, .request hline hrest hmethod hversion⟩
      · push Not at hmethod
        obtain ⟨c, hc, hcontrol⟩ := hmethod
        exact .inl ⟨_, .method hline hrest hc (by simpa using hcontrol)⟩
  | response =>
      cases hversion : Version.parse (ofBytes first) with
      | error cause => exact .inl ⟨cause, .responseVersion hline hversion⟩
      | ok version =>
          by_cases hcode : ∃ code < bitBound 16, IsUnsigned code (ofBytes second).toList
          · obtain ⟨code, hlt, hcode⟩ := hcode
            exact .inr ⟨_, .status hline hversion hcode hlt⟩
          · push Not at hcode
            exact .inl ⟨_, .code hline hversion hcode⟩

/-! ## Each answer of the reading -/

section Answers

variable {cause : Fault} {start : StartLine}

/-- A line is noise exactly if it has too few words. -/
theorem read_eq_none_iff :
    read direction line = .ok none ↔ (words line).length < wordsNeeded direction := by
  constructor
  · intro hread
    rcases grammar_cases direction line with hfew | ⟨cause, hrefused⟩ | ⟨start, hspelled⟩
    · exact hfew
    · cases hread.symm.trans hrefused.read_eq
    · cases hread.symm.trans hspelled.read_eq
  · exact read_of_few_words

theorem read_eq_error_iff : read direction line = .error cause ↔ Refused direction line cause := by
  constructor
  · intro hread
    rcases grammar_cases direction line with hfew | ⟨cause, hrefused⟩ | ⟨start, hspelled⟩
    · cases hread.symm.trans (read_of_few_words hfew)
    · cases hread.symm.trans hrefused.read_eq
      exact hrefused
    · cases hread.symm.trans hspelled.read_eq
  · exact Refused.read_eq

theorem read_eq_some_iff : read direction line = .ok (some start) ↔ Spelled direction line start := by
  constructor
  · intro hread
    rcases grammar_cases direction line with hfew | ⟨cause, hrefused⟩ | ⟨start, hspelled⟩
    · cases hread.symm.trans (read_of_few_words hfew)
    · cases hread.symm.trans hrefused.read_eq
    · cases hread.symm.trans hspelled.read_eq
      exact hspelled
  · exact Spelled.read_eq

end Answers

end StartLine

/-! ## A line where a start line is awaited -/

namespace Phase

variable {direction : Direction} {limits : Limits} {text mark rest : Bytes}

/-- What the reading of a line leads to: the line is dropped, the message is refused before it has a head,
or its header block is read. -/
def afterLine (direction : Direction) (rest : Bytes) : Except Fault (Option StartLine) → Step
  | .ok none => .proceed .idle rest []
  | .error cause => .refuse (.refusedHead (.placeholder direction) cause)
  | .ok (some start) => .proceed (.header start {} {}) rest []

/-- Readings that differ do not lead to the same. -/
theorem afterLine_injective (direction : Direction) (rest : Bytes) :
    Function.Injective (afterLine direction rest) := by
  rintro (cause | _ | start) (cause' | _ | start') h
  · cases h
    rfl
  · cases h
  · cases h
  · cases h
  · rfl
  · cases h
  · cases h
  · cases h
  · cases h
    rfl

/-- A complete line is taken from the front of the buffer and read. -/
theorem step_startLine (htext : ∀ b ∈ text, isLineEnd b = false) (hmark : Line.EndMark mark rest)
    (hle : text.length ≤ limits.line) :
    step direction limits .startLine (text ++ (mark ++ rest)) =
      afterLine direction rest (StartLine.read direction text) := by
  have hscan : Line.scan limits.line 0 (text ++ (mark ++ rest)) 0 =
      .found (Line.ofText 0 text mark) := by
    rw [Line.scan_ended htext hmark rfl, if_neg (by omega)]
  have hbytes : (Line.ofText 0 text mark).bytes (text ++ (mark ++ rest)) = text :=
    Line.bytes_ofText rfl
  have hrest : (text ++ (mark ++ rest)).drop (Line.ofText 0 text mark).next = rest :=
    Line.drop_ofText rfl
  cases hread : StartLine.read direction text with
  | error cause =>
      rw [← hbytes] at hread
      exact (Move.startRefused hscan hread).step_eq
  | ok start? =>
      rw [← hbytes] at hread
      cases start? with
      | none =>
          rw [(Move.noise hscan hread).step_eq, hrest]
          rfl
      | some start =>
          rw [(Move.started hscan hread).step_eq, hrest]
          rfl

/-- A complete line within the limit, where a start line is awaited, whatever follows it.

It is dropped exactly if it has fewer words than a start line of its direction needs. A message is refused
exactly with the fault that the line has by the grammar, and a message begins exactly with the start line
that the line spells. The parts of a line are texts as they stand in it: the words, and the rest without
the blanks around it. -/
theorem startLine_by_grammar (direction : Direction) (limits : Limits)
    (htext : ∀ b ∈ text, isLineEnd b = false) (hmark : Line.EndMark mark rest)
    (hle : text.length ≤ limits.line) :
    (step direction limits .startLine (text ++ (mark ++ rest)) = .proceed .idle rest [] ↔
      (words text).length < StartLine.wordsNeeded direction) ∧
    (∀ cause, step direction limits .startLine (text ++ (mark ++ rest)) =
        .refuse (.refusedHead (.placeholder direction) cause) ↔
      StartLine.Refused direction text cause) ∧
    ∀ start, step direction limits .startLine (text ++ (mark ++ rest)) =
        .proceed (.header start {} {}) rest [] ↔
      StartLine.Spelled direction text start := by
  have hinj := afterLine_injective direction rest
  rw [step_startLine htext hmark hle]
  refine ⟨?_, ?_, ?_⟩
  · rw [← StartLine.read_eq_none_iff]
    exact hinj.eq_iff (b := .ok none)
  · intro cause
    rw [← StartLine.read_eq_error_iff]
    exact hinj.eq_iff (b := .error cause)
  · intro start
    rw [← StartLine.read_eq_some_iff]
    exact hinj.eq_iff (b := .ok (some start))

/-- A reason keeps the blanks inside it, a version does not begin before the third word, and two words are
no request. -/
theorem startLine_by_grammar_inner_blanks :
    let found := toBytes "HTTP/1.1 404  Not  Found "
    let split := toBytes "GET /a b\tHTTP/1.1"
    let short := toBytes "GET /"
    let later := toBytes "Host: a\r\n\r\n"
    step .response {} .startLine (found ++ ([cr, lf] ++ later)) =
        .proceed (.header (.status .http11 404 "Not  Found") {} {}) later [] ∧
      step .request {} .startLine (split ++ ([cr, lf] ++ later)) =
        .refuse (.refusedHead (.placeholder .request) (.invalidVersion "b\tHTTP/1.1")) ∧
      step .request {} .startLine (short ++ ([lf] ++ later)) = .proceed .idle later [] := by
  intro found split short later
  have hfound := @startLine_by_grammar found [cr, lf] later .response {} (by decide +kernel)
    (.ofCrLf later) (by decide +kernel)
  have hsplit := @startLine_by_grammar split [cr, lf] later .request {} (by decide +kernel)
    (.ofCrLf later) (by decide +kernel)
  have hshort := @startLine_by_grammar short [lf] later .request {} (by decide +kernel)
    (.ofLf later) (by decide +kernel)
  refine ⟨(hfound.2.2 _).2 ?_, (hsplit.2.1 _).2 ?_, hshort.1.2 (by decide +kernel)⟩
  · have hline := @StartLine.LaidOut.mk [] (toBytes "HTTP/1.1") [sp] (toBytes "404") [sp, sp]
      (toBytes "Not  Found") [sp] nofun ⟨by decide +kernel, by decide +kernel⟩ (by decide +kernel)
      (List.cons_ne_nil _ _) ⟨by decide +kernel, by decide +kernel⟩ (by decide +kernel)
      (fun _ => List.cons_ne_nil _ _) ⟨by decide +kernel, by decide +kernel⟩ (by decide +kernel)
    exact .status hline (by decide +kernel) (.digits ⟨0, by decide +kernel⟩) (by decide +kernel)
  · have hline := @StartLine.LaidOut.mk [] (toBytes "GET") [sp] (toBytes "/a") [sp]
      (toBytes "b\tHTTP/1.1") [] nofun ⟨by decide +kernel, by decide +kernel⟩ (by decide +kernel)
      (List.cons_ne_nil _ _) ⟨by decide +kernel, by decide +kernel⟩ (by decide +kernel)
      (fun _ => List.cons_ne_nil _ _) ⟨by decide +kernel, by decide +kernel⟩ nofun
    exact .requestVersion hline (by decide +kernel) (by decide +kernel) (by decide +kernel)

end Phase

/-- The second word of a status line begins with a plus sign, so it is no run of digits, and the line is
read all the same. No other number of a message may have a sign: a version, a declared length and a chunk
size with one are refused. -/
theorem Connection.plus_before_status_code :
    let new : Connection := { reader := ⟨.response, {}, by decide, .idle, false⟩ }
    let line := toBytes "HTTP/1.1 +200 OK"
    start .response {} = .ok new ∧
      words line = [toBytes "HTTP/1.1", toBytes "+200", toBytes "OK"] ∧
      Version.parse "HTTP/1.1" = .ok .http11 ∧ (∀ n, ¬ IsDecimal n "+200".toList) ∧
      new.events [.push (toBytes "HTTP/1.1 +200 OK\r\n\r\n")] =
        [.head { startLine := .status .http11 200 "OK" }] ∧
      Version.parse "HTTP/+1.1" = .error (.invalidVersion "HTTP/+1.1") ∧
      BodyLength.declared "+5" = .error (.invalidContentLength "+5") ∧
      Chunked.readSize (toBytes "+5") = .error (.malformedChunkSize "+5") := by
  intro new line
  refine ⟨rfl, by decide +kernel, by decide +kernel, ?_, by decide +kernel, by decide +kernel,
    by decide +kernel, by decide +kernel⟩
  intro n h
  exact absurd (h.isDigit_of_mem (c := '+') (by decide +kernel)) (by decide)

end HttpWire

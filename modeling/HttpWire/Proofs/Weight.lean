import HttpWire.Proofs.Faults
import HttpWire.Proofs.Heads
import HttpWire.Proofs.Lines
import HttpWire.Proofs.Waiting

/-!
# What a field block weighs

A block is charged for its bytes, the line ends apart: that is its weight. The charge is paid line by
line, each line when it is complete, and a line that is not complete is weighed again with every
piece that arrives. `FieldBlock.Taken` says that nothing is paid twice: what a block was charged is
the weight of the part that has been taken.

- `weight`, `FieldBlock.extent`: the bytes that count, and the bytes of a block.
- `FieldBlock.Taken`: how far a block has been read, in terms of its bytes.
- `FieldBlock.Taken.complete`, `FieldBlock.Taken.incomplete`, `FieldBlock.Taken.tooLong`: what each
  outcome says about the weight.
- `FieldBlock.read_over`: a block that weighs more than the limit is refused where the limit is
  passed, unless a field before that point is at fault.
-/

set_option autoImplicit false

namespace HttpWire

open Text

/-! ## Weights -/

/-- The number of bytes that count against a ceiling: all but CR and LF. -/
def weight (bytes : Bytes) : Nat :=
  bytes.countP fun b => !isLineEnd b

@[simp] theorem weight_nil : weight [] = 0 := rfl

@[simp] theorem weight_append (xs ys : Bytes) : weight (xs ++ ys) = weight xs + weight ys :=
  List.countP_append

theorem weight_text {text : Bytes} (h : ∀ b ∈ text, isLineEnd b = false) :
    weight text = text.length := by
  rw [weight, List.countP_eq_length]
  intro b hb
  rw [h b hb]
  rfl

theorem Line.EndMark.weight_eq {mark rest : Bytes} (h : EndMark mark rest) : weight mark = 0 := by
  rw [weight, List.countP_eq_zero]
  intro b hb
  simp [h.isLineEnd b hb]

/-- What weighs more than a limit has a byte with which the limit is passed. -/
theorem exists_of_lt_weight {limit : Nat} {bytes : Bytes} (h : limit < weight bytes) :
    ∃ within x rest, bytes = within ++ x :: rest ∧ weight within = limit ∧
      isLineEnd x = false := by
  induction bytes generalizing limit with
  | nil => cases h
  | cons b bytes ih =>
      cases hb : isLineEnd b with
      | true =>
          have hweight : ∀ xs, weight (b :: xs) = weight xs := by
            intro xs
            simp [weight, hb]
          rw [hweight] at h
          obtain ⟨within, x, rest, rfl, hwithin, hx⟩ := ih h
          exact ⟨b :: within, x, rest, rfl, by rw [hweight, hwithin], hx⟩
      | false =>
          have hweight : ∀ xs, weight (b :: xs) = weight xs + 1 := by
            intro xs
            simp [weight, hb]
          rw [hweight] at h
          cases limit with
          | zero => exact ⟨[], b, bytes, rfl, rfl, hb⟩
          | succ limit =>
              obtain ⟨within, x, rest, rfl, hwithin, hx⟩ := ih (Nat.lt_of_succ_lt_succ h)
              exact ⟨b :: within, x, rest, rfl, by rw [hweight, hwithin], hx⟩

namespace FieldBlock

/-! ## The bytes of a block -/

/-- The bytes of the block that some bytes begin with: its lines up to the first empty one, and
everything if no empty line has come yet. -/
def extent (bytes : Bytes) : Bytes :=
  let text := bytes.takeWhile fun b => !isLineEnd b
  match _mark : Line.endMark? (bytes.drop text.length) with
  | none => bytes
  | some mark =>
      if text.isEmpty then bytes.take mark
      else bytes.take (text.length + mark) ++ extent (bytes.drop (text.length + mark))
termination_by bytes.length
decreasing_by
  have hmark := Line.endMark?_bounds _mark
  simp only [List.length_drop] at hmark ⊢
  omega

variable {text mark rest : Bytes}

/-- The first step of `extent`, where the text of the first line is known. -/
theorem extent_text (htext : ∀ b ∈ text, isLineEnd b = false) {tail : Bytes}
    (htail : tail.takeWhile (fun b => !isLineEnd b) = []) :
    extent (text ++ tail) =
      match Line.endMark? tail with
      | none => text ++ tail
      | some mark =>
          if text.isEmpty then tail.take mark
          else text ++ (tail.take mark ++ extent (tail.drop mark)) := by
  have htake : (text ++ tail).takeWhile (fun b => !isLineEnd b) = text := by
    rw [List.takeWhile_append_of_pos (by simpa using htext), htail, List.append_nil]
  rw [extent]
  simp only [htake]
  split
  · rename_i hmark
    rw [htake, List.drop_left] at hmark
    rw [hmark]
  · rename_i mark hmark
    rw [htake, List.drop_left] at hmark
    rw [hmark]
    simp only
    split
    · rename_i hempty
      rw [List.isEmpty_iff.1 hempty, List.nil_append]
    · rw [List.take_length_add_append, List.drop_length_add_append, List.append_assoc]

theorem extent_unended (htext : ∀ b ∈ text, isLineEnd b = false) {tail : Bytes}
    (htail : tail = [] ∨ tail = [cr]) : extent (text ++ tail) = text ++ tail := by
  rcases htail with rfl | rfl
  · rw [extent_text htext rfl]
    rfl
  · rw [extent_text htext rfl]
    rfl

theorem extent_empty (hmark : Line.EndMark mark rest) : extent (mark ++ rest) = mark := by
  have hextent := @extent_text [] nofun _ hmark.takeWhile_eq
  rw [List.nil_append, hmark.endMark?_eq] at hextent
  simp only [List.isEmpty_nil, if_true, List.take_left] at hextent
  exact hextent

theorem extent_line (htext : ∀ b ∈ text, isLineEnd b = false) (hne : text ≠ [])
    (hmark : Line.EndMark mark rest) :
    extent (text ++ (mark ++ rest)) = text ++ (mark ++ extent rest) := by
  rw [extent_text htext hmark.takeWhile_eq, hmark.endMark?_eq]
  simp only [List.isEmpty_iff, if_neg hne, List.take_left, List.drop_left]

/-- The text at the front of some bytes belongs to the block there. -/
theorem length_le_weight_extent (htext : ∀ b ∈ text, isLineEnd b = false) (tail : Bytes) :
    text.length ≤ weight (extent (text ++ tail)) := by
  have happend : ∀ {later : Bytes}, (∀ b ∈ later, isLineEnd b = false) →
      ∀ b ∈ text ++ later, isLineEnd b = false := by
    intro later hlater b hb
    exact (List.mem_append.1 hb).elim (htext b) (hlater b)
  by_cases hne : text = []
  · rw [hne]
    exact Nat.zero_le _
  · cases Line.front tail with
    | unended hlater htail =>
        rw [← List.append_assoc, extent_unended (happend hlater) htail, List.append_assoc,
          weight_append, weight_text htext]
        exact Nat.le_add_right _ _
    | ended hlater hmark =>
        rw [← List.append_assoc,
          extent_line (happend hlater) (fun h => hne (List.append_eq_nil_iff.1 h).1) hmark,
          List.append_assoc, weight_append, weight_text htext]
        exact Nat.le_add_right _ _

theorem extent_isPrefix (bytes : Bytes) : extent bytes <+: bytes := by
  fun_induction extent bytes with
  | case1 => exact List.prefix_refl _
  | case2 => exact List.take_prefix _ _
  | case3 bytes text mark hmark hempty ih =>
      have hlater := (List.prefix_append_right_inj (bytes.take (text.length + mark))).2 ih
      rw [List.take_append_drop] at hlater
      exact hlater

/-! ## How far a block has been read -/

theorem isEmpty_of_takeLine {strict : Bool} {buffer : Bytes} {pending : Option FieldSpans}
    {line : Line} {done : Option Field} (h : takeLine strict buffer pending line = .ok (done, none)) :
    line.isEmpty = true := by
  rcases takeLine_cases h with ⟨old, -, -, -, hopened⟩ | ⟨-, hopened⟩
  · cases hopened
  · cases hempty : line.isEmpty with
    | true => rfl
    | false =>
        rw [hempty] at hopened
        cases hopened

variable {limits : Limits} {limit base : Nat} {strict : Bool} {buffer : Bytes}

/-- How far the block at the front of a buffer has been read. The bytes before the position are
lines of the block, and what they weigh is what was charged for them, on top of a base. -/
structure Taken (base : Nat) (buffer : Bytes) (block : FieldBlock) : Prop where
  position : block.position ≤ buffer.length
  charged : block.charged = base + weight (buffer.take block.position)
  extent : ∀ more : Bytes, extent (buffer ++ more) =
    buffer.take block.position ++ extent (buffer.drop block.position ++ more)

namespace Taken

variable {block later : FieldBlock}

/-- A block of which nothing has been taken. -/
theorem start (base : Nat) (buffer : Bytes) : Taken base buffer { charged := base } :=
  ⟨Nat.zero_le _, rfl, fun _ => rfl⟩

theorem append (h : Taken base buffer block) (bytes : Bytes) :
    Taken base (buffer ++ bytes) block := by
  refine ⟨?_, ?_, ?_⟩
  · rw [List.length_append]
    exact Nat.le_trans h.position (Nat.le_add_right _ _)
  · rw [List.take_append_of_le_length h.position]
    exact h.charged
  · intro more
    rw [List.append_assoc, h.extent, List.take_append_of_le_length h.position,
      List.drop_append_of_le_length h.position, List.append_assoc]

theorem extent_eq (h : Taken base buffer block) : FieldBlock.extent buffer =
    buffer.take block.position ++ FieldBlock.extent (buffer.drop block.position) := by
  have hextent := h.extent []
  rw [List.append_nil, List.append_nil] at hextent
  exact hextent

/-- The charge for the part that has been taken, with a text right after it. -/
theorem weight_text (h : Taken base buffer block) {text tail : Bytes}
    (htext : ∀ b ∈ text, isLineEnd b = false)
    (hdrop : buffer.drop block.position = text ++ tail) :
    block.charged + text.length + weight tail = base + weight buffer := by
  have hweight : weight buffer = weight (buffer.take block.position) +
      (text.length + weight tail) := by
    rw [← HttpWire.weight_text htext, ← weight_append, ← hdrop, ← weight_append,
      List.take_append_drop]
  rw [hweight, h.charged]
  omega

theorem line (h : Taken base buffer block) {line : Line}
    (hline : Line.scan limit block.charged buffer block.position = .found line)
    (hpos : 0 < line.length) (pending : Option FieldSpans) :
    Taken base buffer ⟨block.charged + line.length, line.next, pending⟩ := by
  obtain ⟨-, -, -, hnext, -⟩ := Line.scan_found hline
  obtain ⟨text, mark, rest, hdrop, htext, hmark, rfl, -⟩ := Line.scan_found_front hline
  have hlength : (Line.ofText block.position text mark).length = text.length :=
    Nat.add_sub_cancel_left _ _
  rw [hlength] at hpos ⊢
  refine ⟨hnext, ?_, ?_⟩
  · simp only [Line.take_ofText hdrop, weight_append, HttpWire.weight_text htext,
      hmark.weight_eq, h.charged]
    omega
  · intro more
    simp only [h.extent, Line.take_ofText hdrop, Line.drop_ofText hdrop, hdrop,
      List.append_assoc]
    rw [extent_line htext (List.ne_nil_of_length_pos hpos) (hmark.append more)]

theorem incomplete (h : Taken base buffer block)
    (hread : (read limit strict buffer block).2 = .incomplete later) :
    Taken base buffer later ∧ FieldBlock.extent buffer = buffer ∧ base + weight buffer ≤ limit := by
  fun_induction read limit strict buffer block with
  | case1 => cases hread
  | case2 block hline =>
      cases hread
      obtain ⟨text, tail, hdrop, htext, htail, hle⟩ := Line.scan_incomplete_front hline
      refine ⟨h, ?_, ?_⟩
      · rw [h.extent_eq, hdrop, extent_unended htext htail, ← hdrop, List.take_append_drop]
      · have htailweight : weight tail = 0 := by
          rcases htail with rfl | rfl <;> rfl
        have hweight := h.weight_text htext hdrop
        omega
  | case3 => cases hread
  | case4 => cases hread
  | case5 block line hline charged done spans htake further ih =>
      exact ih (h.line hline (length_pos_of_takeLine htake) (some spans)) hread

theorem complete (h : Taken base buffer block) {next charged : Nat}
    (hread : (read limit strict buffer block).2 = .complete next charged) :
    charged = base + weight (buffer.take next) ∧
      ∀ more : Bytes, FieldBlock.extent (buffer ++ more) = buffer.take next := by
  fun_induction read limit strict buffer block with
  | case1 => cases hread
  | case2 => cases hread
  | case3 => cases hread
  | case4 block line hline charged' done htake =>
      simp only [Outcome.complete.injEq] at hread
      obtain ⟨rfl, rfl⟩ := hread
      have hempty := isEmpty_of_takeLine htake
      obtain ⟨text, mark, rest, hdrop, htext, hmark, rfl, -⟩ := Line.scan_found_front hline
      have hstop : block.position + text.length ≤ block.position := of_decide_eq_true hempty
      obtain rfl : text = [] := List.length_eq_zero_iff.1 (by omega)
      have htaken := Line.take_ofText hdrop
      refine ⟨?_, ?_⟩
      · rw [htaken, weight_append, weight_append, hmark.weight_eq, ← Nat.add_assoc, ← h.charged]
        exact congrArg (block.charged + ·) (Nat.sub_self _)
      · intro more
        rw [h.extent, hdrop, htaken, List.nil_append, List.append_assoc,
          extent_empty (hmark.append more)]
        rfl
  | case5 block line hline charged done spans htake further ih =>
      exact ih (h.line hline (length_pos_of_takeLine htake) (some spans)) hread

/-- A block is refused for its length only if it weighs more than the limit. -/
theorem tooLong (h : Taken base buffer block) {limit' : Nat}
    (hread : (read limit strict buffer block).2 = .refused (.headerTooLong limit')) :
    limit' = limit ∧ limit < base + weight (FieldBlock.extent buffer) := by
  fun_induction read limit strict buffer block with
  | case1 block hline =>
      cases hread
      obtain ⟨text, tail, hdrop, htext, hlimit⟩ := Line.scan_tooLong_front hline
      have hle := length_le_weight_extent htext tail
      rw [h.extent_eq, hdrop, weight_append]
      rw [h.charged] at hlimit
      exact ⟨rfl, by omega⟩
  | case2 => cases hread
  | case3 block line hline cause htake =>
      cases hread
      cases inField_of_takeLine htake
  | case4 => cases hread
  | case5 block line hline charged done spans htake further ih =>
      exact ih (h.line hline (length_pos_of_takeLine htake) (some spans)) hread

theorem refused (h : Taken base buffer block)
    (hweight : limit < base + weight (FieldBlock.extent buffer)) :
    ∃ fields cause, read limit strict buffer block = (fields, .refused cause) := by
  rcases hread : read limit strict buffer block with ⟨fields, outcome⟩
  have houtcome := congrArg Prod.snd hread
  cases outcome with
  | refused cause => exact ⟨fields, cause, rfl⟩
  | incomplete later =>
      obtain ⟨-, hextent, hle⟩ := h.incomplete houtcome
      rw [hextent] at hweight
      omega
  | complete next charged =>
      obtain ⟨hcharged, hextent⟩ := h.complete houtcome
      have hle := charged_le_of_complete houtcome
      rw [← List.append_nil buffer, hextent [], ← hcharged] at hweight
      omega

end Taken

/-! ## Where the limit is passed -/

/-- The fault of an outcome that is a refusal, and another fault otherwise. -/
def Outcome.faultOr (other : Fault) : Outcome → Fault
  | refused cause => cause
  | complete _ _ => other
  | incomplete _ => other

/-- Reads the block at the front of some bytes without a ceiling. Nothing but a field that is at
fault stops it. -/
def readFreely (strict : Bool) (bytes : Bytes) : List Field × Outcome :=
  read bytes.length strict bytes {}

/-- Why a block is refused that passes its limit with the last of some bytes: a field that these
bytes complete may be at fault, and otherwise it is the limit. -/
def overrun (limits : Limits) (bytes : Bytes) : Fault :=
  (readFreely limits.strict bytes).2.faultOr (.headerTooLong limits.header)

/-- Without a ceiling a block is refused for its bytes alone. -/
theorem inText_of_readFreely {bytes : Bytes} {cause : Fault}
    (h : (readFreely strict bytes).2 = .refused cause) : cause.inText = true := by
  rcases fault_of_read h with rfl | hfield
  · obtain ⟨-, hweight⟩ := (Taken.start 0 bytes).tooLong h
    have hall : weight (extent bytes) ≤ bytes.length :=
      Nat.le_trans List.countP_le_length (extent_isPrefix bytes).length_le
    omega
  · exact Fault.inText_of_inField hfield

/-- A block that passes its limit is refused for its weight, unless a field that is complete before
that is at fault. -/
theorem overrun_cases (limits : Limits) (bytes : Bytes) :
    ((∀ cause, (readFreely limits.strict bytes).2 ≠ .refused cause) ∧
      overrun limits bytes = .headerTooLong limits.header) ∨
    ∃ cause, (readFreely limits.strict bytes).2 = .refused cause ∧ cause.inText = true ∧
      overrun limits bytes = cause := by
  unfold overrun
  cases houtcome : (readFreely limits.strict bytes).2 with
  | refused cause => exact .inr ⟨cause, rfl, inText_of_readFreely houtcome, rfl⟩
  | complete next charged => exact .inl ⟨nofun, rfl⟩
  | incomplete later => exact .inl ⟨nofun, rfl⟩

/-- A line that is found is found with any other charge that leaves room for the whole buffer. -/
theorem scan_found_freely {charged charged' limit' start : Nat} {line : Line}
    (hline : Line.scan limit charged buffer start = .found line)
    (hroom : charged' + (buffer.length - start) ≤ limit') :
    Line.scan limit' charged' buffer start = .found line := by
  obtain ⟨text, mark, rest, hdrop, htext, hmark, rfl, -⟩ := Line.scan_found_front hline
  have hlength := congrArg List.length hdrop
  simp only [List.length_drop, List.length_append] at hlength
  rw [Line.scan_ended htext hmark hdrop, if_neg (by omega)]

/-- Of bytes that end on one that is charged, no end is free. -/
theorem eq_nil_of_weight_eq_zero {within tail : Bytes} {x : UInt8} (hx : isLineEnd x = false)
    (hsuffix : tail <:+ within ++ [x]) (hweight : weight tail = 0) : tail = [] := by
  rcases List.suffix_concat_iff.1 hsuffix with hnil | ⟨front, rfl, -⟩
  · exact hnil
  · simp [weight, hx] at hweight

/-- A block that passes its limit with its last byte is read like one without a limit, up to the
line that passes it. -/
theorem read_overrun {block : FieldBlock} {bytes within : Bytes} {x : UInt8}
    (h : Taken base bytes block) (hbytes : bytes = within ++ [x]) (hx : isLineEnd x = false)
    (hweight : base + weight bytes = limit + 1) {more : Bytes}
    (hover : limit < base + weight (extent (bytes ++ more))) {limit' charged' : Nat}
    (hroom : charged' + (bytes.length - block.position) ≤ limit') :
    read limit strict bytes block =
      let freely := read limit' strict bytes { block with charged := charged' }
      (freely.1, .refused (freely.2.faultOr (.headerTooLong limit))) := by
  fun_induction read limit strict bytes block generalizing charged' with
  | case1 block hline =>
      -- the text that is too long is the rest of the bytes, and its line has no end yet
      obtain ⟨text, tail, hdrop, htext, hlimit⟩ := Line.scan_tooLong_front hline
      have hpaid := h.weight_text htext hdrop
      have hsuffix : tail <:+ within ++ [x] := by
        rw [← hbytes]
        exact (List.suffix_append text tail).trans (hdrop ▸ List.drop_suffix _ _)
      obtain rfl := eq_nil_of_weight_eq_zero hx hsuffix (by omega)
      have hlength := congrArg List.length hdrop
      rw [List.length_drop, List.append_nil] at hlength
      have hscan : Line.scan limit' charged' bytes block.position = .incomplete := by
        rw [Line.scan_unended htext (.inl rfl) hdrop, if_neg (by omega)]
      rw [@read_incomplete limit' strict bytes { block with charged := charged' } hscan]
      rfl
  | case2 block hline =>
      obtain ⟨-, -, hle⟩ := h.incomplete (congrArg Prod.snd (@read_incomplete _ strict _ _ hline))
      omega
  | case3 block line hline cause htake =>
      have hscan := scan_found_freely hline hroom
      rw [@read_found limit' strict bytes { block with charged := charged' } line hscan, htake]
      rfl
  | case4 block line hline charged done htake =>
      have hread := @read_found limit strict bytes block line hline
      rw [htake] at hread
      have houtcome := congrArg Prod.snd hread
      obtain ⟨hcharged, hextent⟩ := h.complete houtcome
      have hle := charged_le_of_complete houtcome
      rw [hextent, ← hcharged] at hover
      omega
  | case5 block line hline charged done spans htake further =>
      rename_i ih
      have hscan := scan_found_freely hline hroom
      obtain ⟨hstart, hstop, hnext, hle, -⟩ := Line.scan_found hline
      have hroom' : charged' + line.length + (bytes.length - line.next) ≤ limit' := by
        simp only [Span.length]
        omega
      have hlater := ih (h.line hline (length_pos_of_takeLine htake) (some spans)) hroom'
      rw [@read_found limit' strict bytes { block with charged := charged' } line hscan, htake]
      simp only [further, hlater]

/-- Of some bytes, `upTo` are those up to the one with which a limit is passed, on top of a base. -/
def PassesAt (limit base : Nat) (bytes upTo : Bytes) : Prop :=
  ∃ within x, upTo = within ++ [x] ∧ upTo <+: bytes ∧ isLineEnd x = false ∧
    base + weight within = limit

/-- Where the weight of a block passes the limit, the block is refused, whatever follows. Up to that
byte it is read as if there were no limit. -/
theorem read_over {bytes : Bytes} (limits : Limits) (hbase : base ≤ limits.header)
    (hweight : limits.header < base + weight (extent bytes)) :
    ∃ upTo, PassesAt limits.header base bytes upTo ∧
      read limits.header limits.strict bytes { charged := base } =
        ((readFreely limits.strict upTo).1, .refused (overrun limits upTo)) := by
  have hleft : limits.header - base < weight (extent bytes) := by omega
  obtain ⟨within, x, later, hextent, hwithin, hx⟩ := exists_of_lt_weight hleft
  obtain ⟨rest, hrest⟩ := extent_isPrefix bytes
  have hsplit : bytes = within ++ [x] ++ (later ++ rest) := by
    rw [← hrest, hextent]
    simp
  refine ⟨within ++ [x], ⟨within, x, rfl, ?_, hx, by omega⟩, ?_⟩
  · rw [hsplit]
    exact List.prefix_append _ _
  · have hone : weight [x] = 1 := by simp [weight, hx]
    have hpassed : base + weight (within ++ [x]) = limits.header + 1 := by
      rw [weight_append, hone]
      omega
    have hroom : 0 + ((within ++ [x]).length - 0) ≤ (within ++ [x]).length := by omega
    have hupTo := @read_overrun _ _ limits.strict _ _ _ _ (Taken.start base (within ++ [x])) rfl hx
      hpassed _ (hsplit ▸ hweight) _ _ hroom
    have hlonger := read_append limits.header limits.strict (within_start base (within ++ [x]))
      (later ++ rest)
    rw [hupTo] at hlonger
    rw [hsplit, hlonger]
    rfl

/-! ## Blocks that were read in parts -/

/-- Reading the block at the front of a buffer from its beginning comes to the same outcome as
reading on from where it stands, whatever follows. -/
def Agrees (limits : Limits) (base : Nat) (buffer : Bytes) (block : FieldBlock) : Prop :=
  ∀ more : Bytes, (read limits.header limits.strict (buffer ++ more) { charged := base }).2 =
    (read limits.header limits.strict (buffer ++ more) block).2

theorem Agrees.append {block : FieldBlock} (h : Agrees limits base buffer block) (bytes : Bytes) :
    Agrees limits base (buffer ++ bytes) block := by
  intro more
  rw [List.append_assoc]
  exact h (bytes ++ more)

theorem Agrees.incomplete {block later : FieldBlock} (h : Agrees limits base buffer block)
    (hwithin : block.Within buffer) {fields : List Field}
    (hread : read limits.header limits.strict buffer block = (fields, .incomplete later)) :
    Agrees limits base buffer later := by
  intro more
  rw [h more, read_append limits.header limits.strict hwithin more, hread]

/-- A block that is closed in view of the bytes after it, and was charged for what it weighs. -/
def Closes (limits : Limits) (base : Nat) (block rest : Bytes) : Prop :=
  (read limits.header limits.strict (block ++ rest) { charged := base }).2 =
    .complete block.length (base + weight block)

namespace Closes

variable {block : Bytes}

theorem append (h : Closes limits base block rest) (more : Bytes) :
    Closes limits base block (rest ++ more) := by
  have hlonger := read_append limits.header limits.strict
    (within_start base (block ++ rest)) more
  unfold Closes at h ⊢
  rw [← List.append_assoc, hlonger]
  rcases hread : read limits.header limits.strict (block ++ rest) { charged := base } with
    ⟨fields, outcome⟩
  rw [hread] at h
  simp only at h
  rw [h]

theorem extent_eq (h : Closes limits base block rest) : extent (block ++ rest) = block := by
  have hextent := ((Taken.start base (block ++ rest)).complete h).2 []
  rw [List.append_nil, List.take_left] at hextent
  exact hextent

theorem le (h : Closes limits base block rest) : base + weight block ≤ limits.header :=
  charged_le_of_complete h

end Closes

/-- A block that is read to its end closes there. -/
theorem Taken.closes {block : FieldBlock} (h : Taken base buffer block)
    (hagrees : Agrees limits base buffer block) {next charged : Nat}
    (hread : (read limits.header limits.strict buffer block).2 = .complete next charged) :
    Closes limits base (buffer.take next) (buffer.drop next) ∧
      charged = base + weight (buffer.take next) := by
  have hall := hagrees []
  rw [List.append_nil, hread] at hall
  obtain ⟨hcharged, -⟩ := h.complete hread
  refine ⟨?_, hcharged⟩
  unfold Closes
  rw [List.take_append_drop, hall, hcharged, List.length_take,
    Nat.min_eq_left (read_complete hread).2]

end FieldBlock

end HttpWire

import Mathlib.Algebra.GroupWithZero.Nat
import Mathlib.Data.List.Induction
import HttpWire.Proofs.Folds.Layout
import HttpWire.Reader.Scanner

/-!
# A scanner on a growing input

A scanner is asked again and again while its input grows, each time from the end of the last line that it
found. This module says what the lines are, what was charged for them, and which of its answers are final.

- `Line.ahead`: the bytes that a scan adds to the charge; `Line.scan_eq_tooLong_iff`.
- `Line.Tiles`: lines that stand one after the other.
- `LineScanner.Progress`: how far a scanner has come; `LineScanner.scans` is the fold over its scans.
- `LineScanner.Accounts`: what holds after every scan; `Accounts.scan` is the step, and
  `LineScanner.scans_accounts` the whole sequence.
- `LineScanner.scans_growing`: the answers, the lines and the charge, for every growing input.
-/

set_option autoImplicit false

namespace HttpWire

open Text

/-! ## One line -/

namespace Line

variable {limit charged start : Nat} {buffer : Bytes}

/-- The number of bytes from a position up to the next line end, or up to the end of the buffer. -/
def ahead (buffer : Bytes) (start : Nat) : Nat :=
  ((buffer.drop start).takeWhile fun b => !isLineEnd b).length

/-- A line is too long exactly if the bytes up to its end, or up to the end of the buffer, go over the
limit. -/
theorem scan_eq_tooLong_iff :
    scan limit charged buffer start = .tooLong ↔ limit < charged + ahead buffer start := by
  simp only [scan, ahead]
  split
  · simp [*]
  · rename_i hlimit
    split <;> simp [hlimit]

theorem ahead_le_append (buffer more : Bytes) (start : Nat) :
    ahead buffer start ≤ ahead (buffer ++ more) start := by
  unfold ahead
  rw [List.drop_append, List.takeWhile_append]
  split
  · rename_i hall
    rw [List.length_append, hall]
    exact Nat.le_add_right _ _
  · exact Nat.le_refl _

/-- Lines of some bytes that stand one after the other, the first from `start` on and the last up to a
position. No line holds a CR or an LF, and each is ended by LF, by CR LF or by a CR that another byte than
LF follows. -/
inductive Tiles (bytes : Bytes) (start : Nat) : List Line → Nat → Prop
  | nil : Tiles bytes start [] start
  | concat {lines : List Line} {line : Line} (h : Tiles bytes start lines line.start)
      (within : line.Within bytes) (text : ∀ b ∈ line.bytes bytes, isLineEnd b = false)
      (mark : EndMark ((⟨line.stop, line.next⟩ : Span).bytes bytes) (bytes.drop line.next)) :
      Tiles bytes start (lines ++ [line]) line.next

/-- A line that is found in the front of some bytes goes on with the lines before it. -/
theorem Tiles.found {bytes : Bytes} {start position arrived : Nat} {lines : List Line} {line : Line}
    (h : Tiles bytes start lines position)
    (hline : scan limit charged (bytes.take arrived) position = .found line) :
    Tiles bytes start (lines ++ [line]) line.next := by
  obtain ⟨text, mark, rest, hdrop, htext, hmark, rfl, -⟩ := scan_found_front hline
  have hfront : position ≤ (bytes.take arrived).length := by
    have hlength := congrArg List.length hdrop
    have hpos := List.length_pos_iff.2 hmark.ne_nil
    simp only [List.length_drop, List.length_append] at hlength
    omega
  have hall : bytes.drop position = text ++ (mark ++ (rest ++ bytes.drop arrived)) := by
    conv => lhs; rw [← List.take_append_drop arrived bytes]
    rw [List.drop_append_of_le_length hfront, hdrop, List.append_assoc, List.append_assoc]
  refine .concat h (ofText_within hall hmark.ne_nil) ?_ ?_
  · rw [bytes_ofText hall]
    exact htext
  · rw [bytes_mark hall, drop_ofText hall]
    exact hmark.append _

end Line

/-! ## Scans -/

namespace LineScanner

variable {scanner : LineScanner} {bytes buffer : Bytes} {start arrived : Nat}

/-- A scan that finds a line, or a fault, finds the same in every longer buffer. -/
theorem scan_append (h : (scanner.scan buffer start).2 ≠ .ok none) (more : Bytes) :
    scanner.scan (buffer ++ more) start = scanner.scan buffer start := by
  cases hfound : Line.scan scanner.limit scanner.base buffer start with
  | tooLong => simp only [scan, hfound, Line.scan_append_tooLong hfound more]
  | incomplete => exact absurd (by simp only [scan, hfound]) h
  | found line => simp only [scan, hfound, Line.scan_append_found hfound more]

/-- A scan that finds no end of a line leaves the charge to which it would have added. -/
theorem scan_none (h : (scanner.scan buffer start).2 = .ok none) :
    (scanner.scan buffer start).1 = { scanner with charged := scanner.base } := by
  cases hfound : Line.scan scanner.limit scanner.base buffer start with
  | incomplete => simp only [scan, hfound, Registers.chargeAfter]
  | tooLong => simp only [scan, hfound, reduceCtorEq] at h
  | found line => simp [scan, hfound] at h

theorem scan_error_iff {cause : Fault} : (scanner.scan buffer start).2 = .error cause ↔
    cause = scanner.tooLong ∧ scanner.limit < scanner.base + Line.ahead buffer start := by
  rw [← Line.scan_eq_tooLong_iff]
  cases hfound : Line.scan scanner.limit scanner.base buffer start <;> simp [scan, hfound, eq_comm]

/-! ## Sequences of scans -/

/-- How far a scanner has come in its input. -/
structure Progress where
  scanner : LineScanner
  /-- Where the next line starts. -/
  position : Nat
  /-- The lines so far, the first one first. -/
  lines : List Line := []
  /-- Whether there was a fault. -/
  failed : Bool := false
  deriving Repr, DecidableEq

/-- One more scan, when `arrived` of the bytes have come. -/
def Progress.scan (bytes : Bytes) (progress : Progress) (arrived : Nat) : Progress :=
  let scanned := progress.scanner.scan (bytes.take arrived) progress.position
  match scanned.2 with
  | .ok none => { progress with scanner := scanned.1 }
  | .ok (some line) =>
      { progress with
        scanner := scanned.1, position := line.next, lines := progress.lines ++ [line] }
  | .error _ => { progress with scanner := scanned.1, failed := true }

/-- The scans of an input of which more and more comes: first from `start` on, and after each line from its
end on. -/
def scans (scanner : LineScanner) (bytes : Bytes) (start : Nat) (prefixes : List Nat) : Progress :=
  prefixes.foldl (Progress.scan bytes) { scanner, position := start }

/-- What the lines so far count against the limit. -/
def Progress.total (progress : Progress) : Nat :=
  match progress.scanner.budget with
  | .perLine => 0
  | .cumulative => (progress.lines.map fun line => line.length).sum

/-- What holds of a scanner that began at `start`, when `arrived` of the bytes have come. -/
structure Accounts (scanner : LineScanner) (bytes : Bytes) (start arrived : Nat)
    (progress : Progress) : Prop where
  budget : progress.scanner.budget = scanner.budget
  limit : progress.scanner.limit = scanner.limit
  tiles : Line.Tiles bytes start progress.lines progress.position
  /-- Without a fault, the charge is what the lines count. -/
  paid : progress.failed = false → progress.total ≤ scanner.limit ∧
    progress.scanner.base = progress.total
  /-- After a fault, the next line is too long, and the charge says so. -/
  exceeded : progress.failed = true →
    scanner.limit < progress.total + Line.ahead (bytes.take arrived) progress.position ∧
      (scanner.budget = .cumulative → scanner.limit < progress.scanner.charged)

namespace Accounts

variable {progress : Progress}

/-- Before the first scan. -/
theorem initial (scanner : LineScanner) (bytes : Bytes) (start arrived : Nat) :
    Accounts scanner bytes start arrived { scanner := scanner.reset, position := start } := by
  refine ⟨rfl, rfl, .nil, fun _ => ?_, nofun⟩
  simp only [Progress.total, base, reset]
  cases scanner.budget <;> exact ⟨Nat.zero_le _, rfl⟩

theorem mono (h : Accounts scanner bytes start arrived progress) {later : Nat}
    (hle : arrived ≤ later) : Accounts scanner bytes start later progress := by
  refine ⟨h.budget, h.limit, h.tiles, h.paid, fun hfailed => ?_⟩
  obtain ⟨hover, hcharged⟩ := h.exceeded hfailed
  obtain ⟨more, hmore⟩ := List.take_prefix_take_left (l := bytes) hle
  have hahead := Line.ahead_le_append (bytes.take arrived) more progress.position
  rw [hmore] at hahead
  exact ⟨by omega, hcharged⟩

/-- The next scan goes over the limit exactly if its line does, on top of the lines so far. -/
theorem over_iff (h : Accounts scanner bytes start arrived progress) :
    scanner.limit < progress.scanner.base + Line.ahead (bytes.take arrived) progress.position ↔
      scanner.limit < progress.total + Line.ahead (bytes.take arrived) progress.position := by
  cases hfailed : progress.failed with
  | false => rw [(h.paid hfailed).2]
  | true =>
      obtain ⟨hover, hcharged⟩ := h.exceeded hfailed
      refine ⟨fun _ => hover, fun _ => ?_⟩
      cases hbudget : scanner.budget with
      | perLine =>
          have hperLine := h.budget.trans hbudget
          simp only [Progress.total, hperLine] at hover
          simp only [base, hperLine]
          exact hover
      | cumulative =>
          simp only [base, h.budget.trans hbudget]
          exact Nat.lt_of_lt_of_le (hcharged hbudget) (Nat.le_add_right _ _)

theorem scan (h : Accounts scanner bytes start arrived progress) :
    Accounts scanner bytes start arrived (progress.scan bytes arrived) := by
  have htooLong : Line.scan progress.scanner.limit progress.scanner.base (bytes.take arrived)
      progress.position = .tooLong ↔
        scanner.limit < progress.total + Line.ahead (bytes.take arrived) progress.position := by
    rw [Line.scan_eq_tooLong_iff, h.limit, h.over_iff]
  -- after a fault there is nothing but faults
  have hopen : Line.scan progress.scanner.limit progress.scanner.base (bytes.take arrived)
      progress.position ≠ .tooLong → progress.failed = false := by
    intro hfound
    rw [← Bool.not_eq_true]
    exact fun hfailed => hfound (htooLong.2 (h.exceeded hfailed).1)
  cases hfound : Line.scan progress.scanner.limit progress.scanner.base (bytes.take arrived)
      progress.position with
  | tooLong =>
      simp only [Progress.scan, LineScanner.scan, hfound]
      refine ⟨h.budget, h.limit, h.tiles, fun hfailed => Bool.noConfusion hfailed,
        fun _ => ⟨htooLong.1 hfound, fun _ => ?_⟩⟩
      simp only [Registers.chargeAfter, h.limit]
      exact Nat.lt_succ_self _
  | incomplete =>
      have hfailed := hopen (by simp [hfound])
      obtain ⟨hle, hbase⟩ := h.paid hfailed
      simp only [Progress.scan, LineScanner.scan, hfound, Registers.chargeAfter]
      refine ⟨h.budget, h.limit, h.tiles, fun _ => ⟨hle, ?_⟩, ?_⟩
      · refine Eq.trans ?_ hbase
        simp only [base]
        cases progress.scanner.budget <;> rfl
      · simp [hfailed]
  | found line =>
      have hfailed := hopen (by simp [hfound])
      obtain ⟨-, hbase⟩ := h.paid hfailed
      obtain ⟨-, -, -, -, hlimit⟩ := Line.scan_found hfound
      rw [hbase, h.limit] at hlimit
      simp only [Progress.scan, LineScanner.scan, hfound, Registers.chargeAfter]
      refine ⟨h.budget, h.limit, h.tiles.found hfound, fun _ => ?_, ?_⟩
      · simp only [Progress.total, base] at hbase hlimit ⊢
        cases hbudget : progress.scanner.budget with
        | perLine => exact ⟨Nat.zero_le _, rfl⟩
        | cumulative =>
            simp only [hbudget] at hbase hlimit ⊢
            rw [List.map_append, List.sum_append, List.map_singleton, List.sum_singleton, hbase]
            exact ⟨hlimit, rfl⟩
      · simp [hfailed]

end Accounts

/-- A sequence of scans on longer and longer fronts of some bytes. -/
theorem scans_accounts (scanner : LineScanner) (bytes : Bytes) (start : Nat) {prefixes : List Nat}
    (hgrowing : (prefixes ++ [arrived]).Pairwise (· ≤ ·)) :
    Accounts scanner bytes start arrived (scanner.reset.scans bytes start prefixes) := by
  induction prefixes using List.reverseRecOn generalizing arrived with
  | nil => exact .initial scanner bytes start arrived
  | append_singleton prefixes before ih =>
      obtain ⟨hbefore, -, hlast⟩ := List.pairwise_append.1 hgrowing
      have hle := hlast before List.mem_concat_self arrived List.mem_cons_self
      rw [scans, List.foldl_append, List.foldl_cons, List.foldl_nil]
      exact (ih hbefore).scan.mono hle

/-- Whatever the bytes, the start and the limit are, a scanner that is asked again and again while more of
the bytes come, the first time after it was reset, answers as follows.

A line or a fault is final: with the same charge, every longer front of the bytes gives the same answer. A
scan that finds neither leaves the charge as it was; of a limit for each line by itself nothing remains
charged. The lines stand one after the other from the start to where the next scan begins. Up to the first
fault, a limit for all lines has been charged for exactly these lines, which keep to it. A scan faults exactly
if the bytes ahead of it go over the limit, on top of these lines if they share it. -/
theorem scans_growing (scanner : LineScanner) (bytes : Bytes) (start : Nat) (prefixes : List Nat)
    (arrived : Nat) (hgrowing : (prefixes ++ [arrived]).Pairwise (· ≤ ·)) :
    let progress := scanner.reset.scans bytes start prefixes
    let lengths := (progress.lines.map fun line => line.length).sum
    let scanned := progress.scanner.scan (bytes.take arrived) progress.position
    (scanned.2 ≠ .ok none → ∀ later, arrived ≤ later →
      progress.scanner.scan (bytes.take later) progress.position = scanned) ∧
    (scanned.2 = .ok none →
      (scanner.budget = .cumulative → scanned.1 = progress.scanner) ∧
        (scanner.budget = .perLine → scanned.1.charged = 0)) ∧
    Line.Tiles bytes start progress.lines progress.position ∧
    (scanner.budget = .cumulative → progress.failed = false →
      progress.scanner.charged = lengths ∧ lengths ≤ scanner.limit) ∧
    ∀ cause, scanned.2 = .error cause ↔ cause = scanner.tooLong ∧
      scanner.limit < (match scanner.budget with | .perLine => 0 | .cumulative => lengths) +
        Line.ahead (bytes.take arrived) progress.position := by
  intro progress lengths scanned
  have haccounts : Accounts scanner bytes start arrived progress :=
    scans_accounts scanner bytes start hgrowing
  have hbudget := haccounts.budget
  refine ⟨?_, ?_, haccounts.tiles, ?_, ?_⟩
  · intro hfinal later hle
    obtain ⟨more, hmore⟩ := List.take_prefix_take_left (l := bytes) hle
    rw [← hmore]
    exact scan_append hfinal more
  · intro hnone
    rw [scan_none hnone]
    constructor
    · intro hcumulative
      have hbase : progress.scanner.base = progress.scanner.charged := by
        simp only [base, hbudget, hcumulative]
      rw [hbase]
    · intro hperLine
      simp only [base, hbudget, hperLine]
  · intro hcumulative hfailed
    obtain ⟨hle, hcharged⟩ := haccounts.paid hfailed
    simp only [Progress.total, base, hbudget, hcumulative] at hle hcharged
    exact ⟨hcharged, hle⟩
  · intro cause
    have htooLong : progress.scanner.tooLong = scanner.tooLong := by
      simp only [tooLong, hbudget, haccounts.limit]
    have hover := haccounts.over_iff
    rw [Progress.total, hbudget] at hover
    rw [scan_error_iff, htooLong, haccounts.limit, hover]

/-- A CR is no end of a line before the next byte has come. Two lines take up the limit, and then one more
byte goes over it. -/
theorem scans_growing_over_the_limit :
    let scanner : LineScanner := ⟨.cumulative, 5, 3⟩
    let bytes := toBytes "ab\rcde\r\nfg"
    let prefixes := [2, 3, 4, 8]
    let lines : List Line := [⟨⟨0, 2⟩, 3⟩, ⟨⟨3, 6⟩, 8⟩]
    let progress := scanner.reset.scans bytes 0 prefixes
    (prefixes ++ [9]).Pairwise (· ≤ ·) ∧
      (scanner.reset.scans bytes 0 [2, 3]).lines = [] ∧
      progress.lines = lines ∧ Line.Tiles bytes 0 lines 8 ∧ progress.scanner.charged = 5 ∧
      ∀ later, 9 ≤ later →
        progress.scanner.scan (bytes.take later) 8 =
          (⟨.cumulative, 5, 6⟩, .error (.headerTooLong 5)) := by
  intro scanner bytes prefixes lines progress
  have hgrowing : (prefixes ++ [9]).Pairwise (· ≤ ·) := by decide
  have hlines : progress.lines = lines := by decide +kernel
  have hposition : progress.position = 8 := by decide +kernel
  have hscan : progress.scanner.scan (bytes.take 9) 8 =
      (⟨.cumulative, 5, 6⟩, .error (.headerTooLong 5)) := by decide +kernel
  obtain ⟨hfinal, -, htiles, -, -⟩ := scans_growing scanner bytes 0 prefixes 9 hgrowing
  change _ → ∀ later, 9 ≤ later → progress.scanner.scan (bytes.take later) progress.position =
    progress.scanner.scan (bytes.take 9) progress.position at hfinal
  change Line.Tiles bytes 0 progress.lines progress.position at htiles
  rw [hposition, hscan] at hfinal
  rw [hlines, hposition] at htiles
  exact ⟨hgrowing, by decide +kernel, hlines, htiles, by decide +kernel, hfinal (by decide +kernel)⟩

end LineScanner

end HttpWire

import HttpWire.Reader.Registers

/-!
# Line scanners

A line scanner looks for the lines of a buffer, one after the other, and charges their bytes against a
limit. What it has charged stands in a register that a scan writes over: a scan that finds no end of a line
has to leave there what it found, or the same bytes are paid for twice.

- `LineScanner`: the limit, what it is for, and the charge; `LineScanner.scan` looks for one line.
- `Registers.stepStartLine_scan`, `Registers.stepChunkSize_scan`, `Registers.readBlock_scan`: the three
  scanners of a reader in registers.
-/

set_option autoImplicit false

namespace HttpWire

/-- What a limit is for. -/
inductive Budget where
  /-- Each line by itself. -/
  | perLine
  /-- All lines together. -/
  | cumulative
  deriving Repr, DecidableEq

/-- A scanner for lines. -/
structure LineScanner where
  budget : Budget
  limit : Nat
  /-- What was charged to the lines so far. -/
  charged : Nat := 0
  deriving Repr, DecidableEq

namespace LineScanner

/-- Forgets what was charged. -/
def reset (scanner : LineScanner) : LineScanner :=
  { scanner with charged := 0 }

/-- The charge to which a scan adds. A limit for each line by itself has nothing to remember. -/
def base (scanner : LineScanner) : Nat :=
  match scanner.budget with
  | .perLine => 0
  | .cumulative => scanner.charged

/-- The fault of a line that goes over the limit. -/
def tooLong (scanner : LineScanner) : Fault :=
  match scanner.budget with
  | .perLine => .lineTooLong scanner.limit
  | .cumulative => .headerTooLong scanner.limit

/-- Looks for the line that starts at a position. The answer is the line, nothing if its end has not come
yet, or a fault. -/
def scan (scanner : LineScanner) (buffer : Bytes) (start : Nat) :
    LineScanner × Except Fault (Option Line) :=
  let found := Line.scan scanner.limit scanner.base buffer start
  ({ scanner with charged := Registers.chargeAfter scanner.limit scanner.base found },
    match found with
    | .tooLong => .error scanner.tooLong
    | .incomplete => .ok none
    | .found line => .ok (some line))

end LineScanner

/-! ## The scanners of a reader -/

namespace Registers

variable (direction : Direction) (limits : Limits)

/-- The scanner for start lines. -/
def startScanner (registers : Registers) : LineScanner :=
  ⟨.perLine, limits.line, registers.charged⟩

/-- The scanner for chunk-size lines. -/
def sizeScanner (registers : Registers) : LineScanner :=
  ⟨.perLine, limits.line, registers.chunks.charged⟩

/-- The scanner for field lines. -/
def fieldScanner (limit : Nat) (block : FieldBlock) : LineScanner :=
  ⟨.cumulative, limit, block.charged⟩

/-- A start line is looked for by its scanner. -/
theorem stepStartLine_scan (registers : Registers) (buffer : Bytes) :
    registers.stepStartLine direction limits buffer =
      let scanned := (registers.startScanner limits).scan buffer 0
      let registers := { registers with charged := scanned.1.charged }
      match scanned.2 with
      | .ok none => ⟨registers, buffer, [], false⟩
      | .error cause => registers.refuse (.refusedHead (.placeholder direction) cause)
      | .ok (some line) =>
          match StartLine.read direction (line.bytes buffer) with
          | .error cause => registers.refuse (.refusedHead (.placeholder direction) cause)
          | .ok none => ⟨{ registers with mode := .idle }, buffer.drop line.next, [], true⟩
          | .ok (some first) =>
              ⟨{ registers with slot := .assembling { startLine := first }, mode := .header },
                buffer.drop line.next, [], true⟩ := by
  simp only [stepStartLine, LineScanner.scan, LineScanner.base, startScanner]
  cases Line.scan limits.line 0 buffer 0 <;> rfl

/-- A chunk-size line is looked for by its scanner. -/
theorem stepChunkSize_scan (registers : Registers) (buffer : Bytes) :
    registers.stepChunkSize limits buffer =
      let scanned := (registers.sizeScanner limits).scan buffer 0
      let registers :=
        { registers with chunks := { registers.chunks with charged := scanned.1.charged } }
      match scanned.2 with
      | .ok none => ⟨registers, buffer, [], false⟩
      | .error cause => registers.refuse (.refusedContent cause)
      | .ok (some line) =>
          match Chunked.readSize (line.bytes buffer) with
          | .error cause => registers.refuse (.refusedContent cause)
          | .ok size =>
              ⟨{ registers with
                  chunks := { registers.chunks with remaining := size }
                  mode := if size = 0 then .trailer else .chunkData },
                buffer.drop line.next, [], true⟩ := by
  simp only [stepChunkSize, LineScanner.scan, LineScanner.base, sizeScanner]
  cases Line.scan limits.line 0 buffer 0 <;> rfl

/-- The lines of a block are looked for by their scanner, each from the end of the one before it. -/
theorem readBlock_scan (limit : Nat) (strict : Bool) (buffer : Bytes) (block : FieldBlock) :
    readBlock limit strict buffer block =
      let scanned := (fieldScanner limit block).scan buffer block.position
      let charged := scanned.1.charged
      match scanned.2 with
      | .error cause => ({ block with charged }, [], .error cause)
      | .ok none => ({ block with charged }, [], .ok none)
      | .ok (some line) =>
          match FieldBlock.takeLine strict buffer block.pending line with
          | .error cause => ({ block with charged, pending := none }, [], .error cause)
          | .ok (done, none) => (⟨charged, 0, none⟩, done.toList, .ok (some line.next))
          | .ok (done, some spans) =>
              let further := readBlock limit strict buffer ⟨charged, line.next, some spans⟩
              (further.1, done.toList ++ further.2.1, further.2.2) := by
  rw [readBlock]
  simp only [LineScanner.scan, LineScanner.base, LineScanner.tooLong, fieldScanner]
  split <;> rename_i hfound <;> exact hfound ▸ rfl

end Registers

end HttpWire

import HttpWire.Proofs.Leftovers
import HttpWire.Proofs.Registers
import HttpWire.Proofs.StartLines

/-!
# Noise before a message

Between messages a reader passes over padding, and over lines that have too few words to begin a message.
What has been passed over leaves no trace, wherever the bytes were cut: the next message is read as if it
had come first.

- `Noise`: the bytes that are passed over, as they are laid out.
- `Noise.run_append`: a run over noise and what follows it is the run over what follows.
- `Noise.run_front`: a run over a part of the noise reports nothing and is taken up again.
- `Connection.dropFront`: pieces of an input without the bytes at its front.
- `Connection.noise_leaves_no_trace`: noise in any pieces, before any input.
-/

set_option autoImplicit false

namespace HttpWire

open Text Event

/-! ## Events that are not there -/

namespace Event

theorem glue_ne_nil (event : Event) (later : List Event) : glue event later ≠ [] := by
  unfold glue
  split <;> exact List.cons_ne_nil _ _

theorem merge_eq_nil_iff {events : List Event} : merge events = [] ↔ events = [] := by
  cases events with
  | nil => simp
  | cons event events =>
      rw [merge_cons]
      exact iff_of_false (glue_ne_nil _ _) (List.cons_ne_nil _ _)

end Event

/-! ## Noise -/

/-- Padding and lines that are no start lines, in any order. A line begins with a byte that is no padding,
keeps to the limit, has too few words, and has an end that is certain by the noise itself. -/
inductive Noise (direction : Direction) (limits : Limits) : Bytes → Prop
  | nil : Noise direction limits []
  | padding {b : UInt8} {rest : Bytes} (hb : isPadding b = true) (hrest : Noise direction limits rest) :
      Noise direction limits (b :: rest)
  | line {b : UInt8} {text mark rest : Bytes} (hb : isPadding b = false)
      (htext : ∀ c ∈ b :: text, isLineEnd c = false) (hmark : Line.EndMark mark rest)
      (hle : (b :: text).length ≤ limits.line)
      (hfew : (words (b :: text)).length < StartLine.wordsNeeded direction)
      (hrest : Noise direction limits rest) : Noise direction limits ((b :: text) ++ (mark ++ rest))

namespace Noise

variable {direction : Direction} {limits : Limits} {noise seen left : Bytes}

/-- What follows noise is read as if it had come first. -/
theorem run_append (h : Noise direction limits noise) (more : Bytes) :
    Phase.idle.run direction limits (noise ++ more) = Phase.idle.run direction limits more := by
  -- by the layout of the noise: each byte of padding, and each line, is passed over by itself
  induction h with
  | nil => rfl
  | @padding b rest hb _ ih =>
      have hpadding : ∀ c ∈ [b], isPadding c = true := by simpa using hb
      rw [List.cons_append, ← List.singleton_append, Phase.run_idle_padding hpadding, ih]
  | @line b text mark rest hb htext hmark hle hfew _ ih =>
      have hread : StartLine.read direction (b :: text) = .ok none :=
        StartLine.read_eq_none_iff.2 hfew
      have hbegins : Phase.step direction limits .idle ((b :: text) ++ (mark ++ (rest ++ more))) =
          .proceed .startLine ((b :: text) ++ (mark ++ (rest ++ more))) [] :=
        (@Phase.Move.beginning direction limits [] _ b nofun hb).step_eq
      have hdropped : Phase.step direction limits .startLine
          ((b :: text) ++ (mark ++ (rest ++ more))) = .proceed .idle (rest ++ more) [] := by
        rw [Phase.step_startLine htext (hmark.append more) hle, hread]
        rfl
      rw [List.append_assoc, List.append_assoc, Phase.run_of_proceed hbegins,
        Phase.run_of_proceed hdropped, ih]
      rfl

theorem run_eq (h : Noise direction limits noise) :
    Phase.idle.run direction limits noise = ⟨.idle, [], []⟩ := by
  have hrun := h.run_append []
  rw [List.append_nil] at hrun
  rw [hrun, Phase.run_of_wait (Phase.Move.padding (by simp)).step_eq]

/-- A part of noise is not reported, and a run over it is taken up again where it stopped. -/
theorem run_front (h : Noise direction limits (seen ++ left)) (hvalid : limits.Valid) :
    (Phase.idle.run direction limits seen).events = [] ∧
      ∀ more : Bytes, Phase.idle.run direction limits (seen ++ more) =
        (Phase.idle.run direction limits seen).phase.run direction limits
          ((Phase.idle.run direction limits seen).rest ++ more) := by
  have hquiet : (Phase.idle.run direction limits seen).events = [] := by
    have hsound : Phase.idle.Sound seen := trivial
    have hsame := (Phase.run_append direction hvalid hsound left).events
    rw [h.run_eq, merge_nil] at hsame
    exact (List.append_eq_nil_iff.1 (merge_eq_nil_iff.1 hsame.symm)).1
  exact ⟨hquiet, (Phase.run_quiet (.idle seen) hquiet).2⟩

end Noise

/-! ## Connections at rest -/

namespace Connection

/-- A connection between messages, with nothing that waits and nothing that was asked for. -/
structure AtRest (connection : Connection) : Prop where
  phase : connection.phase = .idle
  buffer : connection.buffer = []
  reset : connection.reader.resetRequested = false

variable {connection : Connection}

/-- A connection at rest is what a run that found nothing leaves behind. -/
theorem AtRest.afterRun_idle (h : connection.AtRest) :
    connection.afterRun ⟨.idle, [], []⟩ = connection := by
  obtain ⟨⟨direction, limits, valid, phase, resetRequested⟩, buffer⟩ := connection
  obtain ⟨rfl, rfl, rfl⟩ := h
  rfl

theorem AtRest.push (h : connection.AtRest) (bytes : Bytes) :
    let run := Phase.idle.run connection.reader.direction connection.reader.limits bytes
    connection.push bytes = (connection.afterRun run, run.events) := by
  obtain ⟨⟨direction, limits, valid, phase, resetRequested⟩, buffer⟩ := connection
  obtain ⟨rfl, rfl, rfl⟩ := h
  rfl

theorem AtRest.push_nil (h : connection.AtRest) : connection.push [] = (connection, []) := by
  rw [h.push, (Noise.nil).run_eq, h.afterRun_idle]

theorem AtRest.push_pieces (h : connection.AtRest) (pieces : List Bytes) :
    connection.after (pieces.map .push) = (connection.push pieces.flatten).1 ∧
      merge (connection.events (pieces.map .push)) = merge (connection.push pieces.flatten).2 := by
  cases pieces with
  | nil =>
      rw [List.flatten_nil, h.push_nil]
      exact ⟨rfl, rfl⟩
  | cons first pieces =>
      have hsound : connection.Sound := by
        unfold Connection.Sound
        rw [h.phase]
        trivial
      exact Connection.push_pieces hsound first pieces

/-- The pieces of an input without the first bytes of the input. A piece of which nothing is left stays as
an empty one. -/
def dropFront : Nat → List Bytes → List Bytes
  | _, [] => []
  | count, piece :: pieces => piece.drop count :: dropFront (count - piece.length) pieces

theorem dropFront_zero (pieces : List Bytes) : dropFront 0 pieces = pieces := by
  induction pieces with
  | nil => rfl
  | cons piece pieces ih => rw [dropFront, List.drop_zero, Nat.zero_sub, ih]

theorem flatten_dropFront (count : Nat) (pieces : List Bytes) :
    (dropFront count pieces).flatten = pieces.flatten.drop count := by
  induction pieces generalizing count with
  | nil => simp [dropFront]
  | cons piece pieces ih => rw [dropFront, List.flatten_cons, ih, List.flatten_cons, List.drop_append]

/-- A connection that has seen a part of some noise, and is given the rest of it and an input in pieces,
does what a connection at rest does that is given the input in pieces of its own. -/
theorem AtRest.after_dropFront (h : connection.AtRest) {seen left input : Bytes}
    (hnoise : Noise connection.reader.direction connection.reader.limits (seen ++ left))
    {pieces : List Bytes} (hpieces : pieces.flatten = left ++ input) :
    let within := connection.afterRun
      (Phase.idle.run connection.reader.direction connection.reader.limits seen)
    within.after (pieces.map .push) = connection.after ((dropFront left.length pieces).map .push) ∧
      within.events (pieces.map .push) =
        connection.events ((dropFront left.length pieces).map .push) := by
  intro within
  -- by the pieces, for any part of the noise that the pieces before them held
  induction pieces generalizing seen left with
  | nil =>
      obtain ⟨rfl, rfl⟩ := List.append_eq_nil_iff.1 hpieces.symm
      rw [List.append_nil] at hnoise
      have hwithin : within = connection := by
        simp only [within, hnoise.run_eq, h.afterRun_idle]
      rw [hwithin]
      exact ⟨rfl, rfl⟩
  | cons first pieces ih =>
      rw [List.flatten_cons] at hpieces
      obtain ⟨-, hresume⟩ := hnoise.run_front connection.reader.valid
      have hpush : ∀ more : Bytes,
          let run := Phase.idle.run connection.reader.direction connection.reader.limits (seen ++ more)
          within.push more = (connection.afterRun run, run.events) := by
        intro more run
        simp only [run, hresume more]
        rfl
      rcases List.append_eq_append_iff.1 hpieces with ⟨later, rfl, hlater⟩ | ⟨front, rfl, hfront⟩
      · -- the piece holds noise alone, so its counterpart is empty
        rw [← List.append_assoc] at hnoise
        obtain ⟨hafter, hevents⟩ := ih hnoise hlater
        have hdrop : dropFront (first ++ later).length (first :: pieces) =
            [] :: dropFront later.length pieces := by
          rw [dropFront, List.length_append, Nat.add_sub_cancel_left, List.drop_eq_nil_of_le (by omega)]
        simp only [hdrop, List.map_cons, after, events, call, hpush first, h.push_nil,
          (hnoise.run_front connection.reader.valid).1]
        exact ⟨hafter, hevents⟩
      · -- the noise ends in the piece, and from then on both are the same
        have hdrop : dropFront left.length ((left ++ front) :: pieces) = front :: pieces := by
          rw [dropFront, List.drop_left, List.length_append, Nat.sub_eq_zero_of_le (by omega),
            dropFront_zero]
        have hsame : within.push (left ++ front) = connection.push front := by
          simp only [hpush, h.push front]
          rw [← List.append_assoc, hnoise.run_append]
        simp only [hdrop, List.map_cons, after, events, call, hsame, and_self]

/-- Calls that a connection cannot tell apart are not told apart by a reader that keeps registers for it,
whatever charge of an earlier line these hold. -/
theorem AtRest.mirrored (h : connection.AtRest) {stream : RegisterStream}
    (hmirrors : stream.Mirrors connection) {calls others : List Call}
    (hafter : connection.after calls = connection.after others)
    (hevents : connection.events calls = connection.events others) :
    stream.events calls = stream.events others ∧
      (stream.after calls).registers.mode = (stream.after others).registers.mode ∧
      (stream.after calls).registers.bodyLength? = (stream.after others).registers.bodyLength? ∧
      (stream.after calls).buffer = (stream.after others).buffer := by
  have hremains : connection.phase.Remains := by
    rw [h.phase]
    trivial
  obtain ⟨hleft, hreported⟩ := hmirrors.after hremains calls
  obtain ⟨hleft', hreported'⟩ := hmirrors.after hremains others
  refine ⟨?_, ?_, ?_, ?_⟩
  · rw [hreported, hreported', hevents]
  · rw [hleft.registers.mode, hleft'.registers.mode, hafter]
  · rw [hleft.registers.bodyLength?, hleft'.registers.bodyLength?, hafter]
  · rw [hleft.buffer, hleft'.buffer, hafter]

/-- Noise leaves no trace. A connection at rest that is given noise and an input does what it does if it is
given the input alone.

In one piece nothing differs. In any pieces, the events are exactly those of the pieces without the noise;
pieces of the input that are cut elsewhere give the same events up to the size of body pieces and of raw
pieces. The connection is the same in the end, and so are the mode, the length of the body at hand and the
bytes that wait in a reader that keeps registers, whatever is left in these of the lines that were dropped. -/
theorem noise_leaves_no_trace {noise : Bytes} (hrest : connection.AtRest)
    (hnoise : Noise connection.reader.direction connection.reader.limits noise) (input : Bytes) :
    connection.push (noise ++ input) = connection.push input ∧
    ∀ pieces : List Bytes, pieces.flatten = noise ++ input →
      let others := dropFront noise.length pieces
      (others.flatten = input ∧
        connection.after (pieces.map .push) = connection.after (others.map .push) ∧
        connection.events (pieces.map .push) = connection.events (others.map .push)) ∧
      (∀ others : List Bytes, others.flatten = input →
        connection.after (pieces.map .push) = connection.after (others.map .push) ∧
        merge (connection.events (pieces.map .push)) = merge (connection.events (others.map .push))) ∧
      ∀ stream : RegisterStream, stream.Mirrors connection →
        let left := stream.after (pieces.map .push)
        let left' := stream.after (others.map .push)
        stream.events (pieces.map .push) = stream.events (others.map .push) ∧
          left.registers.mode = left'.registers.mode ∧
          left.registers.bodyLength? = left'.registers.bodyLength? ∧ left.buffer = left'.buffer := by
  have hpush : connection.push (noise ++ input) = connection.push input := by
    rw [hrest.push, hrest.push, hnoise.run_append]
  refine ⟨hpush, ?_⟩
  intro pieces hpieces others
  have hflatten : others.flatten = input := by
    rw [flatten_dropFront, hpieces, List.drop_left]
  have hnothing : connection.afterRun
      (Phase.idle.run connection.reader.direction connection.reader.limits []) = connection := by
    rw [(Noise.nil).run_eq, hrest.afterRun_idle]
  obtain ⟨hafter, hevents⟩ := @AtRest.after_dropFront _ hrest [] _ _ hnoise _ hpieces
  rw [hnothing] at hafter hevents
  refine ⟨⟨hflatten, hafter, hevents⟩, ?_, ?_⟩
  · -- up to the size of pieces, both are the input in one piece
    rintro others' rfl
    obtain ⟨hwhole, hmerge⟩ := hrest.push_pieces pieces
    obtain ⟨hwhole', hmerge'⟩ := hrest.push_pieces others'
    rw [hwhole, hmerge, hwhole', hmerge', hpieces, hpush]
    exact ⟨rfl, rfl⟩
  · intro stream hmirrors left left'
    exact hrest.mirrored hmirrors hafter hevents

/-- Two short lines before a request, the first of them cut behind the CR that ends it, and a reader in
registers that was left with the charge of an earlier line. -/
theorem noise_leaves_no_trace_cut_after_cr :
    let new : Connection := { reader := ⟨.request, {}, by decide, .idle, false⟩ }
    let stream : RegisterStream :=
      { direction := .request, limits := {}, registers := { charged := 7 } }
    let noise := toBytes "\r\nfoo bar\rx\n"
    let input := toBytes "GET / HTTP/1.1\r\n\r\n"
    let pieces := [toBytes "\r\nfoo", toBytes " bar\r", toBytes "x\nGE", toBytes "T / HTTP/1.1\r\n\r\n"]
    let others := [[], [], toBytes "GE", toBytes "T / HTTP/1.1\r\n\r\n"]
    new.AtRest ∧ Noise .request {} noise ∧ pieces.flatten = noise ++ input ∧ stream.Mirrors new ∧
      new.push (noise ++ input) = new.push input ∧
      new.events (pieces.map .push) = new.events (others.map .push) ∧
      stream.events (pieces.map .push) = stream.events (others.map .push) := by
  intro new stream noise input pieces others
  have hrest : new.AtRest := ⟨rfl, rfl, rfl⟩
  have hline : Noise .request {} (toBytes "x\n") :=
    @Noise.line .request {} 120 [] [lf] [] (by decide) (by decide) (.ofLf []) (by decide)
      (by decide +kernel) .nil
  have hcut : Noise .request {} (toBytes "foo bar\rx\n") :=
    @Noise.line .request {} 102 (toBytes "oo bar") [cr] (toBytes "x\n") (by decide) (by decide +kernel)
      (.ofCr (by decide) [lf]) (by decide +kernel) (by decide +kernel) hline
  have hnoise : Noise .request {} noise := .padding (by decide) (.padding (by decide) hcut)
  have hpieces : pieces.flatten = noise ++ input := by decide +kernel
  have hmirrors : stream.Mirrors new := ⟨rfl, rfl, rfl, rfl, .idle 7⟩
  have hothers : dropFront noise.length pieces = others := by decide +kernel
  obtain ⟨hpush, hall⟩ := noise_leaves_no_trace hrest hnoise input
  obtain ⟨⟨-, -, hevents⟩, -, hregisters⟩ := hall pieces hpieces
  rw [hothers] at hevents hregisters
  exact ⟨hrest, hnoise, hpieces, hmirrors, hpush, hevents, (hregisters stream hmirrors).1⟩

end Connection

end HttpWire

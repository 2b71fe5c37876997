import HttpWire.Proofs.History

/-!
# A message that is forgotten leaves nothing

A reader that forgets the message at hand, and one that is between messages, cannot be told from a
new reader, whatever it has been through. The comparison covers every use of a reader: its buffer
belongs to its owner, who may put any bytes into it between two calls.

- `Use`: what the owner of a reader can do; `Connection.answers`: what the calls that read answer.
- `Connection.Alike`: connections that the next call cannot tell apart. `Alike.use` says that a use
  keeps them alike and is answered in the same way, `Alike.answers` the same of all uses.
- `Connection.forgotten_like_new`: a reader that forgets its message answers as a new one.
-/

set_option autoImplicit false

namespace HttpWire

open Text

/-! ## Uses of a reader -/

/-- What the owner of a reader can do. Before the buffer is read, the owner may make anything of
what was left in it: put bytes behind it, or others in its place. -/
inductive Use where
  /-- The buffer is read. -/
  | feed (refill : Bytes → Bytes)
  /-- The buffer is read, and no more bytes will come. -/
  | close (refill : Bytes → Bytes)
  /-- The message at hand is to be forgotten. -/
  | requestReset
  /-- The rest of a body is to be forgotten. -/
  | declineBody

/-- Whether a use reads the buffer. -/
def Use.reads : Use → Bool
  | feed _ => true
  | close _ => true
  | requestReset => false
  | declineBody => false

namespace Connection

/-- What a use leaves behind, and its answer if it reads. -/
def use (connection : Connection) : Use → Connection × List Reader.Answer
  | .feed refill =>
      let answer := connection.reader.feed (refill connection.buffer)
      (⟨answer.reader, answer.rest⟩, [answer])
  | .close refill =>
      let answer := connection.reader.close (refill connection.buffer)
      (⟨answer.reader, answer.rest⟩, [answer])
  | .requestReset => (connection.requestReset, [])
  | .declineBody => (connection.declineBody, [])

/-- The connection after some uses. -/
def afterUses (connection : Connection) : List Use → Connection
  | [] => connection
  | use :: uses => (connection.use use).1.afterUses uses

/-- The answers of some uses. Each holds the reader, with its phase, the bytes that it left and the
events that it reported. -/
def answers (connection : Connection) : List Use → List Reader.Answer
  | [] => []
  | use :: uses => (connection.use use).2 ++ (connection.use use).1.answers uses

theorem afterUses_append (connection : Connection) (uses more : List Use) :
    connection.afterUses (uses ++ more) = (connection.afterUses uses).afterUses more := by
  induction uses generalizing connection with
  | nil => rfl
  | cons use uses ih => exact ih (connection.use use).1

end Connection

/-! ## Readers that the next call cannot tell apart -/

namespace Reader

/-- What a call reads depends on the direction, the limits and the phase in which it begins. -/
theorem feed_congr {first second : Reader} (hdirection : first.direction = second.direction)
    (hlimits : first.limits = second.limits)
    (hphase : first.currentPhase = second.currentPhase) (buffer : Bytes) :
    first.feed buffer = second.feed buffer := by
  obtain ⟨direction, limits, valid, phase, resetRequested⟩ := first
  obtain ⟨direction', limits', valid', phase', resetRequested'⟩ := second
  cases hdirection
  cases hlimits
  simp only [feed, hphase]

theorem close_congr {first second : Reader} (hdirection : first.direction = second.direction)
    (hlimits : first.limits = second.limits)
    (hphase : first.currentPhase = second.currentPhase) (buffer : Bytes) :
    first.close buffer = second.close buffer := by
  simp only [close, feed_congr hdirection hlimits hphase]

/-- Calling off a body changes the next call only if that call would have begun in the body. -/
theorem currentPhase_declineBody (reader : Reader) :
    reader.declineBody.currentPhase =
      if reader.currentPhase.canDeclineBody = true then .idle else reader.currentPhase := by
  obtain ⟨direction, limits, valid, phase, resetRequested⟩ := reader
  cases resetRequested with
  | true =>
      simp only [declineBody, requestReset, currentPhase, ite_self, if_true]
  | false =>
      simp only [declineBody, currentPhase, Bool.false_eq_true, if_false]
      split <;> rfl

theorem currentPhase_of_idle {reader : Reader} (h : reader.phase = .idle) :
    reader.currentPhase = .idle := by
  unfold currentPhase
  split
  · rfl
  · exact h

theorem phase_declineBody (reader : Reader) : reader.declineBody.phase = reader.phase := by
  simp only [declineBody]
  split <;> rfl

end Reader

namespace Connection

/-- Two connections that the next call cannot tell apart: it begins in the same phase, within the
same limits, on the same bytes. -/
structure Alike (first second : Connection) : Prop where
  direction : first.reader.direction = second.reader.direction
  limits : first.reader.limits = second.reader.limits
  phase : first.reader.currentPhase = second.reader.currentPhase
  buffer : first.buffer = second.buffer

namespace Alike

variable {first second : Connection}

theorem refl (connection : Connection) : connection.Alike connection :=
  ⟨rfl, rfl, rfl, rfl⟩

/-- A use keeps connections alike, and is answered in the same way. -/
theorem use (h : first.Alike second) (use : Use) :
    (first.use use).1.Alike (second.use use).1 ∧ (first.use use).2 = (second.use use).2 := by
  cases use with
  | feed refill =>
      have hfeed := Reader.feed_congr h.direction h.limits h.phase (refill second.buffer)
      simp only [Connection.use, h.buffer, hfeed]
      exact ⟨refl _, trivial⟩
  | close refill =>
      have hclose := Reader.close_congr h.direction h.limits h.phase (refill second.buffer)
      simp only [Connection.use, h.buffer, hclose]
      exact ⟨refl _, trivial⟩
  | requestReset => exact ⟨⟨h.direction, h.limits, rfl, h.buffer⟩, rfl⟩
  | declineBody =>
      obtain ⟨hdirection, hlimits⟩ := call_reader first .declineBody
      obtain ⟨hdirection', hlimits'⟩ := call_reader second .declineBody
      refine ⟨⟨?_, ?_, ?_, h.buffer⟩, rfl⟩
      · exact hdirection.trans (h.direction.trans hdirection'.symm)
      · exact hlimits.trans (h.limits.trans hlimits'.symm)
      · simp only [Connection.use, declineBody, Reader.currentPhase_declineBody, h.phase]

theorem answers (h : first.Alike second) (uses : List Use) :
    first.answers uses = second.answers uses := by
  induction uses generalizing first second with
  | nil => rfl
  | cons use uses ih =>
      obtain ⟨halike, hanswer⟩ := h.use use
      simp only [Connection.answers, hanswer, ih halike]

end Alike

/-! ## Forgetting -/

theorem use_reader (connection : Connection) (use : Use) :
    (connection.use use).1.reader.direction = connection.reader.direction ∧
      (connection.use use).1.reader.limits = connection.reader.limits := by
  cases use with
  | feed refill => exact ⟨rfl, rfl⟩
  | close refill => exact call_reader ⟨connection.reader, refill connection.buffer⟩ .close
  | requestReset => exact ⟨rfl, rfl⟩
  | declineBody => exact call_reader connection .declineBody

theorem afterUses_reader (connection : Connection) (uses : List Use) :
    (connection.afterUses uses).reader.direction = connection.reader.direction ∧
      (connection.afterUses uses).reader.limits = connection.reader.limits := by
  induction uses generalizing connection with
  | nil => exact ⟨rfl, rfl⟩
  | cons use uses ih =>
      obtain ⟨hdirection, hlimits⟩ := use_reader connection use
      obtain ⟨hdirection', hlimits'⟩ := ih (connection.use use).1
      exact ⟨hdirection'.trans hdirection, hlimits'.trans hlimits⟩

/-- The next call forgets the message at hand if that was asked for since the last one, be it by
calling off a body that can be called off. -/
theorem currentPhase_afterUses {connection : Connection} {asks : List Use}
    (hasks : ∀ use ∈ asks, use.reads = false)
    (hforgets : .requestReset ∈ asks ∨
      (.declineBody ∈ asks ∧ connection.phase.canDeclineBody = true) ∨
      connection.reader.currentPhase = .idle) :
    (connection.afterUses asks).reader.currentPhase = .idle := by
  -- what has been asked for stays so, and what has not is asked for by a later use
  induction asks generalizing connection with
  | nil =>
      rcases hforgets with hrequest | ⟨hdecline, -⟩ | hidle
      · cases hrequest
      · cases hdecline
      · exact hidle
  | cons use asks ih =>
      obtain ⟨hreads, hlater⟩ := List.forall_mem_cons.1 hasks
      cases use with
      | feed refill => cases hreads
      | close refill => cases hreads
      | requestReset => exact ih hlater (.inr (.inr rfl))
      | declineBody =>
          refine ih hlater ?_
          have hphase : (connection.use .declineBody).1.phase = connection.phase :=
            Reader.phase_declineBody connection.reader
          have hcurrent : (connection.use .declineBody).1.reader.currentPhase =
              if connection.reader.currentPhase.canDeclineBody = true then .idle
              else connection.reader.currentPhase :=
            Reader.currentPhase_declineBody connection.reader
          rw [hphase, hcurrent]
          rcases hforgets with hrequest | ⟨-, hdecline⟩ | hidle
          · exact .inl (by simpa using hrequest)
          · refine .inr (.inr ?_)
            unfold Reader.currentPhase
            split
            · rfl
            · exact if_pos hdecline
          · rw [hidle]
            exact .inr (.inr rfl)

/-- A message that is forgotten leaves nothing, and neither does one that is complete. After any
uses, if the message at hand is asked to be forgotten before the next call, or its body is called
off where that can be done, or if the reader is between messages anyhow, the reader answers every
further use, on every buffer, as a new one: with the same events, phases and bytes left. Where a
body cannot be called off, trying to do so has no effect. -/
theorem forgotten_like_new {direction : Direction} {limits : Limits} {new : Connection}
    (hstart : start direction limits = .ok new) (uses : List Use) :
    (∀ asks : List Use, (∀ use ∈ asks, use.reads = false) →
      (.requestReset ∈ asks ∨
        (.declineBody ∈ asks ∧ (new.afterUses uses).phase.canDeclineBody = true) ∨
        (new.afterUses uses).phase = .idle) →
      ∀ (buffer : Bytes) (later : List Use),
        (⟨(new.afterUses (uses ++ asks)).reader, buffer⟩ : Connection).answers later =
          (⟨new.reader, buffer⟩ : Connection).answers later) ∧
    ((new.afterUses uses).phase.canDeclineBody = false →
      (new.afterUses uses).use .declineBody = (new.afterUses uses, [])) := by
  obtain ⟨valid, rfl⟩ := start_eq hstart
  refine ⟨?_, ?_⟩
  · intro asks hasks hforgets buffer later
    obtain ⟨hdirection, hlimits⟩ :=
      afterUses_reader { reader := { direction, limits, valid } } (uses ++ asks)
    have hcurrent := currentPhase_afterUses hasks
      (hforgets.imp_right (Or.imp_right Reader.currentPhase_of_idle))
    rw [← afterUses_append] at hcurrent
    have halike : (⟨(Connection.afterUses { reader := { direction, limits, valid } }
        (uses ++ asks)).reader, buffer⟩ : Connection).Alike
          ⟨{ direction, limits, valid }, buffer⟩ := ⟨hdirection, hlimits, hcurrent, rfl⟩
    exact halike.answers later
  · intro hdecline
    have hsame : ∀ {reader : Reader}, reader.phase.canDeclineBody = false →
        reader.declineBody = reader := by
      intro reader hreader
      simp only [Reader.declineBody, hreader, Bool.false_eq_true, if_false]
    simp only [use, declineBody, hsame hdecline]

/-- A chunked response is called off at a size line, and then cut short inside the next message,
whose bytes take the place of what was left. -/
theorem forgotten_like_new_at_chunk_size :
    let new : Connection := { reader := ⟨.response, {}, by decide, .idle, false⟩ }
    let uses : List Use := [.feed fun left =>
      left ++ toBytes "HTTP/1.1 200 OK\r\nTransfer-Encoding: chunked\r\n\r\n5"]
    let later : List Use :=
      [.declineBody, .close fun _ => toBytes "HTTP/1.1 200 OK\r\nContent-Length: 9\r\n\r\nabc"]
    start .response {} = .ok new ∧
      (new.afterUses uses).phase.canDeclineBody = true ∧
      (⟨(new.afterUses (uses ++ [.declineBody])).reader, [lf]⟩ : Connection).answers later =
        (⟨new.reader, [lf]⟩ : Connection).answers later ∧
      (new.afterUses []).phase.canDeclineBody = false ∧
      (new.afterUses []).use .declineBody = (new.afterUses [], []) := by
  intro new uses later
  have hstart : start .response {} = .ok new := rfl
  have hdecline : (new.afterUses uses).phase.canDeclineBody = true := by decide +kernel
  have hasks : ∀ use ∈ [Use.declineBody], use.reads = false :=
    List.forall_mem_singleton.2 rfl
  exact ⟨hstart, hdecline,
    (forgotten_like_new hstart uses).1 [.declineBody] hasks
      (.inr (.inl ⟨List.mem_singleton_self _, hdecline⟩)) [lf] later,
    rfl, (forgotten_like_new hstart []).2 rfl⟩

end Connection

end HttpWire

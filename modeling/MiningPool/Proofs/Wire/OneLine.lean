import MiningPool.Connection
import MiningPool.Proofs.Wire.ReadBack
import MiningPool.Proofs.Wire.Unheard

/-!
# One message, one line

Whatever a message holds, it is written as one line: strings are escaped so that no line feed of theirs gets through,
and the only one is put behind the text. So whoever cuts at line feeds finds as many lines as there were messages,
each with the text of its own message (`endedLines_writeAll`). A miner chooses the id of its request, the parameters
that are echoed and the id of the job it names, but not how many lines the pool answers it with.
-/

namespace MiningPool.Wire

open Json

/-- Writes a message behind what a buffer holds. -/
def Message.writeTo (m : Message) (buffer : Bytes) : Bytes := buffer ++ m.bytes

/-- Writes messages one after the other. -/
def writeAll (ms : List Message) (buffer : Bytes) : Bytes := ms.foldl (fun written m => m.writeTo written) buffer

/-- Messages written one after the other are written as one piece. -/
theorem writeAll_eq (ms : List Message) (buffer : Bytes) : writeAll ms buffer = buffer ++ ms.flatMap Message.bytes := by
  rw [writeAll]
  induction ms generalizing buffer with
  | nil => rw [List.foldl_nil, List.flatMap_nil, List.append_nil]
  | cons m ms ih => rw [List.foldl_cons, ih, Message.writeTo, List.append_assoc, List.flatMap_cons]

/-- **The one control byte of a message is a line feed.** -/
theorem control_bytes (m : Message) : m.bytes.filter (·.toNat < 0x20) = [lineFeed] := by
  obtain ⟨text, hbytes, htext⟩ := isLine_bytes m
  have hnone : text.filter (·.toNat < 0x20) = [] := by
    refine List.filter_eq_nil_iff.mpr fun b hb => ?_
    rw [decide_eq_true_eq]
    exact Nat.not_lt.mpr (htext b hb)
  rw [hbytes, List.filter_append, hnone]
  rfl

/-! ## Lines of a buffer -/

/-- A message ends the line that had begun, if one had, and begins no other. -/
theorem segments_writeTo (m : Message) (buffer : Bytes) :
    segments (m.writeTo buffer) = endedLines buffer ++ [unended buffer ++ m.toJson.bytes] ++ [[]] := by
  obtain ⟨hunended, hcut⟩ := segments_cut buffer
  have hline : lineFeed ∉ unended buffer ++ m.toJson.bytes := by
    rw [List.mem_append]
    exact not_or.mpr ⟨hunended, not_mem_bytes m.toJson⟩
  rw [Message.writeTo, hcut, m.bytes_eq, ← List.append_assoc, segments_line hline, List.append_assoc]
  rfl

theorem endedLines_writeTo (m : Message) (buffer : Bytes) :
    endedLines (m.writeTo buffer) = endedLines buffer ++ [unended buffer ++ m.toJson.bytes] := by
  rw [endedLines, segments_writeTo, List.dropLast_concat]

theorem unended_writeTo (m : Message) (buffer : Bytes) : unended (m.writeTo buffer) = [] := by
  rw [unended, segments_writeTo, List.getLastD_concat]

/-- **Messages are found again as the lines of what was written**, behind lines that have ended. -/
theorem endedLines_writeAll (ms : List Message) {buffer : Bytes} (h : unended buffer = []) :
    endedLines (writeAll ms buffer) = endedLines buffer ++ ms.map (·.toJson.bytes)
      ∧ unended (writeAll ms buffer) = [] := by
  induction ms generalizing buffer with
  | nil => exact ⟨(List.append_nil _).symm, h⟩
  | cons m ms ih =>
      obtain ⟨hlines, hrest⟩ := ih (unended_writeTo m buffer)
      refine ⟨?_, hrest⟩
      rw [endedLines_writeTo, h, List.nil_append, List.append_assoc] at hlines
      exact hlines

/-! ## What a miner is answered with -/

/-- What is written for a request is its reply, and behind it what follows it. -/
theorem phase_serve (source : Source) (p : Pool) (c : Connection) (r : Request) :
    ∃ afterwards, (c.serve source p r).connection.phase
      = .writing (writeAll ((p.answer source c.session r).messages r.id) []) afterwards := by
  rw [writeAll_eq]
  exact ⟨_, rfl⟩

/--
**One message is one line.**

Writing a message leaves what a buffer holds as it is and puts bytes behind it of which the last is a line feed, and no
other is below 0x20. So one line ends, and none begins: what had begun ends with the text of the message, and all lines
before it stay. Of all that is written for a request the lines are those of its reply and of the messages that follow
it, one for each, whatever the miner put into the request.
-/
theorem one_message_one_line (m : Message) (buffer : Bytes) :
    (m.writeTo buffer).take buffer.length = buffer
      ∧ ((m.writeTo buffer).drop buffer.length).filter (·.toNat < 0x20) = [lineFeed]
      ∧ ((m.writeTo buffer).drop buffer.length).getLast? = some lineFeed
      ∧ endedLines (m.writeTo buffer) = endedLines buffer ++ [unended buffer ++ m.toJson.bytes]
      ∧ unended (m.writeTo buffer) = []
      ∧ ∀ source p (c : Connection) r, ∃ bytes afterwards,
          (c.serve source p r).connection.phase = .writing bytes afterwards
            ∧ endedLines bytes = ((p.answer source c.session r).messages r.id).map (·.toJson.bytes)
            ∧ unended bytes = [] := by
  have hadded : (m.writeTo buffer).drop buffer.length = m.bytes := List.drop_left
  rw [hadded]
  refine ⟨List.take_left, control_bytes m, ?_, endedLines_writeTo m buffer, unended_writeTo m buffer, ?_⟩
  · rw [m.bytes_eq, List.getLast?_concat]
  · intro source p c r
    obtain ⟨afterwards, hphase⟩ := phase_serve source p c r
    obtain ⟨hlines, hrest⟩ := endedLines_writeAll ((p.answer source c.session r).messages r.id)
      (show unended [] = [] from rfl)
    exact ⟨_, afterwards, hphase, hlines, hrest⟩

end MiningPool.Wire

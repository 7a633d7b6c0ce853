import Mathlib.Data.List.Basic
import MiningPool.Proofs.Wire.Framing
import MiningPool.Wire.Reading

/-!
# Line feed, or carriage return and line feed

A carriage return before the line feed is white space at the end of its segment, so a line reads the same with it
and without it. But the limit is compared with the segment, and there the carriage return is one byte more. So the
two endings part at one length only: a line of as many bytes as the limit is read if a line feed ends it, and is too
large if a carriage return comes before (`reads_alike_iff_none_at_limit`).
-/

namespace MiningPool.Wire

def carriageReturn : UInt8 := 0x0D

/-- Lines one behind the other, each with the same ending. -/
def ended (ending : Bytes) (lines : List Bytes) : Bytes := lines.flatMap (· ++ ending)

variable {α : Type} {limit : Nat} {read : Bytes → Option α} {lines : List Bytes}

/-! ## White space at the end of a line -/

theorem trim_append_space {b : UInt8} (h : isSpace b = true) (line : Bytes) : trim (line ++ [b]) = trim line := by
  rw [trim, trim, List.dropWhile_append]
  by_cases hblank : (line.dropWhile isSpace).isEmpty
  · rw [if_pos hblank, List.dropWhile_cons_of_pos h, List.isEmpty_iff.mp hblank]
    rfl
  · rw [if_neg hblank, List.reverse_append, List.reverse_singleton, List.singleton_append,
      List.dropWhile_cons_of_pos h]

theorem readLine_carriageReturn (read : Bytes → Option α) (line : Bytes) :
    readLine read (line ++ [carriageReturn]) = readLine read line := by
  rw [readLine, readLine, trim_append_space (by decide)]

/-- A carriage return at the end of a segment matters at one length only. -/
theorem readSegment_carriageReturn (limit : Nat) (read : Bytes → Option α) (line : Bytes) :
    readSegment limit read (line ++ [carriageReturn])
      = if line.length = limit then some (.faulty (.tooLarge limit)) else readSegment limit read line := by
  rw [readSegment, readSegment, readLine_carriageReturn, List.length_append, List.length_singleton]
  rcases Nat.lt_trichotomy line.length limit with hlt | heq | hgt
  · rw [if_neg (by omega), if_neg (by omega), if_neg (by omega)]
  · rw [if_pos (by omega), if_pos heq]
  · rw [if_pos (by omega), if_neg (by omega), if_pos hgt]

/-! ## Streams of ended lines -/

/-- Lines with the same bytes before each line feed: those bytes are read with their line. -/
theorem items_ended (limit : Nat) (read : Bytes → Option α) {extra : Bytes} (hextra : lineFeed ∉ extra)
    (hlines : ∀ line ∈ lines, lineFeed ∉ line) :
    items limit read (ended (extra ++ [lineFeed]) lines)
      = lines.filterMap fun line => readSegment limit read (line ++ extra) := by
  induction lines with
  | nil => rfl
  | cons line lines ih =>
      have hsegment : lineFeed ∉ line ++ extra := by
        rw [List.mem_append]
        exact not_or.mpr ⟨hlines line List.mem_cons_self, hextra⟩
      have hstream : ended (extra ++ [lineFeed]) (line :: lines)
          = (line ++ extra) ++ lineFeed :: ended (extra ++ [lineFeed]) lines := by
        simp only [ended, List.flatMap_cons, List.append_assoc, List.singleton_append]
      rw [hstream, items, segments_line hsegment, List.filterMap_cons, List.filterMap_cons,
        ← ih fun l hl => hlines l (List.mem_cons_of_mem line hl)]
      rfl

theorem items_lineFeed (limit : Nat) (read : Bytes → Option α) (hlines : ∀ line ∈ lines, lineFeed ∉ line) :
    items limit read (ended [lineFeed] lines) = lines.filterMap (readSegment limit read) := by
  have hextra : lineFeed ∉ [] := List.not_mem_nil
  have hitems := items_ended limit read hextra hlines
  simpa only [List.nil_append, List.append_nil] using hitems

theorem items_carriageReturn (limit : Nat) (read : Bytes → Option α) (hlines : ∀ line ∈ lines, lineFeed ∉ line) :
    items limit read (ended [carriageReturn, lineFeed] lines)
      = lines.filterMap fun line =>
          if line.length = limit then some (.faulty (.tooLarge limit)) else readSegment limit read line := by
  have hextra : lineFeed ∉ [carriageReturn] := by decide
  have hitems := items_ended limit read hextra hlines
  simpa only [List.singleton_append, readSegment_carriageReturn] using hitems

/-! ## How many lines are too large -/

def Inbound.isTooLarge : Inbound α → Bool
  | .faulty (.tooLarge _) => true
  | _ => false

/-- Only the limit makes a line too large, never what stands in it. -/
theorem isTooLarge_of_readLine {line : Bytes} {item : Inbound α} (h : readLine read line = some item) :
    item.isTooLarge = false := by
  simp only [readLine] at h
  split at h
  · exact absurd h (by simp)
  · split at h
    all_goals
      obtain rfl := Option.some.inj h
      rfl

theorem isTooLarge_readSegment (limit : Nat) (read : Bytes → Option α) (segment : Bytes) :
    ((readSegment limit read segment).map Inbound.isTooLarge).getD false = decide (limit < segment.length) := by
  rw [readSegment]
  by_cases hlarge : limit < segment.length
  · rw [if_pos hlarge, decide_eq_true hlarge]
    rfl
  · rw [if_neg hlarge, decide_eq_false hlarge]
    cases hline : readLine read segment with
    | none => rfl
    | some item => exact isTooLarge_of_readLine hline

theorem count_tooLarge (limit : Nat) (read : Bytes → Option α) (extra : Bytes) (lines : List Bytes) :
    (lines.filterMap fun line => readSegment limit read (line ++ extra)).countP Inbound.isTooLarge
      = lines.countP fun line => limit < line.length + extra.length := by
  rw [List.countP_filterMap]
  refine List.countP_congr fun line _ => ?_
  rw [isTooLarge_readSegment, List.length_append]

/-- One byte more makes those lines too large that were at the limit. -/
theorem countP_over_limit (limit : Nat) (lines : List Bytes) :
    lines.countP (fun line => limit < line.length + 1)
      = lines.countP (fun line => limit < line.length) + lines.countP (fun line => line.length = limit) := by
  induction lines with
  | nil => rfl
  | cons line lines ih =>
      simp only [List.countP_cons, ih, decide_eq_true_eq]
      split <;> split <;> split <;> omega

namespace Framer

/-- All that comes out when a stream arrives as it does in some acts and then ends. -/
def readOut (limit : Nat) (read : Bytes → Option α) (acts : List Act) : List (Inbound α) :=
  (fresh.run limit read acts).1 ++ (drainAtEnd limit read (fresh.run limit read acts).2).1

theorem readOut_eq (limit : Nat) (read : Bytes → Option α) (acts : List Act) :
    readOut limit read acts = items limit read (arriving acts) := by
  obtain ⟨hsound, howed⟩ := run_honest read acts (sound_fresh limit)
  have hall := howed []
  rw [List.append_nil, owed_fresh] at hall
  rw [readOut, drainAtEnd_eq read hsound, hall]

/--
**A carriage return before the line feed makes a difference to lines that are just as long as the limit, and to no
other.**

The same lines arrive twice, once each ended by a line feed and once each by carriage return and line feed, in
whatever pieces and with items asked for whenever. A line within the limit, a blank one and one over the limit come
to the same both times. One of exactly as many bytes as the limit is read the first time and is too large the
second. So the two readings agree if and only if there is no such line.
-/
theorem reads_alike_iff_none_at_limit (limit : Nat) (read : Bytes → Option α)
    (hlines : ∀ line ∈ lines, lineFeed ∉ line) {bare full : List Act}
    (hbare : arriving bare = ended [lineFeed] lines)
    (hfull : arriving full = ended [carriageReturn, lineFeed] lines) :
    readOut limit read bare = lines.filterMap (readSegment limit read)
      ∧ readOut limit read full = lines.filterMap (fun line =>
          if line.length = limit then some (.faulty (.tooLarge limit)) else readSegment limit read line)
      ∧ (readOut limit read full = readOut limit read bare ↔ ∀ line ∈ lines, line.length ≠ limit) := by
  rw [readOut_eq, readOut_eq, hbare, hfull, items_lineFeed limit read hlines, items_carriageReturn limit read hlines]
  refine ⟨rfl, rfl, fun halike => ?_, fun hnone => ?_⟩
  · -- the second reading has one fault more for each line at the limit
    have hcount := congrArg (List.countP Inbound.isTooLarge) halike
    have hbare := count_tooLarge limit read [] lines
    have hfull := count_tooLarge limit read [carriageReturn] lines
    simp only [List.append_nil, List.length_nil, Nat.add_zero] at hbare
    simp only [readSegment_carriageReturn, List.length_singleton] at hfull
    rw [hbare, hfull, countP_over_limit, Nat.add_eq_left, List.countP_eq_zero] at hcount
    exact fun line hmem => by simpa using hcount line hmem
  · refine List.filterMap_congr fun line hmem => ?_
    rw [if_neg (hnone line hmem)]

/-- A limit of four bytes: a blank line and one of five bytes come to the same with either ending, however they are
cut, and the first line of four does not. -/
theorem reads_alike_iff_none_at_limit_of_four :
    readOut 4 Request.read? [.feed [0x20, 0x0D], .next, .feed [0x0A, 0x5B, 0x31, 0x5D, 0x0D], .next,
        .feed [0x0A, 0x61, 0x61, 0x61, 0x61, 0x61, 0x0D], .next, .feed [0x0A]]
      = readOut 4 Request.read? [.feed [0x20, 0x0A, 0x5B, 0x31, 0x5D, 0x0A, 0x61, 0x61, 0x61], .next,
          .feed [0x61, 0x61, 0x0A]]
    ∧ readOut 4 Request.read? [.feed [0x5B, 0x31, 0x32, 0x5D, 0x0D], .next, .feed [0x0A]]
      ≠ readOut 4 Request.read? [.feed [0x5B, 0x31, 0x32], .next, .feed [0x5D, 0x0A]] := by
  have hother : ∀ line ∈ [[0x20], [0x5B, 0x31, 0x5D], [0x61, 0x61, 0x61, 0x61, 0x61]], lineFeed ∉ line := by decide
  have hfour : ∀ line ∈ [[0x5B, 0x31, 0x32, 0x5D]], lineFeed ∉ line := by decide
  constructor
  · exact (reads_alike_iff_none_at_limit 4 Request.read? hother (by decide) (by decide)).2.2.mpr (by decide)
  · intro halike
    exact absurd ((reads_alike_iff_none_at_limit 4 Request.read? hfour (by decide) (by decide)).2.2.mp halike)
      (by decide)

/-- A message of as many bytes as the limit is read with a line feed behind it, and is too large for a miner that
sends carriage returns. -/
theorem too_large_with_carriage_return :
    ¬ ∀ (limit : Nat) (lines : List Bytes),
        (∀ line ∈ lines, carriageReturn ∉ line ∧ lineFeed ∉ line) →
        readOut limit Request.read? [.feed (ended [carriageReturn, lineFeed] lines)]
          = readOut limit Request.read? [.feed (ended [lineFeed] lines)] := by
  intro halike
  have hthree := halike 3 [[0x5B, 0x31, 0x5D]] (by decide)
  revert hthree
  decide +kernel

end Framer
end MiningPool.Wire

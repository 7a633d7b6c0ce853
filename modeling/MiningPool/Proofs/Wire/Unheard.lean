import Mathlib.Data.List.Basic
import Mathlib.Data.List.Induction
import MiningPool.Proofs.Wire.LineEndings

/-!
# Lines that come to nothing

Not every line that ends on a stream comes to an item: a blank one does not, and the end of a line that has been
reported as too large does not come to another one. These are all. If more of a stream arrives, and whoever asks for
the items of it gets none until nothing more can be told, then each line that ended in between is blank, or had begun
before and was too large by then (`blank_or_reported`).

The argument counts items. Whatever is about to arrive, the items that are known are among the first ones of the stream;
so a line that has not ended and is not too large yet is not among them, since it may still come to one item or to
another.
-/

namespace MiningPool.Wire

variable {α : Type} {limit : Nat} {read : Bytes → Option α}

/-! ## Lines that have ended -/

/-- The lines of a stream that have ended. -/
def endedLines (stream : Bytes) : List Bytes := (segments stream).dropLast

/-- What stands behind the last line feed. -/
def unended (stream : Bytes) : Bytes := (segments stream).getLastD []

/-- The lines that end in what arrives behind a stream. -/
def linesEnded (before arrived : Bytes) : List Bytes :=
  (endedLines (before ++ arrived)).drop (endedLines before).length

/-- A stream is cut behind its last line feed, whatever follows. -/
theorem exists_cut (a : Bytes) :
    ∃ lines rest, lineFeed ∉ rest ∧ ∀ b, segments (a ++ b) = lines ++ segments (rest ++ b) := by
  induction a using List.reverseRecOn with
  | nil => exact ⟨[], [], List.not_mem_nil, fun _ => rfl⟩
  | append_singleton a x ih =>
      obtain ⟨lines, rest, hrest, hcut⟩ := ih
      by_cases hx : x = lineFeed
      · refine ⟨lines ++ [rest], [], List.not_mem_nil, fun b => ?_⟩
        rw [List.append_assoc, hcut, hx, List.singleton_append, segments_line hrest, List.append_assoc]
        rfl
      · refine ⟨lines, rest ++ [x], ?_, fun b => ?_⟩
        · rw [List.mem_append, List.mem_singleton]
          exact not_or.mpr ⟨hrest, fun h => hx h.symm⟩
        · rw [List.append_assoc, hcut, List.append_assoc]

theorem segments_cut (a : Bytes) :
    lineFeed ∉ unended a ∧ ∀ b, segments (a ++ b) = endedLines a ++ segments (unended a ++ b) := by
  obtain ⟨lines, rest, hrest, hcut⟩ := exists_cut a
  have ha : segments a = lines ++ [rest] := by
    have hnone := hcut []
    rwa [List.append_nil, List.append_nil, segments_of_not_mem hrest] at hnone
  have hlines : endedLines a = lines := by rw [endedLines, ha, List.dropLast_concat]
  have hunended : unended a = rest := by rw [unended, ha, List.getLastD_concat]
  rw [hlines, hunended]
  exact ⟨hrest, hcut⟩

theorem endedLines_append (a b : Bytes) : endedLines (a ++ b) = endedLines a ++ endedLines (unended a ++ b) := by
  have hne : segments (unended a ++ b) ≠ [] := List.splitOn_ne_nil lineFeed _
  rw [endedLines, (segments_cut a).2, List.dropLast_append_of_ne_nil hne]
  rfl

theorem linesEnded_eq (before arrived : Bytes) :
    linesEnded before arrived = endedLines (unended before ++ arrived) := by
  rw [linesEnded, endedLines_append, List.drop_left]

/-- A line that ends behind what had begun is longer by that, if it is the first one. -/
theorem prefix_of_first {a b line : Bytes} {lines : List Bytes} (ha : lineFeed ∉ a)
    (h : endedLines (a ++ b) = line :: lines) : a <+: line := by
  rw [endedLines, segments_append ha] at h
  cases hb : segments b with
  | nil => simp [hb] at h
  | cons s ss =>
      rw [hb, List.modifyHead_cons] at h
      cases ss with
      | nil => simp at h
      | cons t ts =>
          rw [List.dropLast_cons_cons, List.cons.injEq] at h
          exact ⟨s, h.1⟩

/-! ## Counting items -/

/-- Bytes that make any line too large. -/
def flood (limit : Nat) : Bytes := List.replicate (limit + 1) 0x78

theorem not_mem_flood (limit : Nat) : lineFeed ∉ flood limit := fun h =>
  absurd (List.eq_of_mem_replicate h) (by decide)

theorem readSegment_flood (limit : Nat) (read : Bytes → Option α) (line : Bytes) :
    readSegment limit read (line ++ flood limit) = some (.faulty (.tooLarge limit)) := by
  refine if_pos ?_
  rw [List.length_append, flood, List.length_replicate]
  omega

theorem segments_flood {line : Bytes} (h : lineFeed ∉ line) (limit : Nat) :
    segments (line ++ flood limit) = [line ++ flood limit] := by
  refine segments_of_not_mem ?_
  rw [List.mem_append]
  exact not_or.mpr ⟨h, not_mem_flood limit⟩

/-- A stream that goes on with a line too large. -/
theorem items_flood (limit : Nat) (read : Bytes → Option α) (stream : Bytes) :
    items limit read (stream ++ flood limit)
      = (endedLines stream).filterMap (readSegment limit read) ++ [.faulty (.tooLarge limit)] := by
  obtain ⟨hunended, hcut⟩ := segments_cut stream
  rw [items, hcut, segments_flood hunended, List.filterMap_append,
    List.filterMap_cons_some (readSegment_flood limit read _)]
  rfl

/-- Whoever can tell nothing more owes one item at most before the next line feed. -/
theorem Framer.Dry.length_owed_le {f : Framer} (h : f.Dry limit) (read : Bytes → Option α) :
    (Framer.owed limit read f (flood limit)).length ≤ 1 := by
  rw [Framer.owed, segments_flood h.unended]
  split
  · exact Nat.zero_le _
  · exact List.length_filterMap_le _ _

/-- What is known of a stream is known of the lines that have ended, unless the last one is too large already. -/
theorem length_seen_le {seen : List (Inbound α)} {before : Bytes}
    (hseen : ∀ rest, seen <+: items limit read (before ++ rest)) :
    seen.length ≤ ((endedLines before).filterMap (readSegment limit read)).length
        + if limit < (unended before).length then 1 else 0 := by
  have hflood := hseen (flood limit)
  have hnothing := hseen []
  rw [items_flood] at hflood
  rw [items, (segments_cut before).2, List.append_nil, segments_of_not_mem (segments_cut before).1,
    List.filterMap_append] at hnothing
  generalize (endedLines before).filterMap (readSegment limit read) = known at hflood hnothing ⊢
  have hle := hflood.length_le
  rw [List.length_append, List.length_singleton] at hle
  split
  · exact hle
  · rename_i hsmall
    by_contra hmore
    -- the item of the unended line would be known
    have hlength : seen.length = known.length + 1 := by omega
    have hall : seen = known ++ [.faulty (.tooLarge limit)] :=
      hflood.eq_of_length (by rw [hlength, List.length_append, List.length_singleton])
    rw [hall, List.prefix_append_right_inj] at hnothing
    rw [List.filterMap_cons, List.filterMap_nil, readSegment, if_neg hsmall] at hnothing
    cases hline : readLine read (unended before) with
    | none => simp [hline] at hnothing
    | some item =>
        have hother := isTooLarge_of_readLine hline
        rw [hline] at hnothing
        obtain rfl : (Inbound.faulty (.tooLarge limit) : Inbound α) = item := by simpa using hnothing
        exact Bool.noConfusion hother

/-- **A line that came to nothing is blank, or was reported before it ended.** -/
theorem blank_or_reported {seen : List (Inbound α)} {f : Framer} {before arrived : Bytes} (hdry : f.Dry limit)
    (hseen : ∀ rest, seen <+: items limit read (before ++ rest))
    (howed : ∀ rest, items limit read (before ++ arrived ++ rest) = seen ++ Framer.owed limit read f rest) :
    ∀ line ∈ linesEnded before arrived,
      trim line = [] ∨ limit < (unended before).length ∧ unended before <+: line := by
  have hlines : endedLines (before ++ arrived) = endedLines before ++ linesEnded before arrived := by
    rw [linesEnded_eq, endedLines_append]
  -- the known items are all there are, up to a line that has not ended
  have hcount : ((endedLines before).filterMap (readSegment limit read)).length
      + ((linesEnded before arrived).filterMap (readSegment limit read)).length ≤ seen.length := by
    have hall := congrArg List.length (howed (flood limit))
    rw [items_flood, hlines, List.filterMap_append] at hall
    simp only [List.length_append, List.length_singleton] at hall
    have hone := hdry.length_owed_le read
    omega
  have hknown := length_seen_le hseen
  have hblank : ∀ {line : Bytes}, readSegment limit read line = none → trim line = [] := by
    intro line hnone
    rw [readSegment] at hnone
    split at hnone
    · simp at hnone
    · simp only [readLine] at hnone
      split at hnone
      · rename_i hempty
        exact List.isEmpty_iff.mp hempty
      · split at hnone <;> simp at hnone
  by_cases hlarge : limit < (unended before).length
  · rw [if_pos hlarge] at hknown
    intro line hline
    cases hfirst : linesEnded before arrived with
    | nil => rw [hfirst] at hline; exact absurd hline List.not_mem_nil
    | cons first rest =>
        have hprefix : unended before <+: first :=
          prefix_of_first (segments_cut before).1 ((linesEnded_eq before arrived).symm.trans hfirst)
        -- the first line is that one item, so no other comes to any
        have htoo : readSegment limit read first = some (.faulty (.tooLarge limit)) :=
          if_pos (Nat.lt_of_lt_of_le hlarge hprefix.length_le)
        rw [hfirst, List.filterMap_cons_some htoo, List.length_cons] at hcount
        have hnone : rest.filterMap (readSegment limit read) = [] := List.eq_nil_of_length_eq_zero (by omega)
        rw [hfirst] at hline
        rcases List.mem_cons.mp hline with rfl | hline
        · exact .inr ⟨hlarge, hprefix⟩
        · exact .inl (hblank (List.filterMap_eq_nil_iff.mp hnone line hline))
  · rw [if_neg hlarge] at hknown
    have hnone : (linesEnded before arrived).filterMap (readSegment limit read) = [] :=
      List.eq_nil_of_length_eq_zero (by omega)
    exact fun line hline => .inl (hblank (List.filterMap_eq_nil_iff.mp hnone line hline))

end MiningPool.Wire

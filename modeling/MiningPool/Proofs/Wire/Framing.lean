import MiningPool.Wire.Framing

/-!
# Lines come out the same however the stream is cut

A `Framer` sees its stream in pieces and is asked for items whenever its reader likes. What it has said so
far and what it still owes make up the items of the whole stream, where what it owes is told with all bytes
that may yet arrive: `owed f rest`. A feed only moves bytes from `rest` into the buffer, and each look at the
buffer either takes the first item off what is owed or leaves it as it is.

The look never starts over. What makes that right is `Sound`: the bytes passed over hold no line feed, and
none is passed over while the tail of a line that was too large is dropped.
-/

namespace MiningPool.Wire

/-! ## Cutting at line feeds -/

theorem segments_line {a : Bytes} (h : lineFeed ∉ a) (b : Bytes) :
    segments (a ++ lineFeed :: b) = a :: segments b :=
  List.splitOn_append_cons_self_of_not_mem h b

/-- What comes before the first line feed only makes the first segment longer. -/
theorem segments_append {a : Bytes} (h : lineFeed ∉ a) (b : Bytes) :
    segments (a ++ b) = (segments b).modifyHead (a ++ ·) := by
  induction a with
  | nil =>
      rw [List.nil_append]
      cases segments b with
      | nil => rfl
      | cons s ss => rfl
  | cons x a ih =>
      -- splitting goes byte by byte, so one byte that is no line feed joins the first segment
      have hx : (x == lineFeed) = false :=
        beq_eq_false_iff_ne.mpr (fun he => h (he ▸ List.mem_cons_self))
      have ha := ih (fun hm => h (List.mem_cons_of_mem x hm))
      unfold segments at ha ⊢
      rw [List.cons_append, List.splitOn_cons_eq_if_modifyHead, hx, ha, List.modifyHead_modifyHead]
      rfl

theorem tail_segments_append {a : Bytes} (h : lineFeed ∉ a) (b : Bytes) :
    (segments (a ++ b)).tail = (segments b).tail := by
  rw [segments_append h, List.tail_modifyHead]

theorem segments_of_not_mem {a : Bytes} (h : lineFeed ∉ a) : segments a = [a] :=
  List.splitOn_eq_singleton h

namespace Framer

variable {α : Type} {limit : Nat} {read : Bytes → Option α} {f g : Framer}

/-! ## Where a look finds a line feed -/

/-- What holds of a framer between two looks. -/
structure Sound (limit : Nat) (f : Framer) : Prop where
  /-- It has not looked further than one byte past the limit. -/
  searched_le : f.searched ≤ min f.buffer.length (limit + 1)
  /-- What it has looked through holds no line feed. -/
  clear : lineFeed ∉ f.buffer.take f.searched
  /-- While it drops a line it starts from the front. -/
  restart : f.discarding = true → f.searched = 0

theorem sound_fresh (limit : Nat) : fresh.Sound limit where
  searched_le := Nat.zero_le _
  clear := List.not_mem_nil
  restart := fun _ => rfl

theorem sound_feed (h : f.Sound limit) (chunk : Bytes) : (f.feed chunk).Sound limit where
  searched_le := by
    have := h.searched_le
    simp only [feed, List.length_append]
    omega
  clear := by
    have := h.searched_le
    simp only [feed]
    -- new bytes come behind what was searched
    rw [List.take_append_of_le_length (by omega)]
    exact h.clear
  restart := h.restart

/-- A framer that starts from the front is sound, whatever it holds. -/
theorem sound_start (limit : Nat) (buffer : Bytes) (discarding : Bool) :
    Sound limit ⟨buffer, 0, discarding⟩ where
  searched_le := Nat.zero_le _
  clear := List.not_mem_nil
  restart := fun _ => rfl

/-- Where the next line feed stands, as far as a look goes. -/
def lineEnd? (limit : Nat) (f : Framer) : Option Nat :=
  ((f.buffer.take (limit + 1)).drop f.searched).findIdx? (· == lineFeed)

/-- A line feed that was found ends the first segment of what is held. -/
theorem lineEnd?_eq_some {i : Nat} (h : f.Sound limit) (hi : f.lineEnd? limit = some i) :
    f.searched + i ≤ limit ∧ f.searched + i < f.buffer.length
      ∧ lineFeed ∉ f.buffer.take (f.searched + i)
      ∧ f.buffer = f.buffer.take (f.searched + i) ++ lineFeed :: f.buffer.drop (f.searched + i + 1) := by
  obtain ⟨hlt, hfeed, hbefore⟩ := List.findIdx?_eq_some_iff_getElem.mp hi
  simp only [List.length_drop, List.length_take] at hlt
  simp only [List.getElem_drop, List.getElem_take, beq_iff_eq] at hfeed hbefore
  have hlen : f.searched + i < f.buffer.length := by omega
  refine ⟨by omega, hlen, ?_, ?_⟩
  · -- the part searched before holds none, and neither does the part before the one found
    rw [List.take_add, List.mem_append]
    rintro (hm | hm)
    · exact h.clear hm
    · obtain ⟨j, hj, he⟩ := List.mem_iff_getElem.mp hm
      simp only [List.length_take, List.length_drop] at hj
      rw [List.getElem_take, List.getElem_drop] at he
      exact hbefore j (by omega) he
  · rw [← hfeed, ← List.drop_eq_getElem_cons hlen, List.take_append_drop]

/-- If none was found, there is none within the limit and one byte past it. -/
theorem lineEnd?_eq_none (h : f.Sound limit) (hn : f.lineEnd? limit = none) :
    lineFeed ∉ f.buffer.take (limit + 1) := by
  rw [lineEnd?, List.findIdx?_eq_none_iff] at hn
  rw [← List.take_append_drop f.searched (f.buffer.take (limit + 1)), List.mem_append, List.take_take]
  rintro (hm | hm)
  · have := h.searched_le
    rw [Nat.min_eq_left (by omega)] at hm
    exact h.clear hm
  · exact absurd (hn lineFeed hm) (by simp)

/-! ## What is still owed -/

/-- The items that are still to come if `rest` arrives and then nothing more: those of what is held and of
`rest`, without the segment that is being dropped. -/
def owed (limit : Nat) (read : Bytes → Option α) (f : Framer) (rest : Bytes) : List (Inbound α) :=
  (if f.discarding then (segments (f.buffer ++ rest)).tail else segments (f.buffer ++ rest)).filterMap
    (readSegment limit read)

theorem owed_fresh (limit : Nat) (read : Bytes → Option α) (rest : Bytes) :
    owed limit read fresh rest = items limit read rest := rfl

theorem owed_feed (f : Framer) (chunk rest : Bytes) :
    owed limit read (f.feed chunk) rest = owed limit read f (chunk ++ rest) := by
  simp only [owed, feed, List.append_assoc]

/-- The end of a line that is being dropped. -/
theorem owed_of_dropped {a b : Bytes} (hd : f.discarding = true) (ha : lineFeed ∉ a)
    (hb : f.buffer = a ++ lineFeed :: b) (rest : Bytes) :
    owed limit read f rest = owed limit read ⟨b, 0, false⟩ rest := by
  simp only [owed, hd, hb, List.append_assoc, List.cons_append]
  rw [segments_line ha]
  rfl

/-- More of a line that is being dropped. -/
theorem owed_of_dropping {n : Nat} (hd : f.discarding = true) (hn : lineFeed ∉ f.buffer.take n)
    (rest : Bytes) :
    owed limit read f rest = owed limit read ⟨f.buffer.drop n, 0, true⟩ rest := by
  have hcut : f.buffer ++ rest = f.buffer.take n ++ (f.buffer.drop n ++ rest) := by
    rw [← List.append_assoc, List.take_append_drop]
  simp only [owed, hd, if_true]
  rw [hcut, tail_segments_append hn]

/-- A whole line within the limit. -/
theorem owed_of_line (read : Bytes → Option α) {a b : Bytes} (hd : f.discarding = false)
    (ha : lineFeed ∉ a) (hlen : a.length ≤ limit) (hb : f.buffer = a ++ lineFeed :: b) (rest : Bytes) :
    owed limit read f rest = (readLine read a).toList ++ owed limit read ⟨b, 0, false⟩ rest := by
  have hseg : readSegment limit read a = readLine read a := if_neg (Nat.not_lt.mpr hlen)
  simp only [owed, hd, hb, List.append_assoc, List.cons_append, Bool.false_eq_true, if_false]
  rw [segments_line ha, List.filterMap_cons, hseg]
  cases readLine read a with
  | none => rfl
  | some item => rfl

/-- A line that has passed the limit without an end is too large, whatever follows. -/
theorem owed_of_too_large (hd : f.discarding = false) (hn : lineFeed ∉ f.buffer.take (limit + 1))
    (hlen : limit < f.buffer.length) (rest : Bytes) :
    owed limit read f rest
      = .faulty (.tooLarge limit) :: owed limit read { f with searched := 0, discarding := true } rest := by
  -- whatever follows only makes the first segment longer, and it is too long already
  have hcut : f.buffer ++ rest = f.buffer.take (limit + 1) ++ (f.buffer.drop (limit + 1) ++ rest) := by
    rw [← List.append_assoc, List.take_append_drop]
  obtain ⟨s, ss, hs⟩ : ∃ s ss, segments (f.buffer.drop (limit + 1) ++ rest) = s :: ss :=
    List.exists_cons_of_ne_nil (List.splitOn_ne_nil lineFeed _)
  have hbig : readSegment limit read (f.buffer.take (limit + 1) ++ s)
      = some (.faulty (.tooLarge limit)) := by
    refine if_pos ?_
    rw [List.length_append, List.length_take]
    omega
  simp only [owed, hd, Bool.false_eq_true, if_false, if_true]
  rw [hcut, segments_append hn, hs, List.modifyHead_cons, List.filterMap_cons, hbig, List.tail_cons]

/-! ## One look -/

/-- Nothing can be said before more bytes arrive. -/
structure Dry (limit : Nat) (f : Framer) : Prop where
  unended : lineFeed ∉ f.buffer
  length_le : f.buffer.length ≤ limit
  dropped : f.discarding = true → f.buffer = []

/-- What a look at a framer may come to: an item is the first of those owed, and otherwise what is owed
stays the same. -/
def Look.Honest (limit : Nat) (read : Bytes → Option α) (f : Framer) : Look α → Prop
  | .found item g => g.Sound limit ∧ ∀ rest, owed limit read f rest = item :: owed limit read g rest
  | .starved g => g.Sound limit ∧ g.Dry limit ∧ ∀ rest, owed limit read f rest = owed limit read g rest
  | .again g => g.Sound limit ∧ ∀ rest, owed limit read f rest = owed limit read g rest

/-- **One look neither loses nor makes up an item.** -/
theorem look_honest (read : Bytes → Option α) (h : f.Sound limit) :
    (look limit read f).Honest limit read f := by
  -- a look spells out where the line feed is
  have hfold : ∀ i, (List.drop f.searched (f.buffer.take (limit + 1))).findIdx? (· == lineFeed) = i →
      f.lineEnd? limit = i := fun i hi => hi
  unfold look
  dsimp only
  split
  · -- the dropped line ends here
    rename_i i hd hi
    obtain ⟨_, _, ha, hb⟩ := lineEnd?_eq_some h (hfold _ hi)
    exact ⟨sound_start _ _ _, owed_of_dropped hd ha hb⟩
  · rename_i hd hn
    have hclear := lineEnd?_eq_none h (hfold _ hn)
    -- a short buffer is dropped whole either way
    have hwin : f.buffer.drop (f.buffer.take (limit + 1)).length = f.buffer.drop (limit + 1) := by
      rw [List.length_take]
      rcases Nat.le_total (limit + 1) f.buffer.length with hle | hle
      · rw [Nat.min_eq_left hle]
      · rw [Nat.min_eq_right hle, List.drop_length, List.drop_of_length_le hle]
    rw [hwin]
    split
    · rename_i he
      rw [List.isEmpty_iff] at he
      refine ⟨sound_start _ _ _, ⟨?_, ?_, fun _ => he⟩, owed_of_dropping hd hclear⟩
      · rw [he]; exact List.not_mem_nil
      · rw [he]; exact Nat.zero_le _
    · exact ⟨sound_start _ _ _, owed_of_dropping hd hclear⟩
  · -- a line within the limit
    rename_i i hd hi
    obtain ⟨hle, hlt, ha, hb⟩ := lineEnd?_eq_some h (hfold _ hi)
    have hlen : (f.buffer.take (f.searched + i)).length ≤ limit := by rw [List.length_take]; omega
    have howed := owed_of_line read hd ha hlen hb
    split
    · rename_i item hitem
      rw [hitem] at howed
      exact ⟨sound_start _ _ _, howed⟩
    · rename_i hitem
      rw [hitem] at howed
      exact ⟨sound_start _ _ _, howed⟩
  · rename_i hd hn
    have hclear := lineEnd?_eq_none h (hfold _ hn)
    rw [List.length_take]
    split
    · exact ⟨sound_start _ _ _, owed_of_too_large hd hclear (by omega)⟩
    · -- all that is held has been searched
      have hall : f.buffer.take (limit + 1) = f.buffer := List.take_of_length_le (by omega)
      rw [hall] at hclear
      have hoff : ¬ f.discarding = true := by rw [hd]; exact Bool.false_ne_true
      refine ⟨⟨?_, ?_, fun hd' => absurd hd' hoff⟩, ⟨hclear, ?_, fun hd' => absurd hd' hoff⟩,
        fun rest => rfl⟩
      · show min (limit + 1) f.buffer.length ≤ min f.buffer.length (limit + 1)
        omega
      · exact fun hm => hclear (List.mem_of_mem_take hm)
      · show f.buffer.length ≤ limit
        omega

/-! ## One item, and all of them -/

def Look.framer : Look α → Framer
  | .found _ g => g
  | .starved g => g
  | .again g => g

/-- A look only drops bytes at the front. -/
theorem buffer_look (limit : Nat) (read : Bytes → Option α) (f : Framer) :
    (look limit read f).framer.buffer <:+ f.buffer := by
  unfold look
  dsimp only
  split
  · exact List.drop_suffix _ _
  · split
    · exact List.drop_suffix _ _
    · exact List.drop_suffix _ _
  · split
    · exact List.drop_suffix _ _
    · exact List.drop_suffix _ _
  · split
    · exact List.suffix_refl _
    · exact List.suffix_refl _

theorem buffer_next (limit : Nat) (read : Bytes → Option α) (f : Framer) :
    (next limit read f).2.buffer <:+ f.buffer := by
  fun_induction next limit read f with
  | case1 f item g hl => have hlook := buffer_look limit read f; rw [hl] at hlook; exact hlook
  | case2 f g hl => have hlook := buffer_look limit read f; rw [hl] at hlook; exact hlook
  | case3 f g hl ih =>
      have hlook := buffer_look limit read f
      rw [hl] at hlook
      exact ih.trans hlook

theorem buffer_nextAtEnd (limit : Nat) (read : Bytes → Option α) (f : Framer) :
    (nextAtEnd limit read f).2.buffer <:+ f.buffer := by
  have hnext := buffer_next limit read f
  unfold nextAtEnd
  split
  · rename_i hn
    rw [hn] at hnext
    exact hnext
  · split
    · exact List.nil_suffix
    · exact List.nil_suffix

/-- **Asking for an item gives the first one owed, and none only if nothing more can be said yet.** -/
theorem next_honest (read : Bytes → Option α) (h : f.Sound limit) :
    (next limit read f).2.Sound limit
      ∧ (∀ rest, owed limit read f rest
          = (next limit read f).1.toList ++ owed limit read (next limit read f).2 rest)
      ∧ ((next limit read f).1 = none → (next limit read f).2.Dry limit) := by
  fun_induction next limit read f with
  | case1 f item g hl =>
      have hlook := look_honest read h
      rw [hl] at hlook
      exact ⟨hlook.1, hlook.2, fun hn => absurd hn (by simp)⟩
  | case2 f g hl =>
      have hlook := look_honest read h
      rw [hl] at hlook
      exact ⟨hlook.1, hlook.2.2, fun _ => hlook.2.1⟩
  | case3 f g hl ih =>
      have hlook := look_honest read h
      rw [hl] at hlook
      obtain ⟨h₁, h₂, h₃⟩ := ih hlook.1
      exact ⟨h₁, fun rest => (hlook.2 rest).trans (h₂ rest), h₃⟩

/-- A framer that can say nothing more before more bytes arrive owes its last line, if it is not dropped. -/
theorem owed_of_dry (h : f.Dry limit) :
    owed limit read f [] = if f.discarding || f.buffer.isEmpty then [] else (readLine read f.buffer).toList := by
  have hone : segments (f.buffer ++ []) = [f.buffer] := by
    rw [List.append_nil]; exact segments_of_not_mem h.unended
  have hseg : readSegment limit read f.buffer = readLine read f.buffer :=
    if_neg (Nat.not_lt.mpr h.length_le)
  simp only [owed, hone]
  cases hd : f.discarding with
  | true => rfl
  | false =>
      rw [Bool.false_or]
      simp only [Bool.false_eq_true, if_false, List.filterMap_cons, List.filterMap_nil, hseg]
      by_cases hb : f.buffer = []
      · rw [hb]; rfl
      · rw [if_neg (by rw [List.isEmpty_iff]; exact hb)]
        cases readLine read f.buffer with
        | none => rfl
        | some item => rfl

/-- **Once nothing more arrives, asking gives the first item owed, and none only if none is owed.** -/
theorem nextAtEnd_honest (read : Bytes → Option α) (h : f.Sound limit) :
    (nextAtEnd limit read f).2.Sound limit
      ∧ owed limit read f []
          = (nextAtEnd limit read f).1.toList ++ owed limit read (nextAtEnd limit read f).2 []
      ∧ ((nextAtEnd limit read f).1 = none → (nextAtEnd limit read f).2 = fresh) := by
  obtain ⟨h₁, h₂, h₃⟩ := next_honest read h
  unfold nextAtEnd
  split
  · rename_i item g hn
    rw [hn] at h₁ h₂
    exact ⟨h₁, h₂ [], fun he => absurd he (by simp)⟩
  · rename_i g hn
    rw [hn] at h₂ h₃
    -- what is left is a last line without an end, and it is told or dropped
    have hlast : owed limit read f [] = owed limit read g [] := h₂ []
    rw [owed_of_dry (h₃ rfl)] at hlast
    have hnone : owed limit read fresh [] = [] := rfl
    split
    · rename_i hc
      rw [if_pos hc] at hlast
      exact ⟨sound_fresh limit, hlast, fun _ => rfl⟩
    · rename_i hc
      rw [if_neg hc] at hlast
      refine ⟨sound_fresh limit, ?_, fun _ => rfl⟩
      rw [hlast, hnone, List.append_nil]

theorem weight_le_of_starved (h : look limit read f = .starved g) : g.weight ≤ f.weight := by
  unfold look at h
  dsimp only at h
  split at h
  · simp at h
  · split at h
    · rename_i he
      injection h with h
      subst h
      rw [List.isEmpty_iff] at he
      rw [he]
      exact Nat.zero_le _
    · simp at h
  · split at h <;> simp at h
  · split at h
    · simp at h
    · injection h with h
      subst h
      exact Nat.le_refl _

theorem weight_le_of_next (limit : Nat) (read : Bytes → Option α) (f : Framer) :
    (next limit read f).2.weight ≤ f.weight := by
  fun_induction next limit read f with
  | case1 f item g hl => exact Nat.le_of_lt (weight_lt_of_found hl)
  | case2 f g hl => exact weight_le_of_starved hl
  | case3 f g hl ih =>
      -- dropping may begin here, but then bytes were used up
      have hlt := length_lt_of_look hl
      refine Nat.le_trans ih ?_
      simp only [weight]
      split <;> split <;> omega

theorem weight_lt_of_nextAtEnd {item : Inbound α} (h : nextAtEnd limit read f = (some item, g)) :
    g.weight < f.weight := by
  have hle := weight_le_of_next limit read f
  unfold nextAtEnd at h
  split at h
  · rename_i item' g' hn
    simp only [Prod.mk.injEq, Option.some.injEq] at h
    obtain ⟨rfl, rfl⟩ := h
    exact weight_lt_of_next hn
  · rename_i g' hn
    rw [hn] at hle
    split at h
    · simp at h
    · -- the last line has at least one byte
      rename_i hc
      simp only [Prod.mk.injEq] at h
      obtain ⟨_, rfl⟩ := h
      simp only [Bool.or_eq_true, List.isEmpty_iff, not_or] at hc
      have hpos := List.length_pos_iff.mpr hc.2
      simp only [weight, hc.1] at hle
      simp only [weight, fresh, List.length_nil]
      simp only [Bool.false_eq_true, if_false] at hle ⊢
      omega

/-- All the items that are left once nothing more will arrive. -/
def drainAtEnd (limit : Nat) (read : Bytes → Option α) (f : Framer) : List (Inbound α) × Framer :=
  match _h : nextAtEnd limit read f with
  | (none, g) => ([], g)
  | (some item, g) =>
    let more := drainAtEnd limit read g
    (item :: more.1, more.2)
termination_by f.weight
decreasing_by exact weight_lt_of_nextAtEnd _h

/-- **Once nothing more arrives, all that is owed comes out, and the framer is as new.** -/
theorem drainAtEnd_eq (read : Bytes → Option α) (h : f.Sound limit) :
    drainAtEnd limit read f = (owed limit read f [], fresh) := by
  fun_induction drainAtEnd limit read f with
  | case1 f g hn =>
      obtain ⟨_, howed, hnew⟩ := nextAtEnd_honest read h
      rw [hn] at howed hnew
      have hg : g = fresh := hnew rfl
      rw [howed, hg]
      rfl
  | case2 f item g hn more ih =>
      obtain ⟨hsound, howed, _⟩ := nextAtEnd_honest read h
      rw [hn] at howed hsound
      have hmore : more = (owed limit read g [], fresh) := ih hsound
      rw [howed, hmore]
      rfl

/-! ## Whole streams -/

/-- What is done with a framer while its stream goes on. -/
inductive Act where
  | feed (chunk : Bytes)
  | next
  deriving DecidableEq, Repr

/-- The bytes that some acts bring in. -/
def arriving (acts : List Act) : Bytes :=
  acts.flatMap fun
    | .feed chunk => chunk
    | .next => []

/-- One act, with the item it gives. -/
def act (limit : Nat) (read : Bytes → Option α) (f : Framer) : Act → Option (Inbound α) × Framer
  | .feed chunk => (none, f.feed chunk)
  | .next => f.next limit read

/-- Some acts one after the other, with the items they give. -/
def run (limit : Nat) (read : Bytes → Option α) (f : Framer) : List Act → List (Inbound α) × Framer
  | [] => ([], f)
  | a :: acts =>
    let (item, g) := f.act limit read a
    let (items, g) := g.run limit read acts
    (item.toList ++ items, g)

/-- What one act gives and what is owed after it were owed before, when the bytes it brings in come first. -/
theorem act_honest (read : Bytes → Option α) (h : f.Sound limit) (a : Act) :
    (f.act limit read a).2.Sound limit
      ∧ ∀ rest, owed limit read f (arriving [a] ++ rest)
          = (f.act limit read a).1.toList ++ owed limit read (f.act limit read a).2 rest := by
  cases a with
  | feed chunk =>
      refine ⟨sound_feed h chunk, fun rest => ?_⟩
      simp only [act, arriving, List.flatMap_cons, List.flatMap_nil, List.append_nil]
      rw [owed_feed]
      rfl
  | next =>
      obtain ⟨h₁, h₂, _⟩ := next_honest read h
      exact ⟨h₁, h₂⟩

theorem arriving_cons (a : Act) (acts : List Act) :
    arriving (a :: acts) = arriving [a] ++ arriving acts := by
  simp only [arriving, List.flatMap_cons, List.flatMap_nil, List.append_nil]

/-- What a run gives and what is owed after it were owed before. -/
theorem run_honest (read : Bytes → Option α) (acts : List Act) :
    ∀ {f : Framer}, f.Sound limit →
      (f.run limit read acts).2.Sound limit
        ∧ ∀ rest, owed limit read f (arriving acts ++ rest)
            = (f.run limit read acts).1 ++ owed limit read (f.run limit read acts).2 rest := by
  induction acts with
  | nil => intro f h; exact ⟨h, fun rest => rfl⟩
  | cons a acts ih =>
      intro f h
      -- the bytes of this act come before all others
      obtain ⟨h₁, h₂⟩ := act_honest read h a
      obtain ⟨h₃, h₄⟩ := ih h₁
      refine ⟨h₃, fun rest => ?_⟩
      rw [arriving_cons, List.append_assoc, h₂, h₄, ← List.append_assoc]
      rfl

/--
**Framing does not depend on how a stream is cut.**

Whatever the limit, whatever pieces a stream arrives in and whenever items are asked for in between: the
items given on the way and those given at the end are the items of the whole stream, and the framer is as
new after them.
-/
theorem items_of_any_cut (limit : Nat) (read : Bytes → Option α) (acts : List Act) :
    (fresh.run limit read acts).1 ++ (drainAtEnd limit read (fresh.run limit read acts).2).1
        = items limit read (arriving acts)
      ∧ (drainAtEnd limit read (fresh.run limit read acts).2).2 = fresh := by
  obtain ⟨hsound, howed⟩ := run_honest read acts (sound_fresh limit)
  have hall := howed []
  rw [List.append_nil, owed_fresh] at hall
  rw [drainAtEnd_eq read hsound]
  exact ⟨hall.symm, rfl⟩

end Framer
end MiningPool.Wire

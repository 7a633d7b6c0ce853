import Mathlib.Data.List.Infix
import MiningPool.Decimal.Power
import MiningPool.Proofs.Wire.Framing
import MiningPool.Wire.Reading

/-!
# What a framer holds, and where it may reach

A framer remembers a place in its buffer from one call to the next. Others put bytes behind that place and the framer
itself takes bytes away before it, so what is said of the place has to be true again after each call: `Sound`. Here is
what that is good for.

On a machine a place is a word, and whoever takes a part of a buffer that is not all there ends the program.
`checkedCalls?` makes the calls that `calls` makes, with every place checked like that, and gives nothing if one is out of
bounds. It always gives what `calls` gives (`checkedCalls?_eq`). And whoever takes in more bytes only when nothing can be
said about those at hand never holds more than the limit and the last piece (`Polled.length_le`).
-/

namespace MiningPool.Wire

/-! ## Places in a buffer, checked -/

/-- The most that a machine word counts to. -/
def maxWord : Nat := twoTo 64 - 1

/-- A number, if a word holds it. -/
def word? (n : Nat) : Option Nat := if n ≤ maxWord then some n else none

/-- The bytes from one place to another, if the two are in order and inside. -/
def part? (bs : Bytes) (start stop : Nat) : Option Bytes :=
  if start ≤ stop ∧ stop ≤ bs.length then some ((bs.take stop).drop start) else none

/-- What stands before and behind a place, if it is inside. -/
def cut? (bs : Bytes) (place : Nat) : Option (Bytes × Bytes) :=
  if place ≤ bs.length then some (bs.take place, bs.drop place) else none

theorem word?_of_le {n : Nat} (h : n ≤ maxWord) : word? n = some n := if_pos h

theorem part?_of_le {bs : Bytes} {start stop : Nat} (horder : start ≤ stop) (hinside : stop ≤ bs.length) :
    part? bs start stop = some ((bs.take stop).drop start) := if_pos ⟨horder, hinside⟩

theorem cut?_of_le {bs : Bytes} {place : Nat} (h : place ≤ bs.length) :
    cut? bs place = some (bs.take place, bs.drop place) := if_pos h

theorem eq_of_word? {n m : Nat} (h : word? n = some m) : m = n := by
  unfold word? at h
  split at h
  · exact (Option.some.inj h).symm
  · simp at h

theorem eq_of_cut? {bs : Bytes} {place : Nat} {parts : Bytes × Bytes} (h : cut? bs place = some parts) :
    place ≤ bs.length ∧ parts = (bs.take place, bs.drop place) := by
  unfold cut? at h
  split at h
  · rename_i hle
    exact ⟨hle, (Option.some.inj h).symm⟩
  · simp at h

namespace Framer

variable {α : Type} {limit : Nat} {read : Bytes → Option α} {f g : Framer}

/-! ## Calls, one after the other -/

/-- How a framer can be asked for an item. -/
inductive Ask where
  | next
  /-- Nothing more will arrive. -/
  | nextAtEnd
  deriving DecidableEq, Repr

/-- What is done with a framer. -/
inductive Call where
  | feed (chunk : Bytes)
  | ask (a : Ask)
  deriving DecidableEq, Repr

/-- What a framer answers, and what becomes of it. -/
def ask (limit : Nat) (read : Bytes → Option α) (f : Framer) : Ask → Option (Inbound α) × Framer
  | .next => f.next limit read
  | .nextAtEnd => f.nextAtEnd limit read

/-- One call, with its answer. -/
def call (limit : Nat) (read : Bytes → Option α) (f : Framer) : Call → Option (Inbound α) × Framer
  | .feed chunk => (none, f.feed chunk)
  | .ask a => f.ask limit read a

/-- Some calls one after the other, with the answer to each. -/
def calls (limit : Nat) (read : Bytes → Option α) (f : Framer) : List Call → List (Option (Inbound α)) × Framer
  | [] => ([], f)
  | c :: cs =>
    let (answer, g) := f.call limit read c
    let (answers, h) := g.calls limit read cs
    (answer :: answers, h)

theorem calls_cons_fst (limit : Nat) (read : Bytes → Option α) (f : Framer) (c : Call) (cs : List Call) :
    (f.calls limit read (c :: cs)).1 = (f.call limit read c).1 :: ((f.call limit read c).2.calls limit read cs).1 := rfl

theorem calls_cons_snd (limit : Nat) (read : Bytes → Option α) (f : Framer) (c : Call) (cs : List Call) :
    (f.calls limit read (c :: cs)).2 = ((f.call limit read c).2.calls limit read cs).2 := rfl

theorem sound_ask (read : Bytes → Option α) (h : f.Sound limit) (a : Ask) : (f.ask limit read a).2.Sound limit := by
  cases a with
  | next => exact (next_honest read h).1
  | nextAtEnd => exact (nextAtEnd_honest read h).1

/-- **Every call keeps a framer sound.** -/
theorem sound_call (read : Bytes → Option α) (h : f.Sound limit) (c : Call) : (f.call limit read c).2.Sound limit := by
  cases c with
  | feed chunk => exact sound_feed h chunk
  | ask a => exact sound_ask read h a

theorem sound_calls (read : Bytes → Option α) (cs : List Call) (h : f.Sound limit) :
    (f.calls limit read cs).2.Sound limit := by
  induction cs generalizing f with
  | nil => exact h
  | cons c cs ih => exact ih (sound_call read h c)

/-- **Whoever asks and gets nothing knows that nothing can be said before more bytes arrive.** -/
theorem dry_of_ask {a : Ask} (h : f.Sound limit) (hnone : f.ask limit read a = (none, g)) : g.Dry limit := by
  cases a with
  | next =>
      have hdry := (next_honest read h).2.2
      rw [show f.next limit read = (none, g) from hnone] at hdry
      exact hdry rfl
  | nextAtEnd =>
      have hnew := (nextAtEnd_honest read h).2.2
      rw [show f.nextAtEnd limit read = (none, g) from hnone] at hnew
      rw [show g = fresh from hnew rfl]
      exact ⟨List.not_mem_nil, Nat.zero_le _, fun _ => rfl⟩

/-- Asking only drops bytes at the front. -/
theorem buffer_ask (limit : Nat) (read : Bytes → Option α) (f : Framer) (a : Ask) :
    (f.ask limit read a).2.buffer <:+ f.buffer := by
  cases a with
  | next => exact buffer_next limit read f
  | nextAtEnd => exact buffer_nextAtEnd limit read f

/-! ## The same calls with every place checked -/

/-- How far a look goes: to the end of the buffer or one byte past the limit, and no further than a word counts. -/
def reach (limit : Nat) (f : Framer) : Nat := min f.buffer.length (min (limit + 1) maxWord)

/-- One look, unless it reaches out of bounds. -/
def checkedLook? (limit : Nat) (read : Bytes → Option α) (f : Framer) : Option (Look α) := do
  let window ← part? f.buffer f.searched (f.reach limit)
  match f.discarding, window.findIdx? (· == lineFeed) with
  | true, some i =>
    let used ← word? (f.searched + i + 1)
    let (_, rest) ← cut? f.buffer used
    return .again ⟨rest, 0, false⟩
  | true, none =>
    let (_, rest) ← cut? f.buffer (f.reach limit)
    return if rest.isEmpty then .starved ⟨rest, 0, true⟩ else .again ⟨rest, 0, true⟩
  | false, some i =>
    let stop ← word? (f.searched + i)
    let used ← word? (stop + 1)
    let (line, rest) ← cut? f.buffer used
    let line ← part? line 0 stop
    return match readLine read line with
      | some item => .found item ⟨rest, 0, false⟩
      | none => .again ⟨rest, 0, false⟩
  | false, none =>
    return if f.buffer.length > limit then
        .found (.faulty (.tooLarge limit)) { f with searched := 0, discarding := true }
      else .starved { f with searched := f.reach limit }

/-- A look that has to go on has used bytes. -/
theorem length_lt_of_checkedLook? (h : checkedLook? limit read f = some (.again g)) :
    g.buffer.length < f.buffer.length := by
  simp only [checkedLook?, Option.bind_eq_bind, Option.bind_eq_some_iff, Option.pure_def] at h
  obtain ⟨window, _, h⟩ := h
  split at h
  · simp only [Option.bind_eq_some_iff, Option.some.injEq, Look.again.injEq] at h
    obtain ⟨used, hused, parts, hparts, rfl⟩ := h
    obtain ⟨hle, rfl⟩ := eq_of_cut? hparts
    have hpos := eq_of_word? hused
    rw [List.length_drop]
    omega
  · simp only [Option.bind_eq_some_iff, Option.some.injEq] at h
    obtain ⟨parts, hparts, h⟩ := h
    obtain ⟨hle, rfl⟩ := eq_of_cut? hparts
    split at h
    · simp at h
    · rename_i hrest
      simp only [Look.again.injEq] at h
      subst h
      simp only [List.isEmpty_iff, List.drop_eq_nil_iff, Nat.not_le] at hrest
      -- what is left over begins behind one byte at least
      have hword : 0 < maxWord := by decide
      have hpos : 0 < f.reach limit := by simp only [reach]; omega
      rw [List.length_drop]
      omega
  · simp only [Option.bind_eq_some_iff, Option.some.injEq] at h
    obtain ⟨stop, _, used, hused, parts, hparts, line, _, h⟩ := h
    obtain ⟨hle, rfl⟩ := eq_of_cut? hparts
    have hpos := eq_of_word? hused
    split at h
    · simp at h
    · simp only [Look.again.injEq] at h
      subst h
      rw [List.length_drop]
      omega
  · split at h <;> simp at h

/-- **On a sound framer a look stays in bounds**, as long as a word can count what is held. -/
theorem checkedLook?_eq (read : Bytes → Option α) (h : f.Sound limit) (hfits : f.buffer.length ≤ maxWord) :
    checkedLook? limit read f = some (look limit read f) := by
  have hplace : f.searched ≤ f.reach limit := by
    have := h.searched_le
    simp only [reach]
    omega
  have hinside : f.reach limit ≤ f.buffer.length := Nat.min_le_left _ _
  -- a limit that no word can exceed cuts off nothing either way
  have hwindow : f.buffer.take (f.reach limit) = f.buffer.take (limit + 1) := by
    rw [List.take_eq_take_iff]
    simp only [reach]
    omega
  have hlength : (f.buffer.take (limit + 1)).length = f.reach limit := by
    rw [← hwindow, List.length_take, Nat.min_eq_left hinside]
  have hlarge : f.reach limit > limit ↔ f.buffer.length > limit := by
    simp only [reach]
    omega
  unfold checkedLook? look
  simp only [part?_of_le hplace hinside, hwindow, hlength, hlarge, Option.bind_eq_bind, Option.bind_some,
    Option.pure_def]
  cases hi : List.findIdx? (· == lineFeed) (List.drop f.searched (f.buffer.take (limit + 1))) with
  | some i =>
      obtain ⟨_, hlt, _, _⟩ := lineEnd?_eq_some h hi
      have hstop : word? (f.searched + i) = some (f.searched + i) := word?_of_le (by omega)
      have hused : word? (f.searched + i + 1) = some (f.searched + i + 1) := word?_of_le (by omega)
      have hcut := cut?_of_le (show f.searched + i + 1 ≤ f.buffer.length from hlt)
      cases f.discarding with
      | true => simp only [hused, hcut, Option.bind_some]
      | false =>
          have hline : part? (f.buffer.take (f.searched + i + 1)) 0 (f.searched + i)
              = some (f.buffer.take (f.searched + i)) := by
            rw [part?_of_le (Nat.zero_le _) (by rw [List.length_take]; omega), List.take_take, List.drop_zero,
              Nat.min_eq_left (by omega)]
          cases hread : readLine read (f.buffer.take (f.searched + i)) with
          | none => simp only [hstop, hused, hcut, hline, hread, Option.bind_some]
          | some item => simp only [hstop, hused, hcut, hline, hread, Option.bind_some]
  | none =>
      cases f.discarding with
      | true => simp only [cut?_of_le hinside, Option.bind_some]
      | false => rfl

/-- The next item, unless a look reaches out of bounds. -/
def checkedNext? (limit : Nat) (read : Bytes → Option α) (f : Framer) : Option (Option (Inbound α) × Framer) :=
  match _h : checkedLook? limit read f with
  | none => none
  | some (.found item g) => some (some item, g)
  | some (.starved g) => some (none, g)
  | some (.again g) => checkedNext? limit read g
termination_by f.buffer.length
decreasing_by exact length_lt_of_checkedLook? _h

theorem checkedNext?_eq (read : Bytes → Option α) (h : f.Sound limit) (hfits : f.buffer.length ≤ maxWord) :
    checkedNext? limit read f = some (next limit read f) := by
  have hlook := checkedLook?_eq read h hfits
  fun_induction next limit read f with
  | case1 f item g hl =>
      rw [hl] at hlook
      rw [checkedNext?, hlook]
  | case2 f g hl =>
      rw [hl] at hlook
      rw [checkedNext?, hlook]
  | case3 f g hl ih =>
      have hhonest := look_honest read h
      have hlt := length_lt_of_look hl
      rw [hl] at hlook hhonest
      have hg : g.buffer.length ≤ maxWord := by omega
      rw [checkedNext?, hlook]
      exact ih hhonest.1 hg (checkedLook?_eq read hhonest.1 hg)

/-- The next item once nothing more will arrive, unless something is out of bounds. -/
def checkedNextAtEnd? (limit : Nat) (read : Bytes → Option α) (f : Framer) :
    Option (Option (Inbound α) × Framer) := do
  let (answer, g) ← checkedNext? limit read f
  match answer with
  | some item => return (some item, g)
  | none =>
    if g.discarding || g.buffer.isEmpty then return (none, fresh)
    else
      let (line, rest) ← cut? g.buffer g.buffer.length
      return (readLine read line, ⟨rest, 0, g.discarding⟩)

theorem checkedNextAtEnd?_eq (read : Bytes → Option α) (h : f.Sound limit) (hfits : f.buffer.length ≤ maxWord) :
    checkedNextAtEnd? limit read f = some (nextAtEnd limit read f) := by
  have hcut : ∀ bs : Bytes, cut? bs bs.length = some (bs, []) := fun bs => by
    rw [cut?_of_le (Nat.le_refl _), List.take_length, List.drop_length]
  unfold checkedNextAtEnd? nextAtEnd
  simp only [checkedNext?_eq read h hfits, hcut, Option.bind_eq_bind, Option.bind_some, Option.pure_def]
  rcases next limit read f with ⟨answer, g⟩
  cases answer with
  | some item => rfl
  | none =>
      dsimp only
      split
      · rfl
      · rename_i hlast
        simp only [Bool.or_eq_true, not_or, Bool.not_eq_true] at hlast
        rw [hlast.1]
        rfl

/-- One call, unless something is out of bounds. A buffer cannot grow beyond what a word counts. -/
def checkedCall? (limit : Nat) (read : Bytes → Option α) (f : Framer) :
    Call → Option (Option (Inbound α) × Framer)
  | .feed chunk => do
    let _ ← word? (f.buffer.length + chunk.length)
    return (none, f.feed chunk)
  | .ask .next => f.checkedNext? limit read
  | .ask .nextAtEnd => f.checkedNextAtEnd? limit read

/-- Some calls one after the other, unless something is out of bounds. -/
def checkedCalls? (limit : Nat) (read : Bytes → Option α) (f : Framer) :
    List Call → Option (List (Option (Inbound α)) × Framer)
  | [] => some ([], f)
  | c :: cs => do
    let (answer, g) ← f.checkedCall? limit read c
    let (answers, h) ← g.checkedCalls? limit read cs
    return (answer :: answers, h)

theorem checkedCall?_eq (read : Bytes → Option α) (h : f.Sound limit) (hfits : f.buffer.length ≤ maxWord) {c : Call}
    (hafter : (f.call limit read c).2.buffer.length ≤ maxWord) :
    checkedCall? limit read f c = some (f.call limit read c) := by
  cases c with
  | feed chunk =>
      have hroom : f.buffer.length + chunk.length ≤ maxWord := by
        rw [← List.length_append]
        exact hafter
      rw [checkedCall?, word?_of_le hroom]
      rfl
  | ask a =>
      cases a with
      | next => exact checkedNext?_eq read h hfits
      | nextAtEnd => exact checkedNextAtEnd?_eq read h hfits

/-- **No call reaches out of bounds**, as long as a word can count what is held in between. -/
theorem checkedCalls?_eq (read : Bytes → Option α) (cs : List Call) (h : f.Sound limit)
    (hfits : ∀ before, before <+: cs → (f.calls limit read before).2.buffer.length ≤ maxWord) :
    checkedCalls? limit read f cs = some (f.calls limit read cs) := by
  induction cs generalizing f with
  | nil => rfl
  | cons c cs ih =>
      have hnow : f.buffer.length ≤ maxWord := hfits [] List.nil_prefix
      have hafter : (f.call limit read c).2.buffer.length ≤ maxWord :=
        hfits [c] (List.prefix_append [c] cs)
      have hlater := ih (sound_call read h c) fun before hbefore =>
        hfits (c :: before) ((List.prefix_cons_inj c).mpr hbefore)
      rw [checkedCalls?, checkedCall?_eq read h hnow hafter]
      simp only [Option.bind_eq_bind, Option.bind_some, hlater]
      rfl

/-! ## How much is held -/

/-- A framer that gets more bytes only when it has answered nothing, with the last piece it got. -/
inductive Polled (limit : Nat) (read : Bytes → Option α) : Bytes → Framer → Prop
  | fresh : Polled limit read [] fresh
  | ask {last : Bytes} {f : Framer} (h : Polled limit read last f) (a : Ask) :
      Polled limit read last (f.ask limit read a).2
  | feed {last : Bytes} {f g : Framer} {a : Ask} (h : Polled limit read last f)
      (hnone : f.ask limit read a = (none, g)) (chunk : Bytes) : Polled limit read chunk (g.feed chunk)

theorem Polled.sound {last : Bytes} (h : Polled limit read last f) : f.Sound limit := by
  induction h with
  | fresh => exact sound_fresh limit
  | ask h a ih => exact sound_ask read ih a
  | @feed last f g a h hnone chunk ih =>
      have hg := sound_ask read ih a
      rw [hnone] at hg
      exact sound_feed hg chunk

/-- **No more is held than the limit and the last piece.** -/
theorem Polled.length_le {last : Bytes} (h : Polled limit read last f) :
    f.buffer.length ≤ limit + last.length := by
  induction h with
  | fresh => exact Nat.zero_le _
  | ask h a ih => exact Nat.le_trans (buffer_ask limit read _ a).length_le ih
  | @feed last f g a h hnone chunk ih =>
      have hdry := dry_of_ask h.sound hnone
      have hle := hdry.length_le
      simp only [Framer.feed, List.length_append]
      omega

/--
**A framer stays in bounds, and holds little.**

Whatever the limit, and in whatever order a new framer is fed and asked, also at the end of its stream and after it: as
long as a word can count what it holds, none of its looks reaches out of bounds. The place it goes on from is never
behind its buffer, nor further than one byte past the limit, if a word can count that; no line feed stands before the
place, and it is the front while a line is being dropped. Whoever asks and gets nothing leaves no line feed in the
buffer, no more bytes than the limit, and none of a line that is being dropped. So whoever feeds it only then never lets
it hold more than the limit and the last piece.
-/
theorem stays_in_bounds (limit : Nat) (read : Bytes → Option α) (cs : List Call)
    (hfits : ∀ before, before <+: cs → (fresh.calls limit read before).2.buffer.length ≤ maxWord) :
    ∃ answers f, fresh.calls limit read cs = (answers, f)
      ∧ checkedCalls? limit read fresh cs = some (answers, f)
      ∧ f.searched ≤ min f.buffer.length (min (limit + 1) maxWord)
      ∧ lineFeed ∉ f.buffer.take f.searched
      ∧ (f.discarding = true → f.searched = 0)
      ∧ (∀ a g, f.ask limit read a = (none, g) →
          lineFeed ∉ g.buffer ∧ g.buffer.length ≤ limit ∧ (g.discarding = true → g.buffer = []))
      ∧ ∀ last g, Polled limit read last g → g.buffer.length ≤ limit + last.length := by
  have hsound := sound_calls read cs (sound_fresh limit)
  have hlength := hfits cs (List.prefix_refl cs)
  refine ⟨_, _, rfl, checkedCalls?_eq read cs (sound_fresh limit) hfits, ?_, hsound.clear, hsound.restart, ?_, ?_⟩
  · have hplace := hsound.searched_le
    omega
  · intro a g hnone
    have hdry := dry_of_ask hsound hnone
    exact ⟨hdry.unended, hdry.length_le, hdry.dropped⟩
  · intro last g hpolled
    exact hpolled.length_le

/-- A limit of four bytes, and a line that passes it in pieces: at that moment one byte more is held than the limit, and
the pieces that follow are not held at all. Of the line behind it the three bytes that have arrived are kept. -/
theorem stays_in_bounds_in_pieces :
    let cs : List Call := [.feed [0x61, 0x62], .ask .next, .feed [0x63, 0x64, 0x65], .ask .next, .feed [0x66],
      .ask .next, .feed [0x0A, 0x5B, 0x31, 0x5D]]
    let kept : Framer := ⟨[0x5B, 0x31, 0x5D], 3, false⟩
    (∀ before, before <+: cs → (fresh.calls 4 Request.read? before).2.buffer.length ≤ maxWord)
      ∧ (checkedCalls? 4 Request.read? fresh cs).isSome = true
      ∧ (fresh.calls 4 Request.read? cs).2.ask 4 Request.read? .next = (none, kept)
      ∧ lineFeed ∉ kept.buffer
      ∧ Polled 4 Request.read? [0x63, 0x64, 0x65] ⟨[0x61, 0x62, 0x63, 0x64, 0x65], 2, false⟩
      ∧ [0x61, 0x62, 0x63, 0x64, 0x65].length ≤ 4 + [0x63, 0x64, 0x65].length := by
  intro cs kept
  have hfits : ∀ before, before <+: cs → (fresh.calls 4 Request.read? before).2.buffer.length ≤ maxWord := by
    intro before hbefore
    rw [← List.mem_inits] at hbefore
    revert before
    decide +kernel
  have hnone : (fresh.calls 4 Request.read? cs).2.ask 4 Request.read? .next = (none, kept) := by decide +kernel
  have hpolled : Polled 4 Request.read? [0x63, 0x64, 0x65] ⟨[0x61, 0x62, 0x63, 0x64, 0x65], 2, false⟩ := by
    have hnew : fresh.ask 4 Request.read? .next = (none, fresh) := by decide +kernel
    have hbegun : (fresh.feed [0x61, 0x62]).ask 4 Request.read? .next = (none, ⟨[0x61, 0x62], 2, false⟩) := by
      decide +kernel
    exact .feed (.feed .fresh hnew [0x61, 0x62]) hbegun [0x63, 0x64, 0x65]
  obtain ⟨answers, f, hcalls, hchecked, _, _, _, hdry, hheld⟩ := stays_in_bounds 4 Request.read? cs hfits
  have hlast : f.ask 4 Request.read? .next = (none, kept) := by
    rw [hcalls] at hnone
    exact hnone
  exact ⟨hfits, Option.isSome_iff_exists.mpr ⟨_, hchecked⟩, hnone, (hdry .next kept hlast).1, hpolled, hheld _ _ hpolled⟩

end Framer
end MiningPool.Wire

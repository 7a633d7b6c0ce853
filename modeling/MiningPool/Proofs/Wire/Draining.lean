import MiningPool.Proofs.Wire.Bounds
import MiningPool.Proofs.Wire.LineEndings

/-!
# A framer is soon drained

Asking a framer again and again comes to an end, although reporting a line as too large uses no byte. Two things run
out. Within one call every look but the last uses bytes, so there are no more looks than bytes (`Looks.length_le`). From
call to call it is `prospects` that run out: the line feeds held, and one more for what stands behind the last of them,
unless that is being dropped. No look adds to them and every item takes one off (`Seen.prospects_le`). A line that is too
large takes the one more, which comes back only when a line feed is used (`Seen.spent_or_dropping`).

All of this holds of any framer, not only of one that was new once.
-/

namespace MiningPool.Wire.Framer

variable {α : Type} {limit : Nat} {read : Bytes → Option α} {f g : Framer}

/-! ## Looks within one call -/

/-- So many looks follow one another, each of them with more to see. -/
inductive Looks (limit : Nat) (read : Bytes → Option α) : Nat → Framer → Framer → Prop
  | none (f : Framer) : Looks limit read 0 f f
  | again {n : Nat} {f g h : Framer} (hlook : look limit read f = .again g) (hmore : Looks limit read n g h) :
      Looks limit read (n + 1) f h

/-- **There are no more looks than bytes**: each of them has used one at least. -/
theorem Looks.length_le {n : Nat} (hlooks : Looks limit read n f g) : n + g.buffer.length ≤ f.buffer.length := by
  induction hlooks with
  | none f => omega
  | again hlook hmore ih =>
      have hlt := length_lt_of_look hlook
      omega

/-- What asking for the next item comes to: some looks that go on, and one that does not. -/
theorem exists_looks (limit : Nat) (read : Bytes → Option α) (f : Framer) :
    ∃ n g, Looks limit read n f g
      ∧ ((∃ item h, look limit read g = .found item h ∧ next limit read f = (some item, h))
        ∨ ∃ h, look limit read g = .starved h ∧ next limit read f = (none, h)) := by
  fun_induction next limit read f with
  | case1 f item g hlook => exact ⟨0, f, .none f, .inl ⟨item, g, hlook, rfl⟩⟩
  | case2 f g hlook => exact ⟨0, f, .none f, .inr ⟨g, hlook, rfl⟩⟩
  | case3 f g hlook ih =>
      obtain ⟨n, h, hlooks, hlast⟩ := ih
      exact ⟨n + 1, h, .again hlook hlooks, hlast⟩

/-! ## What a look does to the line feeds -/

/-- How many line feeds a framer holds. -/
def lineFeeds (f : Framer) : Nat := f.buffer.count lineFeed

/-- How many items can come of what a framer holds, at the most: one for each line feed, and one for what stands behind
the last, unless there is nothing or it belongs to a line that is being dropped. -/
def prospects (f : Framer) : Nat := f.lineFeeds + if f.discarding || f.buffer.isEmpty then 0 else 1

theorem prospects_le_lineFeeds (f : Framer) : f.prospects ≤ f.lineFeeds + 1 := by
  rw [prospects]
  split <;> omega

theorem lineFeeds_le_prospects (f : Framer) : f.lineFeeds ≤ f.prospects := by
  rw [prospects]
  omega

theorem prospects_of_dropping (h : f.discarding = true) : f.prospects = f.lineFeeds := by
  rw [prospects, h]
  rfl

theorem prospects_of_held (hd : f.discarding = false) (hb : f.buffer ≠ []) : f.prospects = f.lineFeeds + 1 := by
  rw [prospects, hd, Bool.false_or, if_neg (by rwa [List.isEmpty_iff])]

theorem lineFeeds_le_of_suffix (h : g.buffer <:+ f.buffer) : g.lineFeeds ≤ f.lineFeeds :=
  h.sublist.count_le lineFeed

/-- What one look at a framer may come to. `n` bytes are used. -/
inductive Seen (limit : Nat) (read : Bytes → Option α) (f : Framer) : Look α → Prop
  /-- The end of the line that is being dropped. -/
  | tail (n : Nat) (hd : f.discarding = true) (hn : (f.buffer.drop n).count lineFeed < f.lineFeeds) :
      Seen limit read f (.again ⟨f.buffer.drop n, 0, false⟩)
  /-- More of it, and more to see. -/
  | dropping (n : Nat) (hd : f.discarding = true) : Seen limit read f (.again ⟨f.buffer.drop n, 0, true⟩)
  /-- More of it, and no more to see. -/
  | dropped (hd : f.discarding = true) : Seen limit read f (.starved ⟨[], 0, true⟩)
  | line (n : Nat) {line : Bytes} {item : Inbound α} (hd : f.discarding = false)
      (hn : (f.buffer.drop n).count lineFeed < f.lineFeeds) (hread : readLine read line = some item) :
      Seen limit read f (.found item ⟨f.buffer.drop n, 0, false⟩)
  /-- A line that is nothing. -/
  | blank (n : Nat) (hd : f.discarding = false) (hn : (f.buffer.drop n).count lineFeed < f.lineFeeds) :
      Seen limit read f (.again ⟨f.buffer.drop n, 0, false⟩)
  /-- No byte is used. -/
  | tooLarge (hd : f.discarding = false) (hb : f.buffer ≠ []) :
      Seen limit read f (.found (.faulty (.tooLarge limit)) { f with searched := 0, discarding := true })
  | waits (searched : Nat) (hd : f.discarding = false) : Seen limit read f (.starved { f with searched := searched })

/-- Behind a line feed that was found there is one less. -/
theorem count_behind_lt {i : Nat} (hi : f.lineEnd? limit = some i) :
    (f.buffer.drop (f.searched + i + 1)).count lineFeed < f.lineFeeds := by
  obtain ⟨hlt, hfeed, _⟩ := List.findIdx?_eq_some_iff_getElem.mp hi
  simp only [List.length_drop, List.length_take] at hlt
  simp only [List.getElem_drop, List.getElem_take, beq_iff_eq] at hfeed
  have hlen : f.searched + i < f.buffer.length := by omega
  have hcut : f.buffer.drop (f.searched + i) = lineFeed :: f.buffer.drop (f.searched + i + 1) := by
    rw [← hfeed, ← List.drop_eq_getElem_cons hlen]
  have hle := (List.drop_sublist (f.searched + i) f.buffer).count_le lineFeed
  rw [hcut, List.count_cons_self] at hle
  exact hle

/-- **Whatever a look comes to is one of these.** -/
theorem look_seen (limit : Nat) (read : Bytes → Option α) (f : Framer) : Seen limit read f (look limit read f) := by
  have hfold : ∀ i, (List.drop f.searched (f.buffer.take (limit + 1))).findIdx? (· == lineFeed) = i →
      f.lineEnd? limit = i := fun i hi => hi
  unfold look
  dsimp only
  split
  · rename_i i hd hi
    exact .tail _ hd (count_behind_lt (hfold _ hi))
  · rename_i hd hi
    split
    · rename_i hrest
      rw [List.isEmpty_iff.mp hrest]
      exact .dropped hd
    · exact .dropping _ hd
  · rename_i i hd hi
    split
    · rename_i item hread
      exact .line _ hd (count_behind_lt (hfold _ hi)) hread
    · exact .blank _ hd (count_behind_lt (hfold _ hi))
  · rename_i hd hi
    split
    · rename_i hlarge
      refine .tooLarge hd fun hb => ?_
      rw [hb, List.take_nil, List.length_nil] at hlarge
      omega
    · exact .waits _ hd

def Look.item? : Look α → Option (Inbound α)
  | .found item _ => some item
  | .starved _ | .again _ => none

/-- **A look adds nothing to the prospects, and an item takes one off.** -/
theorem Seen.prospects_le {l : Look α} (h : Seen limit read f l) :
    l.item?.toList.length + l.framer.prospects ≤ f.prospects := by
  have hdrop : ∀ n, (f.buffer.drop n).count lineFeed ≤ f.lineFeeds := fun n =>
    (List.drop_sublist n f.buffer).count_le lineFeed
  have hstart : ∀ n, prospects ⟨f.buffer.drop n, 0, false⟩ ≤ (f.buffer.drop n).count lineFeed + 1 := fun n =>
    prospects_le_lineFeeds _
  have hleast := lineFeeds_le_prospects f
  cases h with
  | tail n hd hn =>
      have hnext := hstart n
      simp only [Look.item?, Look.framer, Option.toList_none, List.length_nil]
      omega
  | dropping n hd =>
      have hnext : prospects ⟨f.buffer.drop n, 0, true⟩ = (f.buffer.drop n).count lineFeed := prospects_of_dropping rfl
      have hless := hdrop n
      simp only [Look.item?, Look.framer, Option.toList_none, List.length_nil]
      omega
  | dropped hd => exact Nat.zero_le _
  | @line n line item hd hn hread =>
      have hnext := hstart n
      have hheld : f.prospects = f.lineFeeds + 1 := prospects_of_held hd fun hb => by
        simp [hb, lineFeeds] at hn
      simp only [Look.item?, Look.framer, Option.toList_some, List.length_singleton]
      omega
  | blank n hd hn =>
      have hnext := hstart n
      simp only [Look.item?, Look.framer, Option.toList_none, List.length_nil]
      omega
  | tooLarge hd hb =>
      have hheld := prospects_of_held hd hb
      have hnext : prospects { f with searched := 0, discarding := true } = f.lineFeeds := prospects_of_dropping rfl
      simp only [Look.item?, Look.framer, Option.toList_some, List.length_singleton]
      omega
  | waits searched hd =>
      have hsame : prospects { f with searched := searched } = f.prospects := rfl
      simp only [Look.item?, Look.framer, Option.toList_none, List.length_nil]
      omega

/-- **While a line is dropped, no item comes before a line feed is used.** -/
theorem Seen.spent_or_dropping {l : Look α} (h : Seen limit read f l) (hd : f.discarding = true) :
    l.framer.lineFeeds < f.lineFeeds ∨ (l.item? = none ∧ l.framer.discarding = true) := by
  cases h with
  | tail n _ hn => exact .inl hn
  | dropping n _ => exact .inr ⟨rfl, rfl⟩
  | dropped _ => exact .inr ⟨rfl, rfl⟩
  | line n hd' _ _ => exact absurd hd (by simp [hd'])
  | blank n hd' _ => exact absurd hd (by simp [hd'])
  | tooLarge hd' _ => exact absurd hd (by simp [hd'])
  | waits _ hd' => exact absurd hd (by simp [hd'])

/-- A line is reported as too large without using a byte, and is dropped from then on. -/
theorem Seen.of_tooLarge (h : Seen limit read f (.found (.faulty (.tooLarge limit)) g)) :
    g.buffer = f.buffer ∧ g.discarding = true := by
  cases h with
  | line n hd hn hread => exact absurd (isTooLarge_of_readLine hread) (by simp [Inbound.isTooLarge])
  | tooLarge hd hb => exact ⟨rfl, rfl⟩

/-! ## What a call does to them -/

theorem prospects_next (limit : Nat) (read : Bytes → Option α) (f : Framer) :
    (next limit read f).1.toList.length + (next limit read f).2.prospects ≤ f.prospects := by
  fun_induction next limit read f with
  | case1 f item g hlook =>
      have hseen := (look_seen limit read f).prospects_le
      rw [hlook] at hseen
      exact hseen
  | case2 f g hlook =>
      have hseen := (look_seen limit read f).prospects_le
      rw [hlook] at hseen
      exact hseen
  | case3 f g hlook ih =>
      have hseen := (look_seen limit read f).prospects_le
      rw [hlook] at hseen
      simp only [Look.item?, Look.framer, Option.toList_none, List.length_nil] at hseen
      omega

theorem spent_or_dropping_next (limit : Nat) (read : Bytes → Option α) (hd : f.discarding = true) :
    (next limit read f).2.lineFeeds < f.lineFeeds
      ∨ ((next limit read f).1 = none ∧ (next limit read f).2.discarding = true) := by
  fun_induction next limit read f with
  | case1 f item g hlook =>
      have hseen := (look_seen limit read f).spent_or_dropping hd
      rw [hlook] at hseen
      rcases hseen with hless | ⟨hnone, _⟩
      · exact .inl hless
      · exact absurd hnone (by simp [Look.item?])
  | case2 f g hlook =>
      have hseen := (look_seen limit read f).spent_or_dropping hd
      rw [hlook] at hseen
      rcases hseen with hless | ⟨_, hdropping⟩
      · exact .inl hless
      · exact .inr ⟨rfl, hdropping⟩
  | case3 f g hlook ih =>
      have hseen := (look_seen limit read f).spent_or_dropping hd
      have hbuffer := buffer_look limit read f
      rw [hlook] at hseen hbuffer
      have hfewer : g.lineFeeds ≤ f.lineFeeds := lineFeeds_le_of_suffix hbuffer
      rcases hseen with hless | ⟨_, hdropping⟩
      · -- what is used is not taken back by the looks that follow
        have hrest := lineFeeds_le_of_suffix (buffer_next limit read g)
        exact .inl (Nat.lt_of_le_of_lt hrest hless)
      · exact (ih hdropping).imp_left fun hless => Nat.lt_of_lt_of_le hless hfewer

/-- At the end of a stream there is an item as before, or nothing, or the last line. -/
theorem nextAtEnd_cases (limit : Nat) (read : Bytes → Option α) (f : Framer) :
    (∃ item g, next limit read f = (some item, g) ∧ nextAtEnd limit read f = (some item, g))
      ∨ (∃ g, next limit read f = (none, g) ∧ nextAtEnd limit read f = (none, fresh))
      ∨ ∃ g, next limit read f = (none, g) ∧ g.discarding = false ∧ g.buffer ≠ []
          ∧ nextAtEnd limit read f = (readLine read g.buffer, fresh) := by
  unfold nextAtEnd
  split
  · rename_i item g hnext
    exact .inl ⟨item, g, hnext, rfl⟩
  · rename_i g hnext
    split
    · exact .inr (.inl ⟨g, hnext, rfl⟩)
    · rename_i hlast
      simp only [Bool.or_eq_true, List.isEmpty_iff, not_or, Bool.not_eq_true] at hlast
      exact .inr (.inr ⟨g, hnext, hlast.1, hlast.2, rfl⟩)

/-- **Asking adds nothing to the prospects, and an item takes one off.** -/
theorem prospects_ask (limit : Nat) (read : Bytes → Option α) (f : Framer) (a : Ask) :
    (f.ask limit read a).1.toList.length + (f.ask limit read a).2.prospects ≤ f.prospects := by
  cases a with
  | next => exact prospects_next limit read f
  | nextAtEnd =>
      have hnext := prospects_next limit read f
      rw [ask]
      rcases nextAtEnd_cases limit read f with ⟨item, g, hg, hend⟩ | ⟨g, hg, hend⟩ | ⟨g, hg, hd, hb, hend⟩
      · rw [hend, ← hg]
        exact hnext
      · rw [hend]
        exact Nat.zero_le _
      · have hheld := prospects_of_held hd hb
        have hone : (readLine read g.buffer).toList.length ≤ 1 := Option.length_toList_le
        have hempty : fresh.prospects = 0 := rfl
        rw [hg] at hnext
        rw [hend]
        simp only [Option.toList_none, List.length_nil] at hnext ⊢
        omega

/-- While a line is dropped, an item costs a line feed, or the stream has ended and all is over. -/
theorem spent_or_dropping_ask (limit : Nat) (read : Bytes → Option α) (hd : f.discarding = true) (a : Ask) :
    (f.ask limit read a).2.lineFeeds < f.lineFeeds
      ∨ ((f.ask limit read a).1 = none
        ∧ ((f.ask limit read a).2.discarding = true ∨ (a = .nextAtEnd ∧ (f.ask limit read a).2 = fresh))) := by
  have hnext := spent_or_dropping_next limit read hd
  cases a with
  | next => exact hnext.imp_right fun ⟨hnone, hdropping⟩ => ⟨hnone, .inl hdropping⟩
  | nextAtEnd =>
      rw [ask]
      rcases nextAtEnd_cases limit read f with ⟨item, g, hg, hend⟩ | ⟨g, hg, hend⟩ | ⟨g, hg, hkept, hb, hend⟩
      · rw [hend]
        rw [hg] at hnext
        rcases hnext with hless | ⟨hnone, _⟩
        · exact .inl hless
        · exact absurd hnone (by simp)
      · rw [hend]
        exact .inr ⟨rfl, .inr ⟨rfl, rfl⟩⟩
      · rw [hend]
        rw [hg] at hnext
        rcases hnext with hless | ⟨_, hdropping⟩
        · exact .inl (Nat.lt_of_le_of_lt (Nat.zero_le _) hless)
        · exact absurd hdropping (by simp [hkept])

/-- Looking again shows nothing new. -/
theorem look_of_starved (h : look limit read f = .starved g) : look limit read g = .starved g := by
  unfold look at h
  dsimp only at h
  split at h
  · simp at h
  · split at h
    · rename_i hrest
      simp only [Look.starved.injEq] at h
      rw [List.isEmpty_iff.mp hrest] at h
      rw [← h]
      rfl
    · simp at h
  · split at h <;> simp at h
  · rename_i hd hi
    split at h
    · simp at h
    · rename_i hsmall
      simp only [Look.starved.injEq] at h
      subst h
      -- all of the window has been searched
      have hnone : List.findIdx? (· == lineFeed)
          (List.drop (f.buffer.take (limit + 1)).length (f.buffer.take (limit + 1))) = none := by
        rw [List.drop_length]
        rfl
      simp only [look, hd, hnone, if_neg hsmall]

/-- A new framer has nothing to say, however it is asked. -/
theorem ask_fresh (limit : Nat) (read : Bytes → Option α) (a : Ask) : fresh.ask limit read a = (none, fresh) := by
  cases a with
  | next =>
      rw [ask, next]
      rfl
  | nextAtEnd =>
      rw [ask, nextAtEnd, next]
      rfl

/-- **Whoever asks and gets nothing gets nothing the next time**, and changes nothing. -/
theorem ask_again {a : Ask} (h : f.ask limit read a = (none, g)) : g.ask limit read a = (none, g) := by
  cases a with
  | next =>
      obtain ⟨_, last, _, hlast⟩ := exists_looks limit read f
      rcases hlast with ⟨item, k, _, hnext⟩ | ⟨k, hlook, hnext⟩
      · exact absurd (hnext.symm.trans h) (by simp)
      · obtain ⟨_, rfl⟩ := Prod.mk.inj (hnext.symm.trans h)
        rw [ask, next, look_of_starved hlook]
  | nextAtEnd =>
      rw [ask] at h
      rcases nextAtEnd_cases limit read f with ⟨item, k, _, hend⟩ | ⟨k, _, hend⟩ | ⟨k, _, _, _, hend⟩
      · exact absurd (hend.symm.trans h) (by simp)
      · obtain ⟨_, rfl⟩ := Prod.mk.inj (hend.symm.trans h)
        exact ask_fresh limit read .nextAtEnd
      · obtain ⟨_, rfl⟩ := Prod.mk.inj (hend.symm.trans h)
        exact ask_fresh limit read .nextAtEnd

/-! ## Calls, one after the other -/

/-- The bytes that a call brings. -/
def Call.bytes : Call → Bytes
  | .feed chunk => chunk
  | .ask _ => []

/-- The bytes that some calls bring. -/
def brought (cs : List Call) : Bytes := cs.flatMap Call.bytes

/-- **However a framer is asked, it gives no more items than its prospects.** -/
theorem prospects_calls (limit : Nat) (read : Bytes → Option α) (asks : List Ask) (f : Framer) :
    (f.calls limit read (asks.map .ask)).1.countP Option.isSome + (f.calls limit read (asks.map .ask)).2.prospects
      ≤ f.prospects := by
  induction asks generalizing f with
  | nil => exact Nat.le_of_eq (Nat.zero_add _)
  | cons a asks ih =>
      have hone : (f.call limit read (.ask a)).1.toList.length + (f.call limit read (.ask a)).2.prospects
          ≤ f.prospects := prospects_ask limit read f a
      have hmore := ih (f.call limit read (.ask a)).2
      rw [List.map_cons, calls_cons_fst, calls_cons_snd, List.countP_cons]
      cases hanswer : (f.call limit read (.ask a)).1 with
      | none =>
          rw [hanswer, Option.toList_none, List.length_nil] at hone
          simp only [Option.isSome_none, Bool.false_eq_true, if_false]
          omega
      | some item =>
          rw [hanswer, Option.toList_some, List.length_singleton] at hone
          simp only [Option.isSome_some, if_true]
          omega

/-- Where nothing is answered once, nothing is answered ever after. -/
theorem calls_of_none {a : Ask} (h : f.ask limit read a = (none, g)) (n : Nat) :
    (f.calls limit read (List.replicate n (.ask a))).1 = List.replicate n none := by
  induction n generalizing f with
  | zero => rfl
  | succ n ih =>
      have hcall : f.call limit read (.ask a) = (none, g) := h
      rw [List.replicate_succ, List.replicate_succ, calls_cons_fst, hcall, ih (ask_again h)]

/-- **Asked the same way again and again, a framer gives its items and then nothing for ever.** -/
theorem exists_items (limit : Nat) (read : Bytes → Option α) (a : Ask) (f : Framer) :
    ∃ items : List (Inbound α), items.length ≤ f.prospects
      ∧ ∀ n, (f.calls limit read (List.replicate (items.length + n) (.ask a))).1
          = items.map some ++ List.replicate n none := by
  -- every item leaves fewer prospects
  induction hsize : f.prospects using Nat.strongRecOn generalizing f with
  | ind size ih =>
      have hone := prospects_ask limit read f a
      rcases hanswer : f.ask limit read a with ⟨answer, g⟩
      rw [hanswer] at hone
      cases answer with
      | none =>
          refine ⟨[], Nat.zero_le _, fun n => ?_⟩
          rw [List.length_nil, Nat.zero_add]
          exact calls_of_none hanswer n
      | some item =>
          simp only [Option.toList_some, List.length_singleton] at hone
          obtain ⟨items, hlength, hitems⟩ := ih g.prospects (by omega) g rfl
          have hcall : f.call limit read (.ask a) = (some item, g) := hanswer
          refine ⟨item :: items, ?_, fun n => ?_⟩
          · rw [List.length_cons]
            omega
          · have hcount : (item :: items).length + n = (items.length + n) + 1 := by
              rw [List.length_cons]
              omega
            rw [hcount, List.replicate_succ, calls_cons_fst, hcall, hitems n, List.map_cons, List.cons_append]

theorem lineFeeds_call_le (limit : Nat) (read : Bytes → Option α) (f : Framer) (c : Call) :
    (f.call limit read c).2.lineFeeds ≤ f.lineFeeds + c.bytes.count lineFeed := by
  cases c with
  | feed chunk => exact Nat.le_of_eq List.count_append
  | ask a => exact lineFeeds_le_of_suffix (buffer_ask limit read f a)

theorem count_brought_cons (c : Call) (cs : List Call) :
    (brought (c :: cs)).count lineFeed = c.bytes.count lineFeed + (brought cs).count lineFeed := by
  rw [brought, List.flatMap_cons, List.count_append, brought]

/-- No line feed is made up. -/
theorem lineFeeds_calls_le (limit : Nat) (read : Bytes → Option α) (cs : List Call) (f : Framer) :
    (f.calls limit read cs).2.lineFeeds ≤ f.lineFeeds + (brought cs).count lineFeed := by
  induction cs generalizing f with
  | nil => exact Nat.le_add_right _ _
  | cons c cs ih =>
      have hone := lineFeeds_call_le limit read f c
      have hmore := ih (f.call limit read c).2
      rw [calls_cons_snd, count_brought_cons]
      omega

/-- A stream that has ended brings nothing more. -/
def Ends (cs : List Call) : Prop := cs.Pairwise fun b c => b = .ask .nextAtEnd → c.bytes = []

/-- A new framer that gets nothing gives nothing. -/
theorem answers_of_fresh {cs : List Call} (hnothing : ∀ c ∈ cs, c.bytes = []) {answer : Option (Inbound α)}
    (hanswer : answer ∈ (fresh.calls limit read cs).1) : answer = none := by
  induction cs with
  | nil => exact absurd hanswer List.not_mem_nil
  | cons c cs ih =>
      have hcall : fresh.call limit read c = (none, fresh) := by
        cases c with
        | feed chunk =>
            have hempty : chunk = [] := hnothing _ List.mem_cons_self
            rw [hempty]
            rfl
        | ask a => exact ask_fresh limit read a
      rw [calls_cons_fst, hcall] at hanswer
      rcases List.mem_cons.mp hanswer with rfl | hlater
      · rfl
      · exact ih (fun d hd => hnothing d (List.mem_cons_of_mem c hd)) hlater

/-- While a line is dropped, a call uses a line feed, or it answers nothing, and the line is still being dropped or all
is over. -/
theorem spent_or_dropping_call (limit : Nat) (read : Bytes → Option α) (hd : f.discarding = true) (c : Call) :
    (f.call limit read c).2.lineFeeds < f.lineFeeds + c.bytes.count lineFeed
      ∨ ((f.call limit read c).1 = none
        ∧ ((f.call limit read c).2.discarding = true
          ∨ (c = .ask .nextAtEnd ∧ (f.call limit read c).2 = fresh))) := by
  cases c with
  | feed chunk => exact .inr ⟨rfl, .inl hd⟩
  | ask a =>
      rcases spent_or_dropping_ask limit read hd a with hless | ⟨hnone, hdropping | ⟨rfl, hnew⟩⟩
      · exact .inl hless
      · exact .inr ⟨hnone, .inl hdropping⟩
      · exact .inr ⟨hnone, .inr ⟨rfl, hnew⟩⟩

/-- **While a line is dropped, no item comes before a line feed is used**, whatever arrives. -/
theorem spent_of_item {cs : List Call} (hends : Ends cs) (hd : f.discarding = true) {item : Inbound α}
    (hitem : some item ∈ (f.calls limit read cs).1) :
    (f.calls limit read cs).2.lineFeeds < f.lineFeeds + (brought cs).count lineFeed := by
  induction cs generalizing f with
  | nil => exact absurd hitem List.not_mem_nil
  | cons c cs ih =>
      obtain ⟨hover, hlater⟩ := List.pairwise_cons.mp hends
      have hone := lineFeeds_call_le limit read f c
      have hmore := lineFeeds_calls_le limit read cs (f.call limit read c).2
      rw [calls_cons_fst, List.mem_cons] at hitem
      rw [calls_cons_snd, count_brought_cons]
      rcases spent_or_dropping_call limit read hd c with hless | ⟨hnone, hrest⟩
      · omega
      · -- the item is none of this call
        have hbehind : some item ∈ ((f.call limit read c).2.calls limit read cs).1 :=
          hitem.resolve_left fun hnow => absurd (hnow.trans hnone) (by simp)
        rcases hrest with hdropping | ⟨hend, hnew⟩
        · have hless := ih hlater hdropping hbehind
          omega
        · rw [hnew] at hbehind
          exact absurd (answers_of_fresh (fun d hmem => hover d hmem hend) hbehind) (by simp)

/-- Asking for an item reports a line as too large only to drop it. -/
theorem dropping_of_tooLarge {a : Ask} (h : f.ask limit read a = (some (.faulty (.tooLarge limit)), g)) :
    g.discarding = true := by
  have hnext : ∀ {k : Framer}, next limit read f = (some (.faulty (.tooLarge limit)), k) → k.discarding = true := by
    intro k hk
    obtain ⟨_, last, _, hlast⟩ := exists_looks limit read f
    rcases hlast with ⟨item, k', hlook, hfound⟩ | ⟨k', _, hnone⟩
    · obtain ⟨hitem, rfl⟩ := Prod.mk.inj (hfound.symm.trans hk)
      rw [Option.some.inj hitem] at hlook
      have hseen := look_seen limit read last
      rw [hlook] at hseen
      exact hseen.of_tooLarge.2
    · exact absurd (hnone.symm.trans hk) (by simp)
  cases a with
  | next => exact hnext h
  | nextAtEnd =>
      rw [ask] at h
      rcases nextAtEnd_cases limit read f with ⟨item, k, hk, hend⟩ | ⟨k, _, hend⟩ | ⟨k, _, _, _, hend⟩
      · exact hnext (hk.trans (hend.symm.trans h))
      · exact absurd (hend.symm.trans h) (by simp)
      · -- the last line is within the limit
        obtain ⟨hread, _⟩ := Prod.mk.inj (hend.symm.trans h)
        exact absurd (isTooLarge_of_readLine hread) (by simp [Inbound.isTooLarge])

/--
**A framer is soon drained.**

Whatever a framer holds and however far it is: one call makes no more looks than there are bytes, and one look more that
settles it. However it is asked while nothing arrives, it gives no more items than it holds line feeds, and one; and
asked the same way again and again, it gives so many and then nothing for ever. Reporting a line as too large uses no
byte, but between that and the next item, be it the same report or not, at least one line feed is used of those that were
held and those that arrived.
-/
theorem soon_drained (limit : Nat) (read : Bytes → Option α) (f : Framer) :
    (∀ n g, Looks limit read n f g → n ≤ f.buffer.length)
      ∧ (∃ n g, Looks limit read n f g
        ∧ ((∃ item h, look limit read g = .found item h ∧ next limit read f = (some item, h))
          ∨ ∃ h, look limit read g = .starved h ∧ next limit read f = (none, h)))
      ∧ (∀ asks : List Ask,
          (f.calls limit read (asks.map .ask)).1.countP Option.isSome ≤ f.buffer.count lineFeed + 1)
      ∧ (∀ a, ∃ items : List (Inbound α), items.length ≤ f.buffer.count lineFeed + 1
          ∧ ∀ n, (f.calls limit read (List.replicate (items.length + n) (.ask a))).1
              = items.map some ++ List.replicate n none)
      ∧ (∀ g, look limit read f = .found (.faulty (.tooLarge limit)) g → g.buffer = f.buffer)
      ∧ ∀ a g, f.ask limit read a = (some (.faulty (.tooLarge limit)), g) →
          ∀ cs, Ends cs → ∀ item, some item ∈ (g.calls limit read cs).1 →
            (g.calls limit read cs).2.buffer.count lineFeed
              < g.buffer.count lineFeed + (brought cs).count lineFeed := by
  have hmost : f.prospects ≤ f.buffer.count lineFeed + 1 := prospects_le_lineFeeds f
  refine ⟨?_, exists_looks limit read f, ?_, ?_, ?_, ?_⟩
  · intro n g hlooks
    have hle := hlooks.length_le
    omega
  · intro asks
    have hle := prospects_calls limit read asks f
    omega
  · intro a
    obtain ⟨items, hlength, hitems⟩ := exists_items limit read a f
    exact ⟨items, Nat.le_trans hlength hmost, hitems⟩
  · intro g hlook
    have hseen := look_seen limit read f
    rw [hlook] at hseen
    exact hseen.of_tooLarge.1
  · intro a g hreport cs hends item hitem
    exact spent_of_item hends (dropping_of_tooLarge hreport) hitem

/-- A limit of two bytes, and two lines that are too large: the first goes on in a piece that arrives after it was
reported, the second ends with the stream. -/
theorem soon_drained_two_reports :
    let f : Framer := ⟨[0x61, 0x61, 0x61], 2, false⟩
    let g : Framer := ⟨[0x61, 0x61, 0x61], 0, true⟩
    let cs : List Call := [.ask .next, .feed [0x61, 0x0A, 0x62, 0x62, 0x62], .ask .nextAtEnd, .ask .nextAtEnd]
    f.ask 2 Request.read? .next = (some (.faulty (.tooLarge 2)), g)
      ∧ some (.faulty (.tooLarge 2)) ∈ (g.calls 2 Request.read? cs).1
      ∧ (g.calls 2 Request.read? cs).2.buffer.count lineFeed
        < g.buffer.count lineFeed + (brought cs).count lineFeed := by
  intro f g cs
  have hreport : f.ask 2 Request.read? .next = (some (.faulty (.tooLarge 2)), g) := by decide +kernel
  have hagain : some (.faulty (.tooLarge 2)) ∈ (g.calls 2 Request.read? cs).1 := by decide +kernel
  have hends : Ends cs := by
    unfold Ends
    decide
  obtain ⟨_, _, _, _, _, hspent⟩ := soon_drained 2 Request.read? f
  exact ⟨hreport, hagain, hspent .next g hreport cs hends _ hagain⟩

end MiningPool.Wire.Framer

import Mathlib.Algebra.GroupWithZero.Nat
import MiningPool.Pool.Basic

/-!
# No two sessions are the same

Session ids are given out one at a time, and ids up to any point may be passed over. The counter only goes up, and
whatever was given out or passed over stays behind it. So an id is given out once, whatever the order of the calls,
and when none is left there will be none again.

A session's own part of the nonce space is its id in eight hexadecimal digits. Read as a number they give the id
back, so it is as unique as the id.
-/

namespace MiningPool

/-! ## Hexadecimal digits -/

namespace Text

/-- The value of a hexadecimal digit in lower case. -/
def hexValue (c : Char) : Nat := if c.isDigit then c.toNat - 48 else c.toNat - 87

/-- The number that hexadecimal digits stand for. -/
def ofHex (cs : List Char) : Nat := cs.foldl (fun n c => 16 * n + hexValue c) 0

def IsHexDigit (c : Char) : Prop := c ∈ "0123456789abcdef".toList

theorem hexValue_digitChar : ∀ d < 16, hexValue (Nat.digitChar d) = d := by decide

theorem isHexDigit_digitChar : ∀ d < 16, IsHexDigit (Nat.digitChar d) := by
  unfold IsHexDigit
  decide

theorem ofHex_concat (cs : List Char) (c : Char) : ofHex (cs ++ [c]) = 16 * ofHex cs + hexValue c := by
  rw [ofHex, List.foldl_append]
  rfl

/-- Digits read back give the number. -/
theorem ofHex_toDigits (n : Nat) : ofHex (Nat.toDigits 16 n) = n := by
  induction n using Nat.strongRecOn with
  | ind n ih =>
      by_cases h : n < 16
      · rw [Nat.toDigits_of_lt_base h, ← List.nil_append [n.digitChar], ofHex_concat, hexValue_digitChar n h]
        exact Nat.zero_add n
      · have hlast : n % 16 < 16 := Nat.mod_lt n (by decide)
        rw [Nat.toDigits_of_base_le (by decide) (Nat.le_of_not_lt h), ofHex_concat, ih (n / 16) (by omega),
          hexValue_digitChar _ hlast]
        exact Nat.div_add_mod n 16

/-- Zeros in front do not count. -/
theorem ofHex_zeroPadded (width : Nat) (cs : List Char) : ofHex (zeroPadded width cs) = ofHex cs := by
  have hzeros : ∀ k, (List.replicate k '0').foldl (fun n c => 16 * n + hexValue c) 0 = 0 := by
    intro k
    induction k with
    | zero => rfl
    | succ k ih => exact ih
  rw [ofHex, zeroPadded, List.foldl_append, hzeros]
  rfl

theorem ofHex_hex (width n : Nat) : ofHex (hex width n).toList = n := by
  rw [hex, String.toList_ofList, ofHex_zeroPadded, ofHex_toDigits]

theorem isHexDigit_of_mem_toDigits {n : Nat} {c : Char} (h : c ∈ Nat.toDigits 16 n) : IsHexDigit c := by
  induction n using Nat.strongRecOn with
  | ind n ih =>
      by_cases hn : n < 16
      · rw [Nat.toDigits_of_lt_base hn, List.mem_singleton] at h
        exact h ▸ isHexDigit_digitChar n hn
      · rw [Nat.toDigits_of_base_le (by decide) (Nat.le_of_not_lt hn), List.mem_append, List.mem_singleton] at h
        rcases h with h | rfl
        · exact ih (n / 16) (by omega) h
        · exact isHexDigit_digitChar _ (Nat.mod_lt n (by decide))

theorem isHexDigit_of_mem_hex {width n : Nat} {c : Char} (h : c ∈ (hex width n).toList) : IsHexDigit c := by
  rw [hex, String.toList_ofList, zeroPadded, List.mem_append] at h
  rcases h with h | h
  · rw [List.eq_of_mem_replicate h]
    exact isHexDigit_digitChar 0 (by decide)
  · exact isHexDigit_of_mem_toDigits h

/-- A number that fits is written in just so many digits. -/
theorem length_hex {width n : Nat} (hwidth : 0 < width) (h : n < 16 ^ width) : (hex width n).length = width := by
  have hfits : (Nat.toDigits 16 n).length ≤ width := (Nat.length_toDigits_le_iff (by decide) hwidth).mpr h
  rw [← String.length_toList, hex, String.toList_ofList, zeroPadded, List.length_append, List.length_replicate]
  omega

end Text

/-- **Two sessions never share their part of the nonce space.** -/
theorem eq_of_extranonce1_eq {id id' : Nat} (h : extranonce1 id = extranonce1 id') : id = id' := by
  have hread := congrArg (fun s : String => Text.ofHex s.toList) h
  simpa only [extranonce1, Text.ofHex_hex] using hread

/-! ## Calls -/

namespace Pool

theorem maxSession_eq : maxSession = 4294967295 := by decide

/-- What can be asked about session ids. -/
inductive IdCall where
  | next
  /-- Passes over the ids up to one. -/
  | skip (last : Nat)
  deriving DecidableEq, Repr

/-- What came of a call. -/
inductive IdEvent where
  | given (id : Nat)
  | noneLeft
  | passed (last : Nat)
  deriving DecidableEq, Repr

def idCall (p : Pool) : IdCall → IdEvent × Pool
  | .next =>
    match p.nextSession with
    | (some id, p) => (.given id, p)
    | (none, p) => (.noneLeft, p)
  | .skip last => (.passed last, p.skipSessions last)

/-- What comes of calls, one after the other. -/
def idCalls (p : Pool) : List IdCall → List IdEvent
  | [] => []
  | c :: cs => (p.idCall c).1 :: (p.idCall c).2.idCalls cs

/-- The ids that were given out, the first one first. -/
def givenIds (es : List IdEvent) : List Nat :=
  es.filterMap fun
    | .given id => some id
    | _ => none

theorem mem_givenIds {es : List IdEvent} {id : Nat} : id ∈ givenIds es ↔ .given id ∈ es := by
  constructor
  · intro h
    obtain ⟨e, he, hid⟩ := List.mem_filterMap.mp h
    cases e with
    | given k => rwa [← Option.some.inj hid]
    | noneLeft => exact absurd hid (by simp)
    | passed last => exact absurd hid (by simp)
  · exact fun h => List.mem_filterMap.mpr ⟨.given id, h, rfl⟩

/-- How far something brings the counter. -/
def IdEvent.reach : IdEvent → Nat
  | .given id => id
  | .noneLeft => 0
  | .passed last => last

/-- **A call brings the counter as far as it says and never turns it back.** An id that it gives out is new, and none
is left only at the end. -/
theorem idCall_counts (p : Pool) (c : IdCall) :
    (p.idCall c).2.lastSession = max p.lastSession (p.idCall c).1.reach
      ∧ (∀ id, (p.idCall c).1 = .given id → p.lastSession < id ∧ id ≤ maxSession)
      ∧ ((p.idCall c).1 = .noneLeft → maxSession ≤ p.lastSession) := by
  cases c with
  | skip last => exact ⟨rfl, fun _ h => absurd h (by simp [idCall]), fun h => absurd h (by simp [idCall])⟩
  | next =>
      by_cases hleft : p.lastSession < maxSession
      · have hnext : p.nextSession = (some (p.lastSession + 1), { p with lastSession := p.lastSession + 1 }) :=
          if_pos hleft
        rw [idCall, hnext]
        refine ⟨(Nat.max_eq_right (Nat.le_succ _)).symm, fun id h => ?_, fun h => absurd h (by simp)⟩
        rw [IdEvent.given.injEq] at h
        exact ⟨by omega, by omega⟩
      · have hnone : p.nextSession = (none, p) := if_neg hleft
        rw [idCall, hnone]
        exact ⟨(Nat.max_eq_left (Nat.zero_le _)).symm, fun _ h => absurd h (by simp), fun _ => Nat.le_of_not_lt hleft⟩

/-- All ids that are given out from now on are ahead of the counter. -/
theorem lt_of_given {p : Pool} {calls : List IdCall} {id : Nat} (h : .given id ∈ p.idCalls calls) :
    p.lastSession < id ∧ id ≤ maxSession := by
  induction calls generalizing p with
  | nil => exact absurd h List.not_mem_nil
  | cons c calls ih =>
      obtain ⟨hcounter, hnew, _⟩ := idCall_counts p c
      rcases List.mem_cons.mp h with heq | hlater
      · exact hnew id heq.symm
      · obtain ⟨hlt, hmax⟩ := ih hlater
        exact ⟨by omega, hmax⟩

/-- None is left only after the counter has been brought to the end. -/
theorem reach_of_noneLeft {p : Pool} {calls : List IdCall} {before after : List IdEvent}
    (h : p.idCalls calls = before ++ .noneLeft :: after) :
    maxSession ≤ p.lastSession ∨ ∃ e ∈ before, maxSession ≤ e.reach := by
  induction calls generalizing p before with
  | nil => exact absurd h (by simp [idCalls])
  | cons c calls ih =>
      obtain ⟨hcounter, _, hend⟩ := idCall_counts p c
      rw [idCalls] at h
      cases before with
      | nil => exact Or.inl (hend (List.cons.inj h).1)
      | cons e before =>
          obtain ⟨he, hrest⟩ := List.cons.inj h
          rcases ih hrest with hnow | ⟨e', he', hreach⟩
          · rw [hcounter, he] at hnow
            have hone : maxSession ≤ p.lastSession ∨ maxSession ≤ e.reach := by omega
            rcases hone with hold | hreach
            · exact Or.inl hold
            · exact Or.inr ⟨e, List.mem_cons_self, hreach⟩
          · exact Or.inr ⟨e', List.mem_cons_of_mem e he', hreach⟩

/-- An id may be given out after something happened. -/
def IdEvent.Allows : IdEvent → IdEvent → Prop
  | .given id, .given id' => id < id'
  | .noneLeft, .given _ => False
  | .passed last, .given id' => last < id'
  | _, _ => True

/-- A call allows all that comes of later ones. -/
theorem allows_of_later {p : Pool} {c : IdCall} {calls : List IdCall} {e : IdEvent}
    (h : e ∈ (p.idCall c).2.idCalls calls) : (p.idCall c).1.Allows e := by
  obtain ⟨hcounter, _, hend⟩ := idCall_counts p c
  generalize (p.idCall c).1 = first at hcounter hend ⊢
  cases e with
  | noneLeft => cases first <;> trivial
  | passed last => cases first <;> trivial
  | given id =>
      -- the counter is as far as the call said, and the id is ahead of it
      obtain ⟨hlt, hmax⟩ := lt_of_given h
      rw [hcounter, Nat.max_lt] at hlt
      cases first with
      | given k => exact hlt.2
      | passed last => exact hlt.2
      | noneLeft => exact Nat.lt_irrefl _ (Nat.lt_of_lt_of_le hlt.1 (Nat.le_trans hmax (hend rfl)))

theorem allows_idCalls (p : Pool) (calls : List IdCall) : (p.idCalls calls).Pairwise IdEvent.Allows := by
  induction calls generalizing p with
  | nil => exact List.Pairwise.nil
  | cons c calls ih => exact List.pairwise_cons.mpr ⟨fun _ he => allows_of_later he, ih _⟩

theorem increasing_of_allows {es : List IdEvent} (h : es.Pairwise IdEvent.Allows) :
    (givenIds es).Pairwise (· < ·) := by
  refine List.pairwise_filterMap.mpr (h.imp fun {e e'} hallows id hid id' hid' => ?_)
  cases e with
  | given k =>
      cases e' with
      | given k' =>
          rw [← Option.some.inj hid, ← Option.some.inj hid']
          exact hallows
      | _ => exact absurd hid' (by simp)
  | _ => exact absurd hid (by simp)

/--
**A session is like no other for as long as the pool lives.**

Whatever the order of the calls, the ids that are given out increase and fit 32 bits, each is greater than all that
was passed over before, and once there was none left none is given out any more; there is none left only when the
last one was given out or passed over. In eight lower-case hexadecimal digits the ids are all different.
-/
theorem session_ids_unique (settings : Settings) (calls : List IdCall) :
    let es := (fresh settings).idCalls calls
    (givenIds es).Pairwise (· < ·)
      ∧ (∀ id ∈ givenIds es, 1 ≤ id ∧ id ≤ 4294967295)
      ∧ (∀ before id after, es = before ++ .given id :: after →
          (∀ last, .passed last ∈ before → last < id) ∧ .noneLeft ∉ before)
      ∧ (∀ before after, es = before ++ .noneLeft :: after →
          .given 4294967295 ∈ before ∨ ∃ last, .passed last ∈ before ∧ 4294967295 ≤ last)
      ∧ ((givenIds es).map extranonce1).Nodup
      ∧ ∀ id ∈ givenIds es, (extranonce1 id).length = 8 ∧ ∀ c ∈ (extranonce1 id).toList, Text.IsHexDigit c := by
  intro es
  have hallows : es.Pairwise IdEvent.Allows := allows_idCalls _ calls
  have hincreasing := increasing_of_allows hallows
  have hrange : ∀ id ∈ givenIds es, 1 ≤ id ∧ id ≤ 4294967295 := by
    intro id hid
    obtain ⟨hlt, hmax⟩ := lt_of_given (mem_givenIds.mp hid)
    exact ⟨hlt, maxSession_eq ▸ hmax⟩
  refine ⟨hincreasing, hrange, fun before id after hes => ?_, fun before after hes => ?_, ?_,
    fun id hid => ⟨?_, fun c hc => ?_⟩⟩
  · rw [hes] at hallows
    have hall : ∀ e ∈ before, e.Allows (.given id) :=
      fun e he => (List.pairwise_append.mp hallows).2.2 e he _ List.mem_cons_self
    exact ⟨fun last hlast => hall _ hlast, fun hnone => hall _ hnone⟩
  · rcases reach_of_noneLeft hes with hfresh | ⟨e, he, hreach⟩
    · have hzero : maxSession ≤ 0 := hfresh
      exact absurd hzero (by decide)
    · rw [maxSession_eq] at hreach
      cases e with
      | noneLeft => exact absurd hreach (by decide)
      | passed last => exact Or.inr ⟨last, he, hreach⟩
      | given id =>
          have hid : .given id ∈ es := hes ▸ List.mem_append_left _ he
          have hlast : id = 4294967295 := Nat.le_antisymm (hrange id (mem_givenIds.mpr hid)).2 hreach
          exact Or.inl (hlast ▸ he)
  · refine List.pairwise_map.mpr (hincreasing.imp fun {id id'} hlt heq => ?_)
    exact Nat.ne_of_lt hlt (eq_of_extranonce1_eq heq)
  · have hbound := (hrange id hid).2
    exact Text.length_hex (by decide) (by omega)
  · exact Text.isHexDigit_of_mem_hex hc

end Pool
end MiningPool

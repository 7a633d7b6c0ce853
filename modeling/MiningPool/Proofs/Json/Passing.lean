import Mathlib.Data.List.DropRight
import MiningPool.Json.Reader

/-!
# What can be kept can be passed over

There are two readers of values. One builds the value and goes only so deep; the other follows the brackets and looks
no closer at a string than it has to. Where the first finds a value, the second finds its end at the same place, however
deep the first had to go (`skip_of_keep`).

Passing over goes step by step with a stack of open brackets, so the induction is on the depth of the reader that keeps,
and what it carries is said for any stack: to be before a value is to be behind it (`Passes`).
-/

namespace MiningPool

namespace Utf8

theorem le_of_payload? {b : UInt8} {x : Nat} (h : payload? b = some x) : 0x80 ≤ b.toNat := by
  rw [payload?] at h
  split at h
  · rename_i hb
    exact hb.1
  · simp at h

/-- All bytes of a character but the first are above ASCII. -/
theorem above_of_next? {b : UInt8} {rest r : Bytes} {c : Char} (h : next? (b :: rest) = some (c, r)) :
    ∃ more, rest = more ++ r ∧ ∀ x ∈ more, 0x80 ≤ x.toNat := by
  simp only [next?] at h
  repeat' split at h
  all_goals simp only [Option.map_eq_some_iff, Option.bind_eq_bind, Option.bind_eq_some_iff, Prod.mk.injEq,
    Option.some.injEq, reduceCtorEq] at h
  · obtain ⟨_, _, _, rfl⟩ := h
    exact ⟨[], rfl, by simp⟩
  · rename_i b₁ _
    obtain ⟨_, h₁, _, _, _, rfl⟩ := h
    exact ⟨[b₁], rfl, by simpa using le_of_payload? h₁⟩
  · rename_i b₁ b₂ _
    obtain ⟨_, h₁, _, h₂, _, _, _, rfl⟩ := h
    exact ⟨[b₁, b₂], rfl, by simpa using ⟨le_of_payload? h₁, le_of_payload? h₂⟩⟩
  · rename_i b₁ b₂ b₃ _
    obtain ⟨_, h₁, _, h₂, _, h₃, _, _, _, rfl⟩ := h
    exact ⟨[b₁, b₂, b₃], rfl, by simpa using ⟨le_of_payload? h₁, le_of_payload? h₂, le_of_payload? h₃⟩⟩

end Utf8

namespace Json

open Utf8

/-! ## Strings -/

theorem passBody?_of_end {s r : Bytes} (h : passPiece? s = some (true, r)) : passBody? s = some r := by
  rw [passBody?]
  split
  · rename_i hnone
    exact absurd (h.symm.trans hnone) (by simp)
  · rename_i t hpiece
    have heq := h.symm.trans hpiece
    simp only [Option.some.injEq, Prod.mk.injEq, true_and] at heq
    rw [heq]
  · rename_i t hpiece
    exact absurd (h.symm.trans hpiece) (by simp)

theorem passBody?_of_more {s r : Bytes} (h : passPiece? s = some (false, r)) : passBody? s = passBody? r := by
  rw [passBody?]
  split
  · rename_i hnone
    exact absurd (h.symm.trans hnone) (by simp)
  · rename_i t hpiece
    exact absurd (h.symm.trans hpiece) (by simp)
  · rename_i t hpiece
    have heq := h.symm.trans hpiece
    simp only [Option.some.injEq, Prod.mk.injEq, true_and] at heq
    rw [heq]

/-- Bytes above ASCII are passed over one by one. -/
theorem passBody?_above {more : Bytes} (h : ∀ x ∈ more, 0x80 ≤ x.toNat) (r : Bytes) :
    passBody? (more ++ r) = passBody? r := by
  induction more with
  | nil => rfl
  | cons b more ih =>
      have hb := h b List.mem_cons_self
      have hascii : ∀ c : UInt8, c.toNat < 0x80 → (b == c) = false := by
        rintro c hc
        refine beq_eq_false_iff_ne.mpr ?_
        rintro rfl
        omega
      have hpass : passPiece? (b :: (more ++ r)) = some (false, more ++ r) := by
        simp only [passPiece?, hascii 0x22 (by decide), hascii 0x5C (by decide), Bool.false_eq_true, if_false]
        rw [if_neg (by omega)]
      rw [List.cons_append, passBody?_of_more hpass]
      exact ih fun x hx => h x (List.mem_cons_of_mem b hx)

/-- A character given by its number: two numbers are passed over where one needs a second surrogate. -/
theorem passBody?_longEscape {s r : Bytes} {c : Char} (h : longEscape? s = some (c, r)) :
    passBody? (0x5C :: 0x75 :: s) = passBody? r := by
  have hfirst : ∀ {t u : Bytes} {n : Nat}, hex4? t = some (n, u) → passBody? (0x5C :: 0x75 :: t) = passBody? u := by
    intro t u n ht
    refine passBody?_of_more ?_
    have hnot : ((0x5C : UInt8) == 0x22) = false := by decide
    simp only [passPiece?, hnot, Bool.false_eq_true, if_false, beq_self_eq_true, if_true, ht, Option.map_some]
  simp only [longEscape?, Option.bind_eq_bind, Option.bind_eq_some_iff, Prod.exists] at h
  obtain ⟨n, t, ht, h⟩ := h
  rw [hfirst ht]
  split at h
  · simp only [Option.some.injEq, Prod.mk.injEq] at h
    rw [h.2]
  · split at h
    · simp at h
    · split at h
      · rename_i a b t
        split at h
        · rename_i hpair
          simp only [Bool.and_eq_true, beq_iff_eq] at hpair
          simp only [Option.bind_eq_some_iff, Prod.exists] at h
          obtain ⟨m, u, hu, h⟩ := h
          rw [hpair.1, hpair.2, hfirst hu]
          split at h
          · simp only [Option.some.injEq, Prod.mk.injEq] at h
            rw [h.2]
          · simp at h
        · simp at h
      · simp at h

/-- Whatever is read as one character is passed over. -/
theorem passBody?_of_piece? {s r : Bytes} {c : Char} (h : piece? s = some (some c, r)) :
    passBody? s = passBody? r := by
  cases s with
  | nil => simp [piece?] at h
  | cons b rest =>
      simp only [piece?] at h
      split at h
      · simp at h
      rename_i hquote
      split at h
      · rename_i hslash
        rw [beq_iff_eq] at hslash
        subst hslash
        split at h
        · simp at h
        rename_i e rest
        split at h
        · rename_i hlong
          rw [beq_iff_eq] at hlong
          subst hlong
          simp only [Option.map_eq_some_iff, Prod.mk.injEq, Option.some.injEq, Prod.exists] at h
          obtain ⟨d, t, ht, _, rfl⟩ := h
          exact passBody?_longEscape ht
        · rename_i hlong
          simp only [Option.map_eq_some_iff, Prod.mk.injEq, Option.some.injEq] at h
          obtain ⟨d, hd, _, rfl⟩ := h
          refine passBody?_of_more ?_
          have hnot : ((0x5C : UInt8) == 0x22) = false := by decide
          simp only [passPiece?, hnot, hlong, Bool.false_eq_true, if_false, beq_self_eq_true, if_true, hd,
            Option.map_some]
      rename_i hslash
      split at h
      · simp at h
      rename_i hctl
      simp only [Option.map_eq_some_iff, Prod.mk.injEq, Option.some.injEq, Prod.exists] at h
      obtain ⟨d, t, ht, _, rfl⟩ := h
      obtain ⟨more, rfl, habove⟩ := above_of_next? ht
      have hpass : passPiece? (b :: (more ++ t)) = some (false, more ++ t) := by
        simp only [passPiece?, hquote, hslash, hctl, Bool.false_eq_true, if_false]
      rw [passBody?_of_more hpass, passBody?_above habove]

/-- Where a string is read, it is passed over. -/
theorem passBody?_of_textBody? {s r : Bytes} {seen : List Char} {t : String} (h : textBody? s seen = some (t, r)) :
    passBody? s = some r := by
  fun_induction textBody? s seen with
  | case1 => simp at h
  | case2 s seen u hu =>
      simp only [Option.some.injEq, Prod.mk.injEq] at h
      obtain ⟨_, rfl⟩ := h
      refine passBody?_of_end ?_
      cases s with
      | nil => simp [piece?] at hu
      | cons b rest =>
          simp only [piece?] at hu
          split at hu
          · rename_i hquote
            simp only [Option.some.injEq, Prod.mk.injEq, true_and] at hu
            simp only [passPiece?, hquote, if_true, hu]
          · repeat' split at hu
            all_goals simp at hu
  | case3 s seen c u hu ih => rw [passBody?_of_piece? hu, ih h]

/-! ## Words and keys -/

theorem passScalar?_of_scalar? {s r : Bytes} {v : Value} (h : scalar? s = some (v, r)) : passScalar? s = some r := by
  cases s with
  | nil => simp [scalar?] at h
  | cons b rest =>
      rw [scalar?] at h
      rw [passScalar?]
      split at h
      · rename_i hb
        simp only [Option.map_eq_some_iff, Prod.mk.injEq] at h
        obtain ⟨_, ht, _, rfl⟩ := h
        rw [if_pos hb, ht]
      rename_i hnull
      rw [if_neg hnull]
      split at h
      · rename_i hb
        simp only [Option.map_eq_some_iff, Prod.mk.injEq] at h
        obtain ⟨_, ht, _, rfl⟩ := h
        rw [if_pos hb, ht]
      rename_i htrue
      rw [if_neg htrue]
      split at h
      · rename_i hb
        simp only [Option.map_eq_some_iff, Prod.mk.injEq] at h
        obtain ⟨_, ht, _, rfl⟩ := h
        rw [if_pos hb, ht]
      rename_i hfalse
      rw [if_neg hfalse]
      split at h
      · rename_i hb
        simp only [text?, hb, if_true, Option.map_eq_some_iff, Prod.mk.injEq, Prod.exists] at h
        obtain ⟨t, u, ht, _, rfl⟩ := h
        rw [if_pos hb, passBody?_of_textBody? ht]
      · rename_i hb
        simp only [Option.bind_eq_bind, Option.bind_eq_some_iff, Prod.exists, Option.some.injEq, Prod.mk.injEq] at h
        obtain ⟨p, u, hp, n, _, _, rfl⟩ := h
        rw [if_neg hb, hp, Option.map_some]

theorem passKey?_of_key? {s r : Bytes} {k : String} (h : Reader.key? s = some (k, r)) : passKey? s = some r := by
  simp only [Reader.key?, Option.bind_eq_bind, Option.bind_eq_some_iff, Prod.exists] at h
  obtain ⟨l, t, ht, h⟩ := h
  cases hs : skipBlanks s with
  | nil => simp [hs, text?] at ht
  | cons b rest =>
      rw [hs, text?] at ht
      split at ht
      · rename_i hquote
        simp only [passKey?, hs, hquote, if_true, passBody?_of_textBody? ht, Option.bind_eq_bind, Option.bind_some]
        split at h
        · simp at h
        · rename_i c u hc
          split at h
          · rename_i hcolon
            simp only [Option.some.injEq, Prod.mk.injEq] at h
            rw [if_pos hcolon, h.2]
          · simp at h
      · simp at ht

/-! ## Values -/

theorem skipBlanks_skipBlanks (s : Bytes) : skipBlanks (skipBlanks s) = skipBlanks s :=
  List.dropWhile_idempotent isBlank s

namespace Passing

theorem finish?_of_step? {p q : Passing} (h : p.step? = some q) : p.finish? = q.finish? := by
  have hopen : ¬ (p.ended = true ∧ p.opened = []) := by
    rintro ⟨hended, hnone⟩
    rw [step?, hended, hnone] at h
    split at h <;> simp at h
  rw [finish?, if_neg hopen]
  split
  · rename_i hnone
    exact absurd (h.symm.trans hnone) (by simp)
  · rename_i q' hq
    have heq := h.symm.trans hq
    rw [Option.some.injEq] at heq
    rw [heq]

theorem finish?_of_stuck {p : Passing} (h : p.step? = none) (hopen : ¬ (p.ended = true ∧ p.opened = [])) :
    p.finish? = none := by
  rw [finish?, if_neg hopen]
  split
  · rfl
  · rename_i q hq
    exact absurd (h.symm.trans hq) (by simp)

/-- Blanks in front make no difference. -/
theorem finish?_skipBlanks (opened : List Bracket) (s : Bytes) :
    finish? ⟨false, opened, skipBlanks s⟩ = finish? ⟨false, opened, s⟩ := by
  have hstep : step? ⟨false, opened, skipBlanks s⟩ = step? ⟨false, opened, s⟩ := by
    simp only [step?, skipBlanks_skipBlanks]
  cases h : step? ⟨false, opened, s⟩ with
  | none => rw [finish?_of_stuck h (by simp), finish?_of_stuck (hstep.trans h) (by simp)]
  | some q => rw [finish?_of_step? h, finish?_of_step? (hstep.trans h)]

end Passing

open Passing

/-- Whatever is open, to stand before what this reader reads is to stand behind it. -/
def Reader.Passes {α : Type} (p : Reader α) : Prop :=
  ∀ ⦃s r : Bytes⦄ ⦃a : α⦄, p.read s = some (a, r) →
    ∀ opened, finish? ⟨false, opened, s⟩ = finish? ⟨true, opened, r⟩

namespace Reader

variable {α : Type} {p : Reader α}

theorem Passes.items (h : p.Passes) {s r : Bytes} {seen l : List α} (hread : p.items s seen = some (l, r))
    (opened : List Bracket) : finish? ⟨false, .array :: opened, s⟩ = finish? ⟨true, opened, r⟩ := by
  fun_induction Reader.items p s seen with
  | case1 => simp at hread
  | case2 => simp at hread
  | case3 s seen a t ht b rest hb hcomma ih =>
      rw [h ht, ← ih hread]
      refine finish?_of_step? ?_
      simp only [step?, hb, hcomma, if_true]
  | case4 s seen a t ht b rest hb hcomma hclose =>
      simp only [Option.some.injEq, Prod.mk.injEq] at hread
      rw [h ht, ← hread.2]
      refine finish?_of_step? ?_
      simp only [step?, hb, hcomma, hclose, if_true, if_false, Bool.false_eq_true]
  | case5 => simp at hread

theorem Passes.members {field : String → Reader α} (h : ∀ k, (field k).Passes) {s r : Bytes}
    {seen l : List (String × α)} (hread : members field s seen = some (l, r)) (opened : List Bracket) :
    ∃ t, passKey? s = some t ∧ finish? ⟨false, .object :: opened, t⟩ = finish? ⟨true, opened, r⟩ := by
  fun_induction Reader.members field s seen with
  | case1 => simp at hread
  | case2 => simp at hread
  | case3 => simp at hread
  | case4 s seen k t ht a u hu b rest hb hcomma ih =>
      obtain ⟨next, hkey, hrest⟩ := ih hread
      refine ⟨t, passKey?_of_key? ht, ?_⟩
      rw [h k hu, ← hrest]
      refine finish?_of_step? ?_
      simp only [step?, hb, hcomma, if_true, hkey, Option.map_some]
  | case5 s seen k t ht a u hu b rest hb hcomma hclose =>
      simp only [Option.some.injEq, Prod.mk.injEq] at hread
      refine ⟨t, passKey?_of_key? ht, ?_⟩
      rw [h k hu, ← hread.2]
      refine finish?_of_step? ?_
      simp only [step?, hb, hcomma, hclose, if_true, if_false, Bool.false_eq_true]
  | case6 => simp at hread

end Reader

theorem passes_of_scalar? {s r : Bytes} {v : Value} (h : scalar? (skipBlanks s) = some (v, r))
    (opened : List Bracket) : finish? ⟨false, opened, s⟩ = finish? ⟨true, opened, r⟩ := by
  have hpass := passScalar?_of_scalar? h
  refine finish?_of_step? ?_
  cases hs : skipBlanks s with
  | nil => simp [hs, scalar?] at h
  | cons b rest =>
      rw [hs] at h hpass
      have hbracket : (b == 0x5B) = false ∧ (b == 0x7B) = false := by
        constructor
        all_goals
          refine beq_eq_false_iff_ne.mpr ?_
          rintro rfl
          exact absurd h (by rintro ⟨⟩)
      simp only [step?, hs, hbracket.1, hbracket.2, Bool.false_eq_true, if_false, hpass, Option.map_some]

theorem passes_keepWith {inner : Option (Reader Value)} (h : ∀ p ∈ inner, p.Passes) : (keepWith inner).Passes := by
  intro s r v hread opened
  rw [keepWith] at hread
  dsimp only at hread
  split at hread
  · rename_i b rest p hb
    have hp : p.Passes := h p rfl
    split at hread
    · -- an array
      rename_i harray
      simp only [Option.map_eq_some_iff, Prod.mk.injEq, Prod.exists] at hread
      obtain ⟨l, t, hbody, _, rfl⟩ := hread
      rw [Reader.arrayBody] at hbody
      cases hrest : skipBlanks rest with
      | nil => simp [hrest] at hbody
      | cons c rest' =>
          simp only [hrest] at hbody
          split at hbody
          · rename_i hclose
            simp only [Option.some.injEq, Prod.mk.injEq] at hbody
            rw [← hbody.2]
            refine finish?_of_step? ?_
            simp only [step?, hb, harray, if_true, hrest, hclose, Bool.false_eq_true, if_false]
          · rename_i hclose
            rw [← hp.items hbody, ← hrest, finish?_skipBlanks]
            refine finish?_of_step? ?_
            simp only [step?, hb, harray, if_true, hrest, hclose, Bool.false_eq_true, if_false]
    · rename_i harray
      split at hread
      · -- an object
        rename_i hobject
        simp only [Option.map_eq_some_iff, Prod.mk.injEq, Prod.exists] at hread
        obtain ⟨l, t, hbody, _, rfl⟩ := hread
        rw [Reader.objectBody] at hbody
        cases hrest : skipBlanks rest with
        | nil => simp [hrest] at hbody
        | cons c rest' =>
            simp only [hrest] at hbody
            split at hbody
            · rename_i hclose
              simp only [Option.some.injEq, Prod.mk.injEq] at hbody
              rw [← hbody.2]
              refine finish?_of_step? ?_
              simp only [step?, hb, harray, hobject, if_true, hrest, hclose, Bool.false_eq_true, if_false]
            · rename_i hclose
              obtain ⟨u, hkey, hrest'⟩ := Reader.Passes.members (fun _ => hp) hbody opened
              have hkey' : passKey? rest = some u := by
                rw [← hkey, passKey?, passKey?, ← hrest, skipBlanks_skipBlanks]
              rw [← hrest']
              refine finish?_of_step? ?_
              simp only [step?, hb, harray, hobject, if_true, hrest, hclose, Bool.false_eq_true, if_false, hkey',
                Option.map_some]
      · rw [← hb] at hread
        exact passes_of_scalar? hread opened
  · exact passes_of_scalar? hread opened

theorem passes_keep : ∀ depth, (keep depth).Passes
  | 0 => passes_keepWith fun _ h => absurd h (by simp)
  | depth + 1 => passes_keepWith fun p hp => by
      rw [Option.mem_some_iff] at hp
      subst hp
      exact passes_keep depth

/-- **What can be kept can be passed over**, and leaves the same behind it, however deep it nests. -/
theorem skip_of_keep {depth : Nat} {s r : Bytes} {v : Value} (h : (keep depth).read s = some (v, r)) :
    skip.read s = some ((), r) := by
  have hend : finish? ⟨true, [], r⟩ = some r := by rw [finish?, if_pos ⟨rfl, rfl⟩]
  rw [skip]
  dsimp only
  rw [passes_keep depth h [], hend, Option.map_some]

end Json
end MiningPool

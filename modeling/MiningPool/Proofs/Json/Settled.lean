import MiningPool.Proofs.Json.Values

/-!
# What was read and settled can be written

A reader gives a value as it was written: its brackets nest no deeper than the reader goes, its whole numbers fit 64
bits, and a key may stand in an object again (`gives_keep`). To settle it leaves each key once, and takes nothing in
from outside. So the value meant is plain unless a double is among its numbers, and is one of those that are read back
from what is written for them (`Within.plain_settled`).
-/

namespace MiningPool.Json

open Decimal

namespace Value

/-- A value without a double. -/
inductive Whole : Value → Prop where
  | null : Whole .null
  | bool (b : Bool) : Whole (.bool b)
  | number (n : Int) : Whole (.number (.whole n))
  | string (s : String) : Whole (.string s)
  | array {items : List Value} (hitems : ∀ v ∈ items, Whole v) : Whole (.array items)
  | object {fields : List (String × Value)} (hfields : ∀ f ∈ fields, Whole f.2) : Whole (.object fields)

/-- A value whose brackets nest at most so deep, and whose whole numbers fit 64 bits, signed or unsigned. -/
inductive Within : Nat → Value → Prop where
  | null {d : Nat} : Within d .null
  | bool {d : Nat} (b : Bool) : Within d (.bool b)
  | whole {d : Nat} {n : Int} (hlow : -(twoTo 63 : Int) ≤ n) (hhigh : n < twoTo 64) : Within d (.number (.whole n))
  | double {d : Nat} (x : Binary64) : Within d (.number (.double x))
  | string {d : Nat} (s : String) : Within d (.string s)
  | array {d : Nat} {items : List Value} (hitems : ∀ v ∈ items, Within d v) : Within (d + 1) (.array items)
  | object {d : Nat} {fields : List (String × Value)} (hfields : ∀ f ∈ fields, Within d f.2) :
      Within (d + 1) (.object fields)

/-! ## Depth -/

theorem depthItems_le {vs : List Value} {d : Nat} (h : ∀ v ∈ vs, v.depth ≤ d) : depthItems vs ≤ d := by
  induction vs with
  | nil => exact Nat.zero_le d
  | cons v vs ih =>
      rw [depthItems]
      exact Nat.max_le.mpr ⟨h v List.mem_cons_self, ih fun w hw => h w (List.mem_cons_of_mem v hw)⟩

theorem depthFields_le {fs : List (String × Value)} {d : Nat} (h : ∀ f ∈ fs, f.2.depth ≤ d) : depthFields fs ≤ d := by
  induction fs with
  | nil => exact Nat.zero_le d
  | cons f fs ih =>
      obtain ⟨k, v⟩ := f
      rw [depthFields]
      exact Nat.max_le.mpr ⟨h (k, v) List.mem_cons_self, ih fun g hg => h g (List.mem_cons_of_mem _ hg)⟩

/-! ## Each key once -/

theorem settledItems_eq (vs : List Value) : settledItems vs = vs.map settled := by
  induction vs with
  | nil => rfl
  | cons v vs ih => rw [settledItems, ih, List.map_cons]

variable {k : String} {v : Value} {f : String × Value} {done fs : List (String × Value)}

/-- A field is one that was there, or the new one. -/
theorem mem_of_mem_setField (h : f ∈ setField k v done) : f ∈ done ∨ f = (k, v) := by
  induction done with
  | nil => exact .inr (List.mem_singleton.mp h)
  | cons g done ih =>
      rw [setField] at h
      split at h
      · rename_i hkey
        rcases List.mem_cons.mp h with h | h
        · exact .inr (h.trans (by rw [hkey]))
        · exact .inl (List.mem_cons_of_mem g h)
      · rcases List.mem_cons.mp h with h | h
        · exact .inl (h ▸ List.mem_cons_self)
        · exact (ih h).imp_left (List.mem_cons_of_mem g)

theorem keys_setField (k : String) (v : Value) (h : (done.map (·.1)).Nodup) :
    ((setField k v done).map (·.1)).Nodup := by
  induction done with
  | nil => exact List.nodup_cons.mpr ⟨List.not_mem_nil, List.nodup_nil⟩
  | cons g done ih =>
      rw [List.map_cons, List.nodup_cons] at h
      rw [setField]
      split
      · rw [List.map_cons, List.nodup_cons]
        exact h
      · rename_i hkey
        rw [List.map_cons, List.nodup_cons]
        refine ⟨fun hmem => ?_, ih h.2⟩
        obtain ⟨f, hf, hfst⟩ := List.mem_map.mp hmem
        rcases mem_of_mem_setField hf with hf | rfl
        · exact h.1 (List.mem_map.mpr ⟨f, hf, hfst⟩)
        · exact hkey hfst.symm

/-- A field that is meant was there, or is meant by one that was written. -/
theorem mem_of_mem_settledFields (h : f ∈ settledFields fs done) : f ∈ done ∨ ∃ g ∈ fs, f.2 = g.2.settled := by
  induction fs generalizing done with
  | nil => exact .inl h
  | cons g fs ih =>
      obtain ⟨k, v⟩ := g
      rcases ih h with h | ⟨g, hg, hvalue⟩
      · rcases mem_of_mem_setField h with h | rfl
        · exact .inl h
        · exact .inr ⟨(k, v), List.mem_cons_self, rfl⟩
      · exact .inr ⟨g, List.mem_cons_of_mem _ hg, hvalue⟩

theorem keys_settledFields (fs : List (String × Value)) (h : (done.map (·.1)).Nodup) :
    ((settledFields fs done).map (·.1)).Nodup := by
  induction fs generalizing done with
  | nil => exact h
  | cons f fs ih => exact ih (keys_setField f.1 f.2.settled h)

/-- **A value without a double is plain once it is settled**, and nests no deeper than it did. -/
theorem Within.plain_settled {d : Nat} (h : Within d v) (hwhole : v.settled.Whole) :
    v.settled.Plain ∧ v.settled.depth ≤ d := by
  induction h with
  | null => exact ⟨.null, Nat.zero_le _⟩
  | bool b => exact ⟨.bool b, Nat.zero_le _⟩
  | whole hlow hhigh => exact ⟨.number hlow hhigh, Nat.zero_le _⟩
  | double x => nomatch hwhole
  | string s => exact ⟨.string s, Nat.zero_le _⟩
  | @array d items _ ih =>
      rw [settled, settledItems_eq] at hwhole ⊢
      cases hwhole with
      | array hitems =>
          have hboth : ∀ w ∈ items.map settled, w.Plain ∧ w.depth ≤ d := by
            intro w hw
            obtain ⟨u, hu, rfl⟩ := List.mem_map.mp hw
            exact ih u hu (hitems _ hw)
          exact ⟨.array fun w hw => (hboth w hw).1, Nat.succ_le_succ (depthItems_le fun w hw => (hboth w hw).2)⟩
  | @object d fields _ ih =>
      rw [settled] at hwhole ⊢
      cases hwhole with
      | object hfields =>
          have hboth : ∀ f ∈ settledFields fields [], f.2.Plain ∧ f.2.depth ≤ d := by
            intro f hf
            have hvalue := hfields f hf
            rcases mem_of_mem_settledFields hf with hf | ⟨g, hg, hsettled⟩
            · exact absurd hf List.not_mem_nil
            · rw [hsettled] at hvalue ⊢
              exact ih g hg hvalue
          exact ⟨.object (keys_settledFields fields List.nodup_nil) fun f hf => (hboth f hf).1,
            Nat.succ_le_succ (depthFields_le fun f hf => (hboth f hf).2)⟩

end Value

/-! ## What a reader gives -/

namespace Reader

variable {α β : Type} {p : Reader α} {P : α → Prop} {s r : Bytes}

/-- Whatever a reader gives is of a kind. -/
def Gives (p : Reader α) (P : α → Prop) : Prop := ∀ ⦃s r : Bytes⦄ ⦃a : α⦄, p.read s = some (a, r) → P a

theorem Gives.map {Q : β → Prop} {f : α → β} (h : p.Gives P) (hf : ∀ a, P a → Q (f a)) : (p.map f).Gives Q := by
  intro s r b hread
  simp only [Reader.map, Option.map_eq_some_iff, Prod.mk.injEq, Prod.exists] at hread
  obtain ⟨a, t, ht, rfl, -⟩ := hread
  exact hf a (h ht)

theorem Gives.items (h : p.Gives P) {seen l : List α} (hread : p.items s seen = some (l, r))
    (hseen : ∀ a ∈ seen, P a) : ∀ a ∈ l, P a := by
  fun_induction Reader.items p s seen with
  | case1 => simp at hread
  | case2 => simp at hread
  | case3 s seen a t ht b rest hb hcomma ih => exact ih hread (List.forall_mem_cons.mpr ⟨h ht, hseen⟩)
  | case4 s seen a t ht b rest hb hcomma hclose =>
      simp only [Option.some.injEq, Prod.mk.injEq] at hread
      rw [← hread.1]
      exact fun x hx => List.forall_mem_cons.mpr ⟨h ht, hseen⟩ x (List.mem_reverse.mp hx)
  | case5 => simp at hread

theorem Gives.arrayBody (h : p.Gives P) {l : List α} (hread : p.arrayBody s = some (l, r)) : ∀ a ∈ l, P a := by
  rw [Reader.arrayBody] at hread
  split at hread
  · simp at hread
  · split at hread
    · simp only [Option.some.injEq, Prod.mk.injEq] at hread
      rw [← hread.1]
      exact fun _ ha => absurd ha List.not_mem_nil
    · exact h.items hread fun _ ha => absurd ha List.not_mem_nil

theorem Gives.members {field : String → Reader α} (h : ∀ k, (field k).Gives P) {seen l : List (String × α)}
    (hread : members field s seen = some (l, r)) (hseen : ∀ f ∈ seen, P f.2) : ∀ f ∈ l, P f.2 := by
  fun_induction Reader.members field s seen with
  | case1 => simp at hread
  | case2 => simp at hread
  | case3 => simp at hread
  | case4 s seen k t ht a u hu b rest hb hcomma ih =>
      have hmore : ∀ f ∈ (k, a) :: seen, P f.2 := List.forall_mem_cons.mpr ⟨h k hu, hseen⟩
      exact ih hread hmore
  | case5 s seen k t ht a u hu b rest hb hcomma hclose =>
      have hmore : ∀ f ∈ (k, a) :: seen, P f.2 := List.forall_mem_cons.mpr ⟨h k hu, hseen⟩
      simp only [Option.some.injEq, Prod.mk.injEq] at hread
      rw [← hread.1]
      exact fun f hf => hmore f (List.mem_reverse.mp hf)
  | case6 => simp at hread

theorem Gives.objectBody {field : String → Reader α} (h : ∀ k, (field k).Gives P) {l : List (String × α)}
    (hread : objectBody field s = some (l, r)) : ∀ f ∈ l, P f.2 := by
  rw [Reader.objectBody] at hread
  split at hread
  · simp at hread
  · split at hread
    · simp only [Option.some.injEq, Prod.mk.injEq] at hread
      rw [← hread.1]
      exact fun _ hf => absurd hf List.not_mem_nil
    · exact Gives.members h hread fun _ hf => absurd hf List.not_mem_nil

end Reader

theorem takeSignificand_lt {n : Nat} (h : n < twoTo 64) (ds : List Nat) : (takeSignificand n ds).1 < twoTo 64 := by
  induction ds generalizing n with
  | nil => exact h
  | cons d ds ih =>
      rw [takeSignificand]
      split
      · rename_i hfits
        exact ih hfits
      · exact h

/-- A number that stays whole fits 64 bits. -/
theorem Parts.whole_fits {p : Parts} {n : Int} (h : p.value? = some (.whole n)) :
    -(twoTo 63 : Int) ≤ n ∧ n < twoTo 64 := by
  have hfits := takeSignificand_lt (twoTo_pos 64) p.whole
  rw [Parts.value?] at h
  generalize takeSignificand 0 p.whole = taken at h hfits
  obtain ⟨m, dropped⟩ := taken
  dsimp only at h hfits
  split at h
  · split at h
    · -- without a sign
      simp only [Option.some.injEq, Number.whole.injEq] at h
      omega
    · split at h
      · simp at h
      · rename_i hsmall
        simp only [Option.some.injEq, Number.whole.injEq] at h
        omega
  · simp [Option.map_eq_some_iff] at h

/-- A word nests nowhere. -/
theorem within_of_scalar? {s r : Bytes} {v : Value} (h : scalar? s = some (v, r)) (d : Nat) : v.Within d := by
  unfold scalar? at h
  split at h
  · simp at h
  · split at h
    · simp only [Option.map_eq_some_iff, Prod.mk.injEq] at h
      obtain ⟨-, -, rfl, -⟩ := h
      exact .null
    · split at h
      · simp only [Option.map_eq_some_iff, Prod.mk.injEq] at h
        obtain ⟨-, -, rfl, -⟩ := h
        exact .bool true
      · split at h
        · simp only [Option.map_eq_some_iff, Prod.mk.injEq] at h
          obtain ⟨-, -, rfl, -⟩ := h
          exact .bool false
        · split at h
          · simp only [Option.map_eq_some_iff, Prod.mk.injEq, Prod.exists] at h
            obtain ⟨t, -, -, rfl, -⟩ := h
            exact .string t
          · simp only [Option.bind_eq_bind, Option.bind_eq_some_iff, Prod.exists, Option.some.injEq,
              Prod.mk.injEq] at h
            obtain ⟨p, -, -, n, hn, rfl, -⟩ := h
            cases n with
            | whole n =>
                obtain ⟨hlow, hhigh⟩ := Parts.whole_fits hn
                exact .whole hlow hhigh
            | double x => exact .double x

/-- **A reader that goes so deep gives what nests so deep.** -/
theorem gives_keep (d : Nat) : (keep d).Gives (Value.Within d) := by
  induction d with
  | zero =>
      intro s r v hread
      rw [keep, keepWith] at hread
      dsimp only at hread
      split at hread
      · rename_i hinner
        exact absurd hinner (by simp)
      · exact within_of_scalar? hread 0
  | succ d ih =>
      intro s r v hread
      rw [keep, keepWith] at hread
      dsimp only at hread
      split at hread
      · rename_i b rest p _ hinner
        obtain rfl : keep d = p := Option.some.inj hinner
        split at hread
        · simp only [Option.map_eq_some_iff, Prod.mk.injEq, Prod.exists] at hread
          obtain ⟨items, t, hbody, rfl, -⟩ := hread
          exact .array (ih.arrayBody hbody)
        · split at hread
          · simp only [Option.map_eq_some_iff, Prod.mk.injEq, Prod.exists] at hread
            obtain ⟨fields, t, hbody, rfl, -⟩ := hread
            exact .object (Reader.Gives.objectBody (fun _ => ih) hbody)
          · exact within_of_scalar? hread (d + 1)
      · exact within_of_scalar? hread (d + 1)

end MiningPool.Json

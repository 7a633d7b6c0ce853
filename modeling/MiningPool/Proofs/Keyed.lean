import Mathlib.Data.List.Nodup
import MiningPool.Keyed

/-!
# The keys of entries

What the operations on entries do to the list of keys. None makes a key appear twice, and as long as no key
does, dropping entries shows in what is found under each key.
-/

namespace MiningPool

namespace Keyed

variable {κ α : Type} [DecidableEq κ]

theorem mem_of_get? {m : Keyed κ α} {k : κ} {a : α} (h : m.get? k = some a) : (k, a) ∈ m := by
  obtain ⟨e, he, rfl⟩ := Option.map_eq_some_iff.mp h
  have hk : e.1 = k := by simpa using List.find?_some he
  rw [← hk]
  exact List.mem_of_find?_eq_some he

theorem get?_eq_none_iff {m : Keyed κ α} {k : κ} : m.get? k = none ↔ k ∉ m.map (·.1) := by
  rw [get?, Option.map_eq_none_iff, List.find?_eq_none, List.mem_map]
  constructor
  · rintro hnone ⟨e, he, hk⟩
    exact hnone e he (decide_eq_true hk)
  · intro hnone e he hk
    exact hnone ⟨e, he, of_decide_eq_true hk⟩

theorem get?_cons_self (k : κ) (a : α) (m : Keyed κ α) : get? ((k, a) :: m) k = some a := by
  simp [get?]

theorem get?_cons_of_ne {k l : κ} (h : l ≠ k) (a : α) (m : Keyed κ α) : get? ((l, a) :: m) k = m.get? k := by
  simp [get?, h]

/-- As long as no key appears twice, every entry is found. -/
theorem get?_of_mem {m : Keyed κ α} (h : (m.map (·.1)).Nodup) {k : κ} {a : α} (hmem : (k, a) ∈ m) :
    m.get? k = some a := by
  cases hfound : m.get? k with
  | none => exact absurd (List.mem_map_of_mem hmem) (get?_eq_none_iff.mp hfound)
  | some b =>
      have hsame : (k, b) = (k, a) := List.inj_on_of_nodup_map h (mem_of_get? hfound) hmem rfl
      rw [(Prod.mk.inj hsame).2]

theorem keys_change (m : Keyed κ α) (k : κ) (f : α → α) : (change m k f).map (·.1) = m.map (·.1) := by
  rw [change, List.map_map]
  refine List.map_congr_left fun e _ => ?_
  rw [Function.comp_apply]
  split
  · rfl
  · rfl

theorem keys_erase (m : Keyed κ α) (k : κ) : (m.erase k).map (·.1) = (m.map (·.1)).filter (· ≠ k) := by
  rw [erase, List.filter_map]
  rfl

theorem keys_update (m : Keyed κ α) (k : κ) (nothing : α) (f : α → α) :
    (m.update k nothing f).map (·.1) = if k ∈ m.map (·.1) then m.map (·.1) else m.map (·.1) ++ [k] := by
  induction m with
  | nil => rfl
  | cons e rest ih =>
      obtain ⟨l, a⟩ := e
      rw [update]
      by_cases h : l = k
      · simp [h]
      · simp only [h, if_false, List.map_cons, ih, List.mem_cons, Ne.symm h, false_or]
        split
        · rfl
        · rfl

theorem nodup_update {m : Keyed κ α} (h : (m.map (·.1)).Nodup) (k : κ) (nothing : α) (f : α → α) :
    ((m.update k nothing f).map (·.1)).Nodup := by
  rw [keys_update]
  split
  · exact h
  · rename_i hk
    refine List.nodup_append.mpr ⟨h, List.nodup_singleton k, fun l hl i hi => ?_⟩
    rw [List.mem_singleton.mp hi]
    exact fun heq => hk (heq ▸ hl)

/-- As long as no key appears twice, of an entry is found what was not dropped. -/
theorem get?_filter {m : Keyed κ α} (h : (m.map (·.1)).Nodup) (p : κ × α → Bool) (k : κ) :
    get? (m.filter p) k = (m.get? k).filter fun a => p (k, a) := by
  induction m with
  | nil => rfl
  | cons e rest ih =>
      obtain ⟨l, a⟩ := e
      obtain ⟨hnew, hrest⟩ := List.nodup_cons.mp h
      have ih := ih hrest
      by_cases hk : l = k
      · subst hk
        rw [get?_cons_self, Option.filter_some]
        by_cases hp : p (l, a) = true
        · rw [List.filter_cons_of_pos hp, get?_cons_self, if_pos hp]
        · -- no later entry has this key
          rw [List.filter_cons_of_neg hp, ih, get?_eq_none_iff.mpr hnew, Option.filter_none, if_neg hp]
      · rw [get?_cons_of_ne hk, ← ih]
        by_cases hp : p (l, a) = true
        · rw [List.filter_cons_of_pos hp, get?_cons_of_ne hk]
        · rw [List.filter_cons_of_neg hp]

end Keyed
end MiningPool

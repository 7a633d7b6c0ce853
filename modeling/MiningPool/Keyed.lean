/-!
# Entries under keys

A finite map as a list of pairs. `get?` finds the first entry of a key, and each operation here keeps at
most one. An entry that is replaced keeps its place.
-/

namespace MiningPool

abbrev Keyed (κ α : Type) := List (κ × α)

namespace Keyed

variable {κ α : Type} [DecidableEq κ]

def get? (m : Keyed κ α) (k : κ) : Option α := (m.find? fun e => e.1 = k).map (·.2)

def erase (m : Keyed κ α) (k : κ) : Keyed κ α := m.filter fun e => e.1 ≠ k

/-- With an entry changed, or a new one at the end made from what stands for nothing. -/
def update (m : Keyed κ α) (k : κ) (nothing : α) (f : α → α) : Keyed κ α :=
  match m with
  | [] => [(k, f nothing)]
  | (l, a) :: rest => if l = k then (l, f a) :: rest else (l, a) :: update rest k nothing f

/-- With an entry changed, if there is one. -/
def change (m : Keyed κ α) (k : κ) (f : α → α) : Keyed κ α :=
  m.map fun e => if e.1 = k then (e.1, f e.2) else e

@[simp]
theorem get?_update_self (m : Keyed κ α) (k : κ) (nothing : α) (f : α → α) :
    (m.update k nothing f).get? k = some (f ((m.get? k).getD nothing)) := by
  induction m with
  | nil => simp [update, get?]
  | cons e rest ih =>
    obtain ⟨l, a⟩ := e
    by_cases h : l = k
    · simp [update, get?, h]
    · simp only [update, h, if_false, get?] at ih ⊢
      simpa [List.find?_cons, h] using ih

theorem get?_update_of_ne (m : Keyed κ α) {k l : κ} (h : l ≠ k) (nothing : α) (f : α → α) :
    (m.update k nothing f).get? l = m.get? l := by
  induction m with
  | nil => simp [update, get?, Ne.symm h]
  | cons e rest ih =>
    obtain ⟨j, a⟩ := e
    simp only [update, get?] at ih ⊢
    by_cases hk : j = k
    · have : j ≠ l := fun hl => h (hl ▸ hk)
      simp [hk, Ne.symm h]
    · simp only [hk, if_false, List.find?_cons]
      split
      · rfl
      · exact ih

@[simp]
theorem get?_erase_self (m : Keyed κ α) (k : κ) : (m.erase k).get? k = none := by
  simp only [get?, erase, Option.map_eq_none_iff, List.find?_eq_none, List.mem_filter]
  simp

theorem get?_erase_of_ne (m : Keyed κ α) {k l : κ} (h : l ≠ k) : (m.erase k).get? l = m.get? l := by
  simp only [get?, erase, List.find?_filter]
  congr 2
  funext e
  by_cases he : e.1 = l
  · simp [he, h]
  · simp [he]

theorem get?_map (m : Keyed κ α) (k : κ) (f : α → α) :
    get? (m.map fun e => (e.1, f e.2)) k = (m.get? k).map f := by
  induction m with
  | nil => rfl
  | cons e rest ih =>
    simp only [get?, List.map_cons, List.find?_cons] at ih ⊢
    by_cases h : e.1 = k
    · simp [h]
    · simpa [h] using ih

theorem get?_change_self (m : Keyed κ α) (k : κ) (f : α → α) :
    (change m k f).get? k = (m.get? k).map f := by
  induction m with
  | nil => rfl
  | cons e rest ih =>
    simp only [change, get?, List.map_cons, List.find?_cons] at ih ⊢
    by_cases h : e.1 = k
    · simp [h]
    · simpa [h] using ih

theorem get?_change_of_ne (m : Keyed κ α) {k l : κ} (h : l ≠ k) (f : α → α) :
    (change m k f).get? l = m.get? l := by
  induction m with
  | nil => rfl
  | cons e rest ih =>
    simp only [change, get?, List.map_cons, List.find?_cons] at ih ⊢
    by_cases hk : e.1 = k
    · have hl : e.1 ≠ l := fun hl => h (hl.symm.trans hk)
      simpa [hk, hl, Ne.symm h] using ih
    · by_cases hl : e.1 = l
      · simp [hl, h]
      · simpa [hk, hl] using ih

end Keyed
end MiningPool

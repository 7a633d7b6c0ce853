import MiningPool.Proofs.Roster

/-!
# Where an entry is found

An entry that is removed can still be read from: `find?` finds it as long as no other takes its id. So what each
operation does to one id is told by two things, the entry that is found and whether it is registered. A message that is
offered changes the first, and removes an entry from the roster only if its reader is gone.

The ids stay in ascending order, each once, so a broadcast offers its message once to everyone who is registered.
-/

namespace MiningPool

open Net Wire

/-- An entry after a message was offered to it. -/
def Entry.offered (m : Message) (e : Entry) : Entry := { e with outbox := (e.outbox.offer m).2 }

namespace Roster

variable {r : Roster} {id l : Nat}

/-! ## Registered -/

theorem contains_register_of_ne (h : l ≠ id) (e : Entry) : (r.register id e).contains l = r.contains l := by
  rw [contains, get?_register_of_ne r h, contains]

theorem contains_deregister_of_ne (h : l ≠ id) : (r.deregister id).contains l = r.contains l := by
  rw [contains, get?_deregister_of_ne r h, contains]

theorem contains_change (id l : Nat) (f : Entry → Entry) : (r.change id f).contains l = r.contains l := by
  by_cases h : l = id
  · rw [h, contains, get?_change_self, Option.isSome_map, contains]
  · rw [contains, get?_change_of_ne r h, contains]

/-! ## Found -/

theorem find?_of_get? {e : Entry} (h : r.get? id = some e) : r.find? id = some e := by
  rw [find?, h]
  rfl

theorem find?_of_not_contains (h : r.contains id = false) : r.find? id = Keyed.get? r.former id := by
  rw [contains, Option.isSome_eq_false_iff, Option.isNone_iff_eq_none] at h
  rw [find?, h]
  rfl

theorem find?_register_self (e : Entry) : (r.register id e).find? id = some e :=
  find?_of_get? (get?_register_self r id e)

theorem find?_register_of_ne (h : l ≠ id) (e : Entry) : (r.register id e).find? l = r.find? l := by
  rw [find?, find?, get?_register_of_ne r h, register, Keyed.get?_erase_of_ne r.former h]

/-- What waits for someone who is removed can still be read. -/
theorem find?_deregister : (r.deregister id).find? l = r.find? l := by
  by_cases h : l = id
  · subst h
    cases hget : r.get? l with
    | none => rw [deregister, hget]
    | some e =>
        rw [find?, get?_deregister_self, find?_of_get? hget, deregister, hget]
        exact Keyed.get?_cons_self l e _
  · rw [find?, find?, get?_deregister_of_ne r h]
    unfold deregister
    split
    · rfl
    · rw [Keyed.get?_cons_of_ne (Ne.symm h), Keyed.get?_erase_of_ne r.former h]

theorem find?_change_self (f : Entry → Entry) : (r.change id f).find? id = (r.find? id).map f := by
  cases hget : r.get? id with
  | none =>
      have hnot : r.contains id = false := by rw [contains, hget]; rfl
      have hafter : (r.change id f).contains id = false := by rw [contains_change, hnot]
      rw [find?_of_not_contains hafter, find?_of_not_contains hnot, change, hnot]
      exact Keyed.get?_change_self r.former id f
  | some e =>
      have hafter : (r.change id f).get? id = some (f e) := by rw [get?_change_self, hget]; rfl
      rw [find?_of_get? hafter, find?_of_get? hget]
      rfl

theorem find?_change_of_ne (h : l ≠ id) (f : Entry → Entry) : (r.change id f).find? l = r.find? l := by
  rw [find?, find?, get?_change_of_ne r h]
  unfold change
  split
  · rfl
  · rw [Keyed.get?_change_of_ne r.former h]

/-! ## Offering -/

/-- Whether an entry is registered although its reader is gone. -/
def stale (r : Roster) (id : Nat) : Bool := (r.get? id).any fun e => !e.outbox.isOpen

theorem stale_of_get? {r' : Roster} (h : r'.get? l = r.get? l) : r'.stale l = r.stale l := by
  rw [stale, stale, h]

theorem get?_offer_of_ne (h : l ≠ id) (m : Message) : (r.offer id m).2.get? l = r.get? l := by
  unfold offer
  split
  · rfl
  · split
    · exact get?_deregister_of_ne r h
    · exact get?_change_of_ne r h _

theorem find?_offer_of_ne (h : l ≠ id) (m : Message) : (r.offer id m).2.find? l = r.find? l := by
  unfold offer
  split
  · rfl
  · split
    · exact find?_deregister
    · exact find?_change_of_ne h _

/-- **A message that is offered reaches the entry that is registered, and removes it just if its reader is gone.** -/
theorem offer_self {e : Entry} (he : r.get? id = some e) (m : Message) :
    (r.offer id m).2.find? id = some (e.offered m) ∧ (r.offer id m).2.contains id = !r.stale id := by
  have hstale : r.stale id = !e.outbox.isOpen := by rw [stale, he]; rfl
  have hfind := find?_of_get? he
  rw [hstale, Bool.not_not]
  by_cases hopen : e.outbox.isOpen = true
  case neg =>
    have hoffer : e.outbox.offer m = (.closed, e.outbox) := by simp [Outbox.offer, hopen]
    have hafter : (r.offer id m).2 = r.deregister id := by simp only [offer, he, hoffer]
    rw [hafter, Entry.offered, hoffer]
    refine ⟨find?_deregister.trans hfind, ?_⟩
    rw [contains, get?_deregister_self]
    exact (Bool.eq_false_iff.mpr hopen).symm
  have hafter : (r.offer id m).2 = r.change id fun e' => { e' with outbox := (e.outbox.offer m).2 } := by
    by_cases hfits : e.outbox.waiting.length < e.outbox.capacity
    · simp [offer, he, Outbox.offer, hopen, hfits]
    · simp [offer, he, Outbox.offer, hopen, hfits]
  have hthere : r.contains id = true := by rw [contains, he]; rfl
  rw [hafter, hopen, find?_change_self, hfind]
  exact ⟨rfl, (contains_change _ _ _).trans hthere⟩

theorem offer_of_get?_none (h : r.get? id = none) (m : Message) : (r.offer id m).2 = r := by
  rw [offer, h]

/-- What a message does to one id that is offered to some ids. -/
structure Reached (m : Message) (ids : List Nat) (l : Nat) (r r' : Roster) : Prop where
  found : r'.find? l = if l ∈ ids ∧ r.contains l = true then (r.find? l).map (Entry.offered m) else r.find? l
  contains : r'.contains l = (r.contains l && !(decide (l ∈ ids) && r.stale l))

theorem reached_of_not_mem {m : Message} {ids : List Nat} {r' : Roster} (h : l ∉ ids) (hfind : r'.find? l = r.find? l)
    (hget : r'.get? l = r.get? l) : Reached m ids l r r' where
  found := by rw [if_neg (fun hl => h hl.1), hfind]
  contains := by
    rw [decide_eq_false h, Bool.false_and, Bool.not_false, Bool.and_true, Roster.contains, hget, Roster.contains]

theorem reached_offer (id l : Nat) (m : Message) : Reached m [id] l r (r.offer id m).2 := by
  by_cases h : l = id
  case neg =>
    exact reached_of_not_mem (by simpa using h) (find?_offer_of_ne h m) (get?_offer_of_ne h m)
  subst h
  have hmem : l ∈ [l] := List.mem_singleton.mpr rfl
  cases he : r.get? l with
  | none =>
      have hnot : r.contains l = false := by rw [Roster.contains, he]; rfl
      constructor
      · rw [offer_of_get?_none he, hnot, if_neg (by simp)]
      · rw [offer_of_get?_none he, hnot, Bool.false_and]
  | some e =>
      have hthere : r.contains l = true := by rw [Roster.contains, he]; rfl
      obtain ⟨hfind, hcontains⟩ := offer_self he m
      constructor
      · rw [hfind, hthere, if_pos ⟨hmem, rfl⟩, find?_of_get? he]
        rfl
      · rw [hcontains, hthere, decide_eq_true hmem, Bool.true_and, Bool.true_and]

theorem reached_offerAll (l : Nat) (m : Message) (ids : List Nat) (h : ids.Nodup) : ∀ done : DeliveryReport × Roster,
    Reached m ids l done.2 (offerAll m ids done).2 := by
  induction ids with
  | nil => exact fun done => reached_of_not_mem List.not_mem_nil rfl rfl
  | cons id rest ih =>
      intro done
      obtain ⟨hnew, hrest⟩ := List.nodup_cons.mp h
      have hfirst := reached_offer (r := done.2) id l m
      have hlast := ih hrest ((done.2.offer id m).1.elim done.1 done.1.count, (done.2.offer id m).2)
      by_cases hl : l = id
      · -- it is reached now and not again
        subst hl
        have hmem : l ∈ l :: rest := List.mem_cons_self
        constructor
        · rw [offerAll, hlast.found, if_neg (fun hl => hnew hl.1), hfirst.found]
          simp only [List.mem_singleton, true_and, hmem]
        · rw [offerAll, hlast.contains, decide_eq_false hnew, Bool.false_and, Bool.not_false, Bool.and_true,
            hfirst.contains]
          simp only [List.mem_singleton, decide_true, hmem]
      · have hget := get?_offer_of_ne (r := done.2) hl m
        have hmem : l ∈ id :: rest ↔ l ∈ rest := by rw [List.mem_cons, or_iff_right hl]
        have hthere : (done.2.offer id m).2.contains l = done.2.contains l := by rw [Roster.contains, hget, Roster.contains]
        constructor
        · rw [offerAll, hlast.found, find?_offer_of_ne hl]
          simp only [hmem, hthere]
        · rw [offerAll, hlast.contains, stale_of_get? hget]
          simp only [hmem, hthere]

/-! ## Ascending ids -/

/-- The ids of the connected ascend, so none is there twice. -/
def Sorted (r : Roster) : Prop := r.ids.Pairwise (· < ·)

theorem sorted_empty : empty.Sorted := List.Pairwise.nil

theorem Sorted.nodup (h : r.Sorted) : r.ids.Nodup := h.imp Nat.ne_of_lt

theorem mem_keys_insert {e : Entry} {m : Keyed Nat Entry} {k : Nat} (h : k ∈ (insert id e m).map (·.1)) :
    k = id ∨ k ∈ m.map (·.1) := by
  induction m with
  | nil => exact .inl (by simpa [insert] using h)
  | cons x rest ih =>
      rw [insert] at h
      split at h
      · simpa using h
      · split at h
        · rcases List.mem_cons.mp h with h | h
          · exact .inl h
          · exact .inr (List.mem_cons_of_mem _ h)
        · rcases List.mem_cons.mp h with h | h
          · exact .inr (h ▸ List.mem_cons_self)
          · exact (ih h).imp_right (List.mem_cons_of_mem _)

theorem sorted_insert (e : Entry) {m : Keyed Nat Entry} (h : (m.map (·.1)).Pairwise (· < ·)) :
    ((insert id e m).map (·.1)).Pairwise (· < ·) := by
  induction m with
  | nil => exact List.pairwise_singleton _ _
  | cons x rest ih =>
      obtain ⟨hfirst, hrest⟩ := List.pairwise_cons.mp h
      rw [insert]
      split
      · rename_i hlt
        refine List.pairwise_cons.mpr ⟨fun k hk => ?_, h⟩
        rcases List.mem_cons.mp hk with rfl | hk
        · exact hlt
        · exact Nat.lt_trans hlt (hfirst k hk)
      · split
        · rename_i heq
          exact List.pairwise_cons.mpr ⟨fun k hk => heq ▸ hfirst k hk, hrest⟩
        · refine List.pairwise_cons.mpr ⟨fun k hk => ?_, ih hrest⟩
          rcases mem_keys_insert hk with rfl | hk
          · show x.1 < k
            omega
          · exact hfirst k hk

theorem Sorted.register (h : r.Sorted) (id : Nat) (e : Entry) : (r.register id e).Sorted := sorted_insert e h

theorem Sorted.deregister (h : r.Sorted) (id : Nat) : (r.deregister id).Sorted := by
  unfold Roster.deregister
  split
  · exact h
  · show (List.map (·.1) (Keyed.erase r.entries id)).Pairwise (· < ·)
    rw [Keyed.keys_erase]
    exact h.filter _

theorem Sorted.change (h : r.Sorted) (id : Nat) (f : Entry → Entry) : (r.change id f).Sorted := by
  unfold Roster.change
  split
  · show (List.map (·.1) (Keyed.change r.entries id f)).Pairwise (· < ·)
    rw [Keyed.keys_change]
    exact h
  · exact h

theorem Sorted.offer (h : r.Sorted) (id : Nat) (m : Message) : (r.offer id m).2.Sorted := by
  unfold Roster.offer
  split
  · exact h
  · split
    · exact h.deregister id
    · exact h.change id _

theorem Sorted.offerAll (m : Message) (ids : List Nat) : ∀ {done : DeliveryReport × Roster},
    done.2.Sorted → (Roster.offerAll m ids done).2.Sorted := by
  induction ids with
  | nil => exact fun h => h
  | cons id rest ih => exact fun h => ih (h.offer id m)

/-- **A broadcast offers its message once to each who is registered.** -/
theorem reached_broadcast (h : r.Sorted) (l : Nat) (m : Message) : Reached m r.ids l r (r.broadcast m).2 :=
  reached_offerAll l m r.ids h.nodup (.nothing, r)

/-! ## Taking -/

/-- What a reader finds, registered or not. -/
theorem take_found {e : Entry} (he : r.find? id = some e) (hopen : e.outbox.isOpen = true) :
    (e.outbox.waiting = [] ∧ (r.take id).2 = r ∧ ∀ m, (r.take id).1 ≠ .message m)
      ∨ ∃ m rest, e.outbox.waiting = m :: rest ∧ r.take id
          = (.message m, r.change id fun e' => { e' with outbox := { e.outbox with waiting := rest } }) := by
  cases hw : e.outbox.waiting with
  | nil =>
      have htake : r.take id = (if r.contains id then .nothing else .finished, r) := by
        simp only [take, he, hopen, Bool.not_true, Bool.false_eq_true, if_false, Outbox.take, hw]
      refine .inl ⟨rfl, by rw [htake], fun m => ?_⟩
      rw [htake]
      dsimp only
      split <;> simp
  | cons m rest =>
      refine .inr ⟨m, rest, rfl, ?_⟩
      simp only [take, he, hopen, Bool.not_true, Bool.false_eq_true, if_false, Outbox.take, hw]

theorem take_of_closed {e : Entry} (he : r.find? id = some e) (hopen : e.outbox.isOpen = false) :
    r.take id = (.noReader, r) := by
  simp only [take, he, hopen, Bool.not_false, if_true]

end Roster
end MiningPool

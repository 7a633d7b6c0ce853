import MiningPool.Proofs.Keyed
import MiningPool.Roster

/-!
# One entry at a time, and all ids

What each operation on the roster does to the entry of one id. Those that name another id leave it alone, and
an entry's queue only ever loses its first message, to its own reader, or gets one more at its end.

Who is connected only changes when someone comes or goes. A message that is offered to someone whose reader is gone
removes the entry too, but while all readers are there (`AllOpen`) this does not happen.
-/

namespace MiningPool

open Net Wire

namespace Roster

variable (r : Roster) (id : Nat)

/-! ## Coming and going -/

theorem get?_insert_self (e : Entry) (m : Keyed Nat Entry) : Keyed.get? (insert id e m) id = some e := by
  induction m with
  | nil => simp [insert, Keyed.get?]
  | cons x rest ih =>
      simp only [insert]
      split
      · simp [Keyed.get?]
      · split
        · simp [Keyed.get?]
        · rename_i hne
          simpa [Keyed.get?, Ne.symm hne] using ih

theorem get?_insert_of_ne {id l : Nat} (h : l ≠ id) (e : Entry) (m : Keyed Nat Entry) :
    Keyed.get? (insert id e m) l = Keyed.get? m l := by
  induction m with
  | nil => simp [insert, Keyed.get?, Ne.symm h]
  | cons x rest ih =>
      simp only [insert]
      split
      · simp [Keyed.get?, Ne.symm h]
      · split
        · rename_i heq
          simp [Keyed.get?, Ne.symm h, ← heq]
        · by_cases hx : x.1 = l
          · simp [Keyed.get?, hx]
          · simpa [Keyed.get?, hx] using ih

theorem get?_register_self (e : Entry) : (r.register id e).get? id = some e :=
  get?_insert_self id e r.entries

theorem get?_register_of_ne {id l : Nat} (h : l ≠ id) (e : Entry) : (r.register id e).get? l = r.get? l :=
  get?_insert_of_ne h e r.entries

theorem get?_deregister_self : (r.deregister id).get? id = none := by
  unfold deregister
  split
  · assumption
  · exact Keyed.get?_erase_self r.entries id

theorem get?_deregister_of_ne {id l : Nat} (h : l ≠ id) : (r.deregister id).get? l = r.get? l := by
  unfold deregister
  split
  · rfl
  · exact Keyed.get?_erase_of_ne r.entries h

theorem get?_leave_self : (r.leave id).get? id = none := get?_deregister_self r id

/-! ## Changing an entry -/

theorem get?_change_self (f : Entry → Entry) : (r.change id f).get? id = (r.get? id).map f := by
  unfold change
  split
  · exact Keyed.get?_change_self r.entries id f
  · rename_i h
    rw [contains, Bool.not_eq_true, Option.isSome_eq_false_iff, Option.isNone_iff_eq_none] at h
    rw [h]
    exact h

theorem get?_change_of_ne {id l : Nat} (h : l ≠ id) (f : Entry → Entry) :
    (r.change id f).get? l = r.get? l := by
  unfold change
  split
  · exact Keyed.get?_change_of_ne r.entries h f
  · rfl

/-- A ban asks the entries of an address to close, and touches nothing else. -/
theorem get?_killIp (ip : Ip) :
    (r.killIp ip).2.get? id
      = (r.get? id).map fun e => if e.peer.ip = ip then Entry.askToClose e else e := by
  -- asking someone to close who would not notice changes nothing
  have hmap : (r.killIp ip).2.entries
      = r.entries.map fun e => (e.1, if e.2.peer.ip = ip then Entry.askToClose e.2 else e.2) := by
    refine List.map_congr_left fun e _ => ?_
    by_cases hip : e.2.peer.ip = ip
    · by_cases hl : e.2.listening = true
      · simp [Entry.askToClose, hip, hl]
      · simp [Entry.askToClose, hl]
    · simp [hip]
  rw [get?, hmap]
  exact Keyed.get?_map r.entries id fun e => if e.peer.ip = ip then Entry.askToClose e else e

/-! ## Taking messages -/

/-- What a reader finds, in terms of its entry. -/
theorem take_registered {e : Entry} (he : r.get? id = some e) :
    r.take id =
      if !e.outbox.isOpen then (.noReader, r)
      else match e.outbox.waiting with
        | [] => (.nothing, r)
        | m :: rest =>
          (.message m, r.change id fun e' => { e' with outbox := { e.outbox with waiting := rest } }) := by
  -- what is registered is found before what was removed
  have hfind : r.find? id = some e := by rw [find?, he]; rfl
  rw [take, hfind]
  dsimp only
  split
  · rfl
  · cases hw : e.outbox.waiting with
    | nil => simp [Outbox.take, hw, contains, he]
    | cons m rest => simp only [Outbox.take, hw]

/-- **A reader is given the first message that waits**, and then waits for the others. -/
theorem take_message {e : Entry} {m : Message} {q : Roster} (he : r.get? id = some e)
    (h : r.take id = (.message m, q)) :
    ∃ rest, e.outbox.waiting = m :: rest
      ∧ q.get? id = some { e with outbox := { e.outbox with waiting := rest } } := by
  rw [take_registered r id he] at h
  split at h
  · simp at h
  · split at h
    · simp at h
    · rename_i n rest hw
      simp only [Prod.mk.injEq, Taken.message.injEq] at h
      obtain ⟨rfl, rfl⟩ := h
      refine ⟨rest, hw, ?_⟩
      rw [get?_change_self, he]
      rfl

/-- A reader that is given none of an open queue has none to wait for. -/
theorem waiting_eq_nil {e : Entry} (he : r.get? id = some e) (ho : e.outbox.isOpen = true)
    (h : ∀ m, (r.take id).1 ≠ .message m) : e.outbox.waiting = [] := by
  rw [take_registered r id he, ho] at h
  cases hw : e.outbox.waiting with
  | nil => rfl
  | cons m rest =>
      rw [hw] at h
      exact absurd rfl (h m)

/-- A reader leaves the entries of others alone. -/
theorem get?_take_of_ne {id l : Nat} (h : l ≠ id) : (r.take id).2.get? l = r.get? l := by
  unfold take
  split
  · rfl
  · split
    · rfl
    · split
      · exact get?_change_of_ne r h _
      · rfl

/-! ## What others may do to a queue -/

/-- Between two rosters the entry of an id was removed, or no more happened to its queue than that some
messages were added at its end. -/
def Adds (id : Nat) (r r' : Roster) (ms : List Message) : Prop :=
  ∀ e', r'.get? id = some e' → ∃ e, r.get? id = some e
    ∧ e'.outbox.waiting = e.outbox.waiting ++ ms
    ∧ e'.outbox.isOpen = e.outbox.isOpen

section Adds

variable {r : Roster} {id l : Nat}

theorem Adds.trans {r₁ r₂ : Roster} {ms ns : List Message} (h₁ : Adds id r r₁ ms) (h₂ : Adds id r₁ r₂ ns) :
    Adds id r r₂ (ms ++ ns) := by
  intro e₂ he₂
  obtain ⟨e₁, he₁, hw₂, ho₂⟩ := h₂ e₂ he₂
  obtain ⟨e, he, hw₁, ho₁⟩ := h₁ e₁ he₁
  refine ⟨e, he, ?_, ho₂.trans ho₁⟩
  rw [hw₂, hw₁, List.append_assoc]

theorem adds_of_same {r' : Roster} (h : r'.get? id = r.get? id) : Adds id r r' [] := by
  intro e' he'
  exact ⟨e', h ▸ he', (List.append_nil _).symm, rfl⟩

theorem adds_of_none {r' : Roster} (h : r'.get? id = none) (ms : List Message) : Adds id r r' ms := by
  intro e' he'
  rw [h] at he'
  exact absurd he' (by simp)

/-- A change that leaves outboxes alone adds nothing, whose entry it may be. -/
theorem adds_of_map {r' : Roster} {f : Entry → Entry} (hf : ∀ e, (f e).outbox = e.outbox)
    (h : r'.get? id = (r.get? id).map f) : Adds id r r' [] := by
  intro e' he'
  rw [h] at he'
  obtain ⟨e, he, rfl⟩ := Option.map_eq_some_iff.mp he'
  exact ⟨e, he, by rw [hf, List.append_nil], by rw [hf]⟩

theorem adds_change {f : Entry → Entry} (hf : ∀ e, (f e).outbox = e.outbox) :
    Adds id r (r.change l f) [] := by
  by_cases h : id = l
  · subst h
    exact adds_of_map hf (get?_change_self r id f)
  · exact adds_of_same (get?_change_of_ne r h f)

theorem adds_deregister : Adds id r (r.deregister l) [] := by
  by_cases h : id = l
  · subst h
    exact adds_of_none (get?_deregister_self r id) []
  · exact adds_of_same (get?_deregister_of_ne r h)

theorem adds_leave : Adds id r (r.leave l) [] := adds_deregister

theorem askToClose_outbox (e : Entry) : (Entry.askToClose e).outbox = e.outbox := by
  unfold Entry.askToClose
  split
  · rfl
  · rfl

theorem adds_kill : Adds id r (r.kill l).2 [] := by
  unfold kill
  split
  · exact adds_of_same rfl
  · exact adds_change askToClose_outbox

theorem adds_killIp (ip : Ip) : Adds id r (r.killIp ip).2 [] := by
  refine adds_of_map (fun e => ?_) (get?_killIp r id ip)
  split
  · exact askToClose_outbox e
  · rfl

/-- **A message that is offered to an id is added to its queue if it is taken**, and to no other queue. -/
theorem adds_offer (m : Message) :
    Adds id r (r.offer l m).2 (if l = id ∧ (r.offer l m).1 = some .taken then [m] else []) := by
  cases he : r.get? l with
  | none =>
      have hoffer : r.offer l m = (none, r) := by rw [offer, he]
      rw [hoffer, if_neg (by simp)]
      exact adds_of_same rfl
  | some e =>
      by_cases hopen : e.outbox.isOpen = true
      case neg =>
        -- whoever is found closed is removed
        have hoffer : r.offer l m = (some .closed, r.deregister l) := by
          rw [offer, he]
          simp only [Outbox.offer, hopen, Bool.not_false, if_true]
        rw [hoffer, if_neg (by simp)]
        exact adds_deregister
      by_cases hfits : e.outbox.waiting.length < e.outbox.capacity
      · have hoffer : r.offer l m = (some .taken, r.change l fun e' =>
            { e' with outbox := { e.outbox with waiting := e.outbox.waiting ++ [m] } }) := by
          rw [offer, he]
          simp [Outbox.offer, hopen, hfits]
        rw [hoffer]
        by_cases hl : l = id
        · subst hl
          rw [if_pos ⟨rfl, rfl⟩]
          intro e' he'
          rw [get?_change_self, he, Option.map_some, Option.some.injEq] at he'
          subst he'
          exact ⟨e, he, rfl, rfl⟩
        · rw [if_neg (fun h => hl h.1)]
          exact adds_of_same (get?_change_of_ne r (Ne.symm hl) _)
      · have hoffer : r.offer l m = (some .full, r.change l fun e' => { e' with outbox := e.outbox }) := by
          rw [offer, he]
          simp [Outbox.offer, hopen, hfits]
        rw [hoffer, if_neg (by simp)]
        by_cases hl : l = id
        · subst hl
          refine adds_of_same ?_
          rw [get?_change_self, he]
          rfl
        · exact adds_of_same (get?_change_of_ne r (Ne.symm hl) _)

theorem adds_offerAll (m : Message) (ids : List Nat) : ∀ (done : DeliveryReport × Roster),
    ∃ ms, (∀ x ∈ ms, x = m) ∧ Adds id done.2 (offerAll m ids done).2 ms := by
  induction ids with
  | nil => exact fun done => ⟨[], by simp, adds_of_same rfl⟩
  | cons l rest ih =>
      intro done
      obtain ⟨ms, hms, hadds⟩ := ih ((done.2.offer l m).1.elim done.1 done.1.count, (done.2.offer l m).2)
      refine ⟨_ ++ ms, ?_, (adds_offer m).trans hadds⟩
      intro x hx
      rcases List.mem_append.mp hx with hx | hx
      · split at hx
        · exact List.mem_singleton.mp hx
        · exact absurd hx List.not_mem_nil
      · exact hms x hx

/-- A broadcast adds no other message than its own. -/
theorem adds_broadcast (m : Message) :
    ∃ ms, (∀ x ∈ ms, x = m) ∧ Adds id r (r.broadcast m).2 ms :=
  adds_offerAll m r.ids (.nothing, r)

/-- What another reader takes is none of its messages. -/
theorem adds_take (h : id ≠ l) : Adds id r (r.take l).2 [] := adds_of_same (get?_take_of_ne r h)

end Adds

/-! ## Who is connected -/

/-- All who are connected read what waits for them. -/
def AllOpen (r : Roster) : Prop := ∀ e ∈ r.entries, e.2.outbox.isOpen = true

/-- No one comes or goes, and no reader goes away. -/
structure SameGuests (r r' : Roster) : Prop where
  ids : r'.ids = r.ids
  allOpen : r'.AllOpen

section SameGuests

variable {r r' r'' : Roster}

theorem SameGuests.refl (h : r.AllOpen) : SameGuests r r := ⟨rfl, h⟩

theorem SameGuests.trans (h : SameGuests r r') (h' : SameGuests r' r'') : SameGuests r r'' :=
  ⟨h'.ids.trans h.ids, h'.allOpen⟩

theorem sameGuests_change (h : r.AllOpen) (id : Nat) {f : Entry → Entry}
    (hf : ∀ e, e.outbox.isOpen = true → (f e).outbox.isOpen = true) : SameGuests r (r.change id f) := by
  unfold change
  split
  · refine ⟨Keyed.keys_change r.entries id f, fun e he => ?_⟩
    obtain ⟨e', he', rfl⟩ := List.mem_map.mp he
    have hopen := h e' he'
    split
    · exact hf e'.2 hopen
    · exact hopen
  · exact ⟨rfl, h⟩

theorem sameGuests_take (h : r.AllOpen) (id : Nat) : SameGuests r (r.take id).2 := by
  unfold take
  split
  · exact .refl h
  · rename_i e _
    split
    · exact .refl h
    · rename_i hopen
      have hopen : e.outbox.isOpen = true := by simpa using hopen
      split
      · rename_i m outbox htake
        refine sameGuests_change h id fun _ _ => ?_
        unfold Outbox.take at htake
        split at htake
        · exact absurd htake (by simp)
        · rw [Prod.mk.injEq] at htake
          rw [← htake.2]
          exact hopen
      · exact .refl h

/-- **While all readers are there, offering a message removes no one.** -/
theorem sameGuests_offer (h : r.AllOpen) (id : Nat) (m : Message) : SameGuests r (r.offer id m).2 := by
  unfold offer
  split
  · exact .refl h
  · rename_i e he
    have hopen : e.outbox.isOpen = true := h (id, e) (Keyed.mem_of_get? he)
    by_cases hfits : e.outbox.waiting.length < e.outbox.capacity
    · have htaken : e.outbox.offer m = (.taken, { e.outbox with waiting := e.outbox.waiting ++ [m] }) := by
        simp [Outbox.offer, hopen, hfits]
      rw [htaken]
      exact sameGuests_change h id fun _ _ => hopen
    · have hfull : e.outbox.offer m = (.full, e.outbox) := by simp [Outbox.offer, hopen, hfits]
      rw [hfull]
      exact sameGuests_change h id fun _ _ => hopen

theorem sameGuests_offerAll (m : Message) (ids : List Nat) : ∀ (done : DeliveryReport × Roster),
    done.2.AllOpen → SameGuests done.2 (offerAll m ids done).2 := by
  induction ids with
  | nil => exact fun _ h => .refl h
  | cons id rest ih =>
      intro done h
      have hfirst := sameGuests_offer h id m
      exact hfirst.trans (ih ((done.2.offer id m).1.elim done.1 done.1.count, _) hfirst.allOpen)

theorem sameGuests_kill (h : r.AllOpen) (id : Nat) : SameGuests r (r.kill id).2 := by
  unfold kill
  split
  · exact .refl h
  · refine sameGuests_change h id fun e he => ?_
    rw [askToClose_outbox]
    exact he

theorem sameGuests_killIp (h : r.AllOpen) (ip : Ip) : SameGuests r (r.killIp ip).2 := by
  constructor
  case ids =>
    rw [ids, killIp, List.map_map]
    refine List.map_congr_left fun e _ => ?_
    rw [Function.comp_apply]
    split
    · rfl
    · rfl
  case allOpen =>
    intro e he
    obtain ⟨e', he', rfl⟩ := List.mem_map.mp he
    have hopen := h e' he'
    split
    · exact hopen
    · exact hopen

end SameGuests

theorem ids_leave : (r.leave id).ids = r.ids.filter (· ≠ id) := by
  rw [leave, deregister]
  cases hget : r.get? id with
  | none =>
      -- there was no such entry
      have hnot : id ∉ r.ids := Keyed.get?_eq_none_iff.mp hget
      refine (List.filter_eq_self.mpr fun l hl => decide_eq_true ?_).symm
      rintro rfl
      exact hnot hl
  | some e => exact Keyed.keys_erase r.entries id

theorem allOpen_leave {r : Roster} (h : r.AllOpen) (id : Nat) : (r.leave id).AllOpen := by
  unfold leave deregister
  split
  · exact h
  · exact fun e he => h e (List.mem_of_mem_filter he)

theorem insert_last (e : Entry) (m : Keyed Nat Entry) (h : ∀ x ∈ m, x.1 < id) :
    insert id e m = m ++ [(id, e)] := by
  induction m with
  | nil => rfl
  | cons x rest ih =>
      have hlt := h x List.mem_cons_self
      rw [insert, if_neg (by omega), if_neg (by omega), ih fun y hy => h y (List.mem_cons_of_mem x hy)]
      rfl

/-- **A new id that is greater than all others comes last**, and takes no one's place. -/
theorem entries_register (e : Entry) (h : ∀ l ∈ r.ids, l < id) :
    (r.register id e).entries = r.entries ++ [(id, e)] :=
  insert_last id e r.entries fun _ hx => h _ (List.mem_map_of_mem hx)

end Roster
end MiningPool

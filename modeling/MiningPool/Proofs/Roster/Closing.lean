import MiningPool.Proofs.Roster

/-!
# Who was asked to close

Whoever was asked to close stays asked: whatever is done to a roster, short of registering an id again, its entry
is the one it was but for its queue and its snapshot, or it is gone (`Stays`). But for `publish` it shows the same, too
(`Lasts`). Asking an address to close reaches all its entries that would notice.
-/

namespace MiningPool

open Net Wire

/-- The same connection as others reach it, and as much asked to close as before. -/
structure Entry.Continues (e e' : Entry) : Prop where
  peer : e'.peer = e.peer
  listening : e'.listening = e.listening
  killed : e.killed = true → e'.killed = true

/-- It shows the same as well. -/
structure Entry.Lasts (e e' : Entry) : Prop extends Continues e e' where
  snapshot : e'.snapshot = e.snapshot

theorem Entry.Continues.refl (e : Entry) : e.Continues e := ⟨rfl, rfl, fun h => h⟩

theorem Entry.Continues.trans {e e' e'' : Entry} (h : e.Continues e') (h' : e'.Continues e'') : e.Continues e'' :=
  ⟨h'.peer.trans h.peer, h'.listening.trans h.listening, fun hk => h'.killed (h.killed hk)⟩

theorem Entry.Lasts.refl (e : Entry) : e.Lasts e := ⟨.refl e, rfl⟩

theorem Entry.Lasts.trans {e e' e'' : Entry} (h : e.Lasts e') (h' : e'.Lasts e'') : e.Lasts e'' :=
  ⟨h.toContinues.trans h'.toContinues, h'.snapshot.trans h.snapshot⟩

namespace Roster

theorem lasts_askToClose (e : Entry) : e.Lasts (Entry.askToClose e) := by
  unfold Entry.askToClose
  split
  · exact ⟨⟨rfl, rfl, fun _ => rfl⟩, rfl⟩
  · exact .refl e

/-- Between two rosters the entry of an id was removed, or it continues. -/
def Stays (id : Nat) (r r' : Roster) : Prop :=
  ∀ e', r'.get? id = some e' → ∃ e, r.get? id = some e ∧ e.Continues e'

/-- Between two rosters the entry of an id was removed, or it continues and shows the same. -/
def Lasts (id : Nat) (r r' : Roster) : Prop :=
  ∀ e', r'.get? id = some e' → ∃ e, r.get? id = some e ∧ e.Lasts e'

variable {r r' r'' : Roster} {id l : Nat}

/-- **Whoever has to close has to close from then on.** -/
theorem Stays.mustClose (h : Stays id r r') (hm : r.mustClose id = true) : r'.mustClose id = true := by
  unfold Roster.mustClose at hm ⊢
  cases he' : r'.get? id with
  | none => rfl
  | some e' =>
      obtain ⟨e, he, hcontinues⟩ := h e' he'
      rw [he] at hm
      exact hcontinues.killed hm

theorem Lasts.refl (id : Nat) (r : Roster) : Lasts id r r := fun e he => ⟨e, he, .refl e⟩

theorem Lasts.trans (h : Lasts id r r') (h' : Lasts id r' r'') : Lasts id r r'' := by
  intro e'' he''
  obtain ⟨e', he', hlast⟩ := h' e'' he''
  obtain ⟨e, he, hfirst⟩ := h e' he'
  exact ⟨e, he, hfirst.trans hlast⟩

theorem Lasts.stays (h : Lasts id r r') : Stays id r r' := by
  intro e' he'
  obtain ⟨e, he, hlasts⟩ := h e' he'
  exact ⟨e, he, hlasts.toContinues⟩

theorem lasts_of_same (h : r'.get? id = r.get? id) : Lasts id r r' := by
  intro e he
  exact ⟨e, h ▸ he, .refl e⟩

theorem lasts_of_none (h : r'.get? id = none) : Lasts id r r' := by
  intro e he
  rw [h] at he
  exact absurd he (by simp)

theorem lasts_of_map {f : Entry → Entry} (hf : ∀ e : Entry, e.Lasts (f e)) (h : r'.get? id = (r.get? id).map f) :
    Lasts id r r' := by
  intro e' he'
  rw [h] at he'
  obtain ⟨e, he, rfl⟩ := Option.map_eq_some_iff.mp he'
  exact ⟨e, he, hf e⟩

/-! ## What may be done to a roster -/

theorem lasts_change (r : Roster) (id l : Nat) {f : Entry → Entry} (hf : ∀ e : Entry, e.Lasts (f e)) :
    Lasts id r (r.change l f) := by
  by_cases h : id = l
  · subst h
    exact lasts_of_map hf (get?_change_self r id f)
  · exact lasts_of_same (get?_change_of_ne r h f)

/-- Whatever is done to the outbox of an entry. -/
theorem lasts_outbox (r : Roster) (id l : Nat) (f : Entry → Outbox) :
    Lasts id r (r.change l fun e => { e with outbox := f e }) :=
  lasts_change r id l fun _ => ⟨⟨rfl, rfl, fun h => h⟩, rfl⟩

theorem lasts_deregister (r : Roster) (id l : Nat) : Lasts id r (r.deregister l) := by
  by_cases h : id = l
  · subst h
    exact lasts_of_none (get?_deregister_self r id)
  · exact lasts_of_same (get?_deregister_of_ne r h)

theorem lasts_leave (r : Roster) (id l : Nat) : Lasts id r (r.leave l) := lasts_deregister r id l

theorem lasts_register (r : Roster) {id l : Nat} (h : id ≠ l) (e : Entry) : Lasts id r (r.register l e) :=
  lasts_of_same (get?_register_of_ne r h e)

theorem lasts_offer (r : Roster) (id l : Nat) (m : Message) : Lasts id r (r.offer l m).2 := by
  unfold offer
  split
  · exact .refl id r
  · split
    · exact lasts_deregister r id l
    · exact lasts_outbox r id l _

theorem lasts_offerAll (id : Nat) (m : Message) (ids : List Nat) : ∀ done : DeliveryReport × Roster,
    Lasts id done.2 (offerAll m ids done).2 := by
  induction ids with
  | nil => exact fun done => .refl id done.2
  | cons l rest ih =>
      intro done
      exact (lasts_offer done.2 id l m).trans (ih ((done.2.offer l m).1.elim done.1 done.1.count, _))

theorem lasts_take (r : Roster) (id l : Nat) : Lasts id r (r.take l).2 := by
  unfold take
  split
  · exact .refl id r
  · split
    · exact .refl id r
    · split
      · exact lasts_outbox r id l _
      · exact .refl id r

theorem lasts_kill (r : Roster) (id l : Nat) : Lasts id r (r.kill l).2 := by
  unfold kill
  split
  · exact .refl id r
  · exact lasts_change r id l lasts_askToClose

theorem lasts_killIp (r : Roster) (id : Nat) (ip : Ip) : Lasts id r (r.killIp ip).2 := by
  refine lasts_of_map (fun e => ?_) (get?_killIp r id ip)
  split
  · exact lasts_askToClose e
  · exact .refl e

/-! ## Showing -/

theorem get?_publish_self (r : Roster) (id : Nat) (s : Snapshot) :
    (r.publish id s).get? id = (r.get? id).map fun e => { e with snapshot := s } := get?_change_self r id _

theorem lasts_publish_of_ne (r : Roster) (h : id ≠ l) (s : Snapshot) : Lasts id r (r.publish l s) :=
  lasts_of_same (get?_change_of_ne r h _)

theorem stays_publish (r : Roster) (id l : Nat) (s : Snapshot) : Stays id r (r.publish l s) := by
  by_cases h : id = l
  · subst h
    intro e' he'
    rw [get?_publish_self] at he'
    obtain ⟨e, he, rfl⟩ := Option.map_eq_some_iff.mp he'
    exact ⟨e, he, rfl, rfl, fun hk => hk⟩
  · exact (lasts_publish_of_ne r h s).stays

/-! ## Asking an address -/

/-- **Whoever of an address would notice has to close once the address is asked to.** -/
theorem mustClose_killIp {ip : Ip} (h : ∀ e, r.get? id = some e → e.peer.ip = ip ∧ e.listening = true) :
    (r.killIp ip).2.mustClose id = true := by
  rw [mustClose, get?_killIp]
  cases he : r.get? id with
  | none => rfl
  | some e =>
      obtain ⟨hip, hlistening⟩ := h e he
      rw [Option.map_some, if_pos hip, Entry.askToClose, if_pos hlistening]
      rfl

/-- Whoever is not of that address is left alone. -/
theorem get?_killIp_of_ne {ip : Ip} (h : ∀ e, r.get? id = some e → e.peer.ip ≠ ip) :
    (r.killIp ip).2.get? id = r.get? id := by
  rw [get?_killIp]
  cases he : r.get? id with
  | none => rfl
  | some e => rw [Option.map_some, if_neg (h e he)]

end Roster
end MiningPool

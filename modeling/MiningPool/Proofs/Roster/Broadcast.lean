import MiningPool.Proofs.Roster.Lookup

/-!
# A message for everyone

When a message is offered to all who are registered, what becomes of it is decided for each by that one's own queue, as
it was before: one that is open and has room takes the message at its end, one that is open and full stays as it is, and
an entry whose reader is gone is removed (`get?_broadcast`). The report counts just these answers (`broadcast_fst`).
`Delivers` says both.
-/

namespace MiningPool

open Net Wire

/-! ## One queue -/

namespace Outbox

variable {o : Outbox}

theorem offer_of_room (hopen : o.isOpen = true) (hroom : o.waiting.length < o.capacity) (m : Message) :
    o.offer m = (.taken, { o with waiting := o.waiting ++ [m] }) := by
  rw [offer, hopen, if_neg (by simp), if_pos hroom]

theorem offer_of_full (hopen : o.isOpen = true) (hfull : o.capacity ≤ o.waiting.length) (m : Message) :
    o.offer m = (.full, o) := by
  rw [offer, hopen, if_neg (by simp), if_neg (Nat.not_lt.mpr hfull)]

theorem offer_of_closed (hclosed : o.isOpen = false) (m : Message) : o.offer m = (.closed, o) := by
  rw [offer, hclosed, Bool.not_false, if_pos rfl]

/-- Which answer a queue gives. -/
theorem offer_answer (o : Outbox) (m : Message) :
    (o.offer m).1 = if o.isOpen then (if o.waiting.length < o.capacity then .taken else .full) else .closed := by
  cases hopen : o.isOpen with
  | false => rw [offer_of_closed hopen, if_neg (by simp)]
  | true =>
      rw [if_pos rfl]
      split
      · rename_i hroom
        rw [offer_of_room hopen hroom]
      · rename_i hfull
        rw [offer_of_full hopen (Nat.not_lt.mp hfull)]

theorem offer_eq_taken_iff (m : Message) :
    (o.offer m).1 = .taken ↔ o.isOpen = true ∧ o.waiting.length < o.capacity := by
  rw [offer_answer]
  split
  · split <;> simp [*]
  · simp [*]

theorem offer_eq_full_iff (m : Message) :
    (o.offer m).1 = .full ↔ o.isOpen = true ∧ o.capacity ≤ o.waiting.length := by
  rw [offer_answer, ← Nat.not_lt]
  split
  · split <;> simp [*]
  · simp [*]

theorem offer_eq_closed_iff (m : Message) : (o.offer m).1 = .closed ↔ o.isOpen = false := by
  rw [offer_answer]
  split
  · split <;> simp [*]
  · simp [*]

end Outbox

/-! ## Counting the answers -/

namespace DeliveryReport

theorem foldl_count (answers : List Offer) : ∀ report : DeliveryReport,
    answers.foldl count report
      = ⟨report.delivered + answers.count .taken, report.skipped + answers.count .full,
          report.removed + answers.count .closed⟩ := by
  induction answers with
  | nil => exact fun _ => rfl
  | cons a answers ih =>
      intro report
      rw [List.foldl_cons, ih]
      cases a <;> simp [count] <;> omega

/-- Every answer is one of three. -/
theorem count_answers (answers : List Offer) :
    answers.count .taken + answers.count .full + answers.count .closed = answers.length := by
  induction answers with
  | nil => rfl
  | cons a answers ih => cases a <;> simp <;> omega

end DeliveryReport

namespace Roster

variable {r : Roster} {id : Nat}

/-! ## What each answers -/

/-- What someone answers who is offered a message. -/
def answerOf (r : Roster) (m : Message) (id : Nat) : Option Offer := (r.get? id).map fun e => (e.outbox.offer m).1

theorem offer_fst (m : Message) : (r.offer id m).1 = r.answerOf m id := by
  rw [offer, answerOf]
  cases r.get? id with
  | none => rfl
  | some e =>
      dsimp only [Option.map_some]
      split
      · rename_i hoffer
        rw [hoffer]
      · rename_i hoffer
        rw [hoffer]

/-- A message that is offered to one has no bearing on what another answers. -/
theorem answerOf_offer_of_ne {l : Nat} (h : l ≠ id) (m : Message) :
    (r.offer id m).2.answerOf m l = r.answerOf m l := by
  rw [answerOf, answerOf, get?_offer_of_ne h]

theorem offerAll_fst (m : Message) (ids : List Nat) (h : ids.Nodup) : ∀ done : DeliveryReport × Roster,
    (offerAll m ids done).1 = (ids.filterMap (done.2.answerOf m)).foldl DeliveryReport.count done.1 := by
  induction ids with
  | nil => exact fun _ => rfl
  | cons id rest ih =>
      intro done
      obtain ⟨hnew, hrest⟩ := List.nodup_cons.mp h
      -- those who come later answer as they would have before
      have hlater : rest.filterMap ((done.2.offer id m).2.answerOf m) = rest.filterMap (done.2.answerOf m) :=
        List.filterMap_congr fun l hl => answerOf_offer_of_ne (ne_of_mem_of_not_mem hl hnew) m
      rw [offerAll, ih hrest, hlater, offer_fst]
      cases hanswer : done.2.answerOf m id with
      | none => rw [List.filterMap_cons_none hanswer, Option.elim_none]
      | some a => rw [List.filterMap_cons_some hanswer, Option.elim_some, List.foldl_cons]

/-- Everyone who is registered answers. -/
theorem filterMap_answerOf (h : r.Sorted) (m : Message) :
    r.ids.filterMap (r.answerOf m) = r.entries.map fun e => (e.2.outbox.offer m).1 := by
  rw [ids, List.filterMap_map, ← List.filterMap_eq_map]
  refine List.filterMap_congr fun e he => ?_
  rw [Function.comp_apply, answerOf, show r.get? e.1 = some e.2 from Keyed.get?_of_mem h.nodup he]
  rfl

/-- **The report of a broadcast counts what each answered.** -/
theorem broadcast_fst (h : r.Sorted) (m : Message) :
    (r.broadcast m).1
      = (r.entries.map fun e => (e.2.outbox.offer m).1).foldl DeliveryReport.count .nothing := by
  rw [broadcast, offerAll_fst m r.ids h.nodup, filterMap_answerOf h]

/-! ## What becomes of each -/

/-- **After a broadcast an entry is there if its queue was open, and has been offered the message once.** -/
theorem get?_broadcast (h : r.Sorted) (m : Message) (id : Nat) :
    (r.broadcast m).2.get? id = ((r.get? id).filter (·.outbox.isOpen)).map (Entry.offered m) := by
  obtain ⟨hfound, hcontains⟩ := reached_broadcast h id m
  cases he : r.get? id with
  | none =>
      have hnot : r.contains id = false := by rw [contains, he]; rfl
      rw [hnot, Bool.false_and, contains, Option.isSome_eq_false_iff, Option.isNone_iff_eq_none] at hcontains
      rw [hcontains]
      rfl
  | some e =>
      have hthere : r.contains id = true := by rw [contains, he]; rfl
      have hmem : id ∈ r.ids := List.mem_map_of_mem (Keyed.mem_of_get? he)
      have hstale : r.stale id = !e.outbox.isOpen := by rw [stale, he]; rfl
      rw [hthere, hstale, decide_eq_true hmem, Bool.true_and, Bool.true_and, Bool.not_not] at hcontains
      rw [if_pos ⟨hmem, hthere⟩, find?_of_get? he] at hfound
      rw [Option.filter_some]
      cases hopen : e.outbox.isOpen with
      | false =>
          rw [hopen, contains, Option.isSome_eq_false_iff, Option.isNone_iff_eq_none] at hcontains
          rw [hcontains]
          rfl
      | true =>
          rw [hopen, contains, Option.isSome_iff_exists] at hcontains
          obtain ⟨e', he'⟩ := hcontains
          -- what is registered is what is found
          rw [he', ← find?_of_get? he', hfound]
          rfl

/-- What a broadcast does to a roster and what it reports. -/
structure Delivers (m : Message) (r : Roster) (report : DeliveryReport) (r' : Roster) : Prop where
  /-- An open queue with room gets the message at its end, once. -/
  taken : ∀ {id : Nat} {e : Entry}, r.get? id = some e → e.outbox.isOpen = true →
    e.outbox.waiting.length < e.outbox.capacity →
    r'.get? id = some { e with outbox := { e.outbox with waiting := e.outbox.waiting ++ [m] } }
  /-- A full one stays as it is, and so does its entry. -/
  full : ∀ {id : Nat} {e : Entry}, r.get? id = some e → e.outbox.isOpen = true →
    e.outbox.capacity ≤ e.outbox.waiting.length → r'.get? id = some e
  closed : ∀ {id : Nat} {e : Entry}, r.get? id = some e → e.outbox.isOpen = false → r'.get? id = none
  /-- No one comes in. -/
  absent : ∀ {id : Nat}, r.get? id = none → r'.get? id = none
  delivered : report.delivered = r.entries.countP fun e =>
    e.2.outbox.isOpen && decide (e.2.outbox.waiting.length < e.2.outbox.capacity)
  skipped : report.skipped = r.entries.countP fun e =>
    e.2.outbox.isOpen && decide (e.2.outbox.capacity ≤ e.2.outbox.waiting.length)
  removed : report.removed = r.entries.countP fun e => !e.2.outbox.isOpen
  total : report.delivered + report.skipped + report.removed = r.size

/-- **A broadcast delivers its message.** -/
theorem delivers_broadcast (h : r.Sorted) (m : Message) : Delivers m r (r.broadcast m).1 (r.broadcast m).2 := by
  have hcount : ∀ a : Offer, (r.entries.map fun e => (e.2.outbox.offer m).1).count a
      = r.entries.countP fun e => (e.2.outbox.offer m).1 == a := fun a => by
    rw [List.count, List.countP_map]
    rfl
  have hreport := (broadcast_fst h m).trans (DeliveryReport.foldl_count _ _)
  simp only [DeliveryReport.nothing, Nat.zero_add, hcount] at hreport
  rw [hreport]
  constructor
  case taken =>
    intro id e he hopen hroom
    rw [get?_broadcast h, he, Option.filter_some, hopen, if_pos rfl, Option.map_some, Entry.offered,
      Outbox.offer_of_room hopen hroom]
  case full =>
    intro id e he hopen hfull
    rw [get?_broadcast h, he, Option.filter_some, hopen, if_pos rfl, Option.map_some, Entry.offered,
      Outbox.offer_of_full hopen hfull]
  case closed =>
    intro id e he hclosed
    rw [get?_broadcast h, he, Option.filter_some, hclosed, if_neg (by simp), Option.map_none]
  case absent =>
    intro id he
    rw [get?_broadcast h, he, Option.filter_none, Option.map_none]
  case total =>
    simp only [← hcount]
    rw [DeliveryReport.count_answers, List.length_map, size]
  case delivered =>
    refine List.countP_congr fun e _ => ?_
    rw [beq_iff_eq, Outbox.offer_eq_taken_iff, Bool.and_eq_true, decide_eq_true_iff]
  case skipped =>
    refine List.countP_congr fun e _ => ?_
    rw [beq_iff_eq, Outbox.offer_eq_full_iff, Bool.and_eq_true, decide_eq_true_iff]
  case removed =>
    refine List.countP_congr fun e _ => ?_
    rw [beq_iff_eq, Outbox.offer_eq_closed_iff, Bool.not_eq_true']

end Roster
end MiningPool

import MiningPool.Proofs.Roster.Broadcast

/-!
# To everyone at once, or to one after the other

A broadcast goes over a copy of the roster, made before the first message is offered. For each entry of the copy it
tells the three answers of a queue apart by itself, and removes from the roster whoever it finds closed (`walk`).
Whoever sends the same message to every id, one after the other, looks each entry up when its turn comes, and tells the
answers apart in another place (`sendEach`).

Both come to the same. No entry of a copy is out of date when its turn comes, since what was done before concerned other
ids, so a walk is what `broadcast` says it is (`walk_eq`); and what the sendings tell of each id is what its own queue
answered before any of them (`sendEach_fst`).
-/

namespace MiningPool

open Net Wire

namespace Roster

variable {r : Roster} {id : Nat}

/-! ## Over a copy -/

/-- A message is offered to the queue of an entry that was copied. What comes of it is counted, and done to the roster:
whoever is found closed counts as removed if it was still registered. -/
def offerCopied (m : Message) (done : DeliveryReport × Roster) (copy : Nat × Entry) : DeliveryReport × Roster :=
  match copy.2.outbox.offer m with
  | (.taken, outbox) =>
    ({ done.1 with delivered := done.1.delivered + 1 }, done.2.change copy.1 fun e => { e with outbox := outbox })
  | (.full, _) => ({ done.1 with skipped := done.1.skipped + 1 }, done.2)
  | (.closed, _) =>
    if done.2.contains copy.1 then
      ({ done.1 with removed := done.1.removed + 1 }, done.2.deregister copy.1)
    else done

/-- A message is offered to all entries of a copy of the roster. -/
def walk (r : Roster) (m : Message) : DeliveryReport × Roster := r.entries.foldl (offerCopied m) (.nothing, r)

/-- A change that leaves the entry of an id as it is changes nothing. -/
theorem Sorted.change_of_same (h : r.Sorted) {e : Entry} (he : r.get? id = some e) {f : Entry → Entry}
    (hf : f e = e) : r.change id f = r := by
  have hthere : r.contains id = true := by rw [contains, he]; rfl
  have hsame : Keyed.change r.entries id f = r.entries := by
    rw [Keyed.change]
    refine (List.map_congr_left fun x hx => ?_).trans (List.map_id _)
    split
    · rename_i hid
      -- there is no other entry of this id
      have hx' : r.get? x.1 = some x.2 := Keyed.get?_of_mem h.nodup hx
      rw [hid, he, Option.some.injEq] at hx'
      rw [← hx', hf, hx', id_eq]
    · rfl
  rw [Roster.change, if_pos hthere, hsame]

/-- What a copied entry is offered is offered to the one that is registered, if the copy is not out of date. -/
theorem offerCopied_eq (m : Message) {done : DeliveryReport × Roster} (h : done.2.Sorted) {copy : Nat × Entry}
    (hcopy : done.2.get? copy.1 = some copy.2) :
    offerCopied m done copy
      = ((done.2.offer copy.1 m).1.elim done.1 done.1.count, (done.2.offer copy.1 m).2) := by
  obtain ⟨id, e⟩ := copy
  have hthere : done.2.contains id = true := by rw [contains, hcopy]; rfl
  cases hopen : e.outbox.isOpen with
  | false =>
      simp only [offerCopied, offer, hcopy, Outbox.offer_of_closed hopen, hthere, if_true]
      rfl
  | true =>
      by_cases hroom : e.outbox.waiting.length < e.outbox.capacity
      · simp only [offerCopied, offer, hcopy, Outbox.offer_of_room hopen hroom]
        rfl
      · have hfull := Outbox.offer_of_full hopen (Nat.le_of_not_lt hroom) m
        simp only [offerCopied, offer, hcopy, hfull]
        rw [h.change_of_same hcopy rfl]
        rfl

/-- Going over copies that are not out of date is offering the message to their ids. -/
theorem foldl_offerCopied (m : Message) (copies : List (Nat × Entry)) (hdistinct : (copies.map (·.1)).Nodup) :
    ∀ done : DeliveryReport × Roster, done.2.Sorted → (∀ copy ∈ copies, done.2.get? copy.1 = some copy.2) →
      copies.foldl (offerCopied m) done = offerAll m (copies.map (·.1)) done := by
  induction copies with
  | nil => exact fun _ _ _ => rfl
  | cons copy rest ih =>
      intro done h hcopies
      obtain ⟨hnew, hrest⟩ := List.nodup_cons.mp hdistinct
      rw [List.foldl_cons, offerCopied_eq m h (hcopies copy List.mem_cons_self)]
      refine ih hrest _ (h.offer copy.1 m) fun later hlater => ?_
      -- what was offered to one does not concern the entries of others
      have hne : later.1 ≠ copy.1 := ne_of_mem_of_not_mem (List.mem_map_of_mem hlater) hnew
      rw [get?_offer_of_ne hne]
      exact hcopies later (List.mem_cons_of_mem copy hlater)

/-- **Going over a copy of the roster is a broadcast.** -/
theorem walk_eq (h : r.Sorted) (m : Message) : r.walk m = r.broadcast m :=
  foldl_offerCopied m r.entries h.nodup (.nothing, r) h fun _ hcopy => Keyed.get?_of_mem h.nodup hcopy

/-! ## One after the other -/

/-- What became of a message that was sent to one id. -/
structure Sending where
  /-- What the sender is told. -/
  taken : Bool
  /-- Whether an entry was removed for it. -/
  removed : Bool
  deriving DecidableEq, Repr

/-- A message is sent to some ids, one after the other. -/
def sendEach (m : Message) : List Nat → Roster → List Sending × Roster
  | [], r => ([], r)
  | id :: rest, r =>
    let (taken, r') := r.sendTo id m
    let (sendings, last) := sendEach m rest r'
    (⟨taken, r.contains id && !r'.contains id⟩ :: sendings, last)

/-- An entry is removed for a message if its queue answers that it is closed. -/
theorem removed_offer (r : Roster) (id : Nat) (m : Message) :
    (r.contains id && !(r.offer id m).2.contains id) = (r.answerOf m id == some .closed) := by
  rw [answerOf]
  cases he : r.get? id with
  | none =>
      rw [contains, he]
      rfl
  | some e =>
      have hstale : r.stale id = !e.outbox.isOpen := by rw [stale, he]; rfl
      rw [(offer_self he m).2, hstale, contains, he]
      dsimp only [Option.map_some, Option.isSome_some]
      rw [Outbox.offer_answer]
      cases e.outbox.isOpen with
      | false => rfl
      | true =>
          rw [if_pos rfl]
          split <;> rfl

/-- **What is told of each id is what its own queue answered** before anything was sent. -/
theorem sendEach_fst (m : Message) (ids : List Nat) (hdistinct : ids.Nodup) : ∀ r : Roster,
    (sendEach m ids r).1
      = ids.map fun id => ⟨r.answerOf m id == some .taken, r.answerOf m id == some .closed⟩ := by
  induction ids with
  | nil => exact fun _ => rfl
  | cons id rest ih =>
      intro r
      obtain ⟨hnew, hrest⟩ := List.nodup_cons.mp hdistinct
      have htaken : (r.sendTo id m).1 = (r.answerOf m id == some .taken) := by
        rw [← offer_fst]
        rfl
      have hremoved : (r.contains id && !(r.sendTo id m).2.contains id) = (r.answerOf m id == some .closed) :=
        removed_offer r id m
      rw [sendEach, List.map_cons]
      dsimp only
      rw [htaken, hremoved, ih hrest]
      refine congrArg _ (List.map_congr_left fun later hlater => ?_)
      have hsame : (r.sendTo id m).2.answerOf m later = r.answerOf m later :=
        answerOf_offer_of_ne (ne_of_mem_of_not_mem hlater hnew) m
      rw [hsame]

/-- Where the roster ends up does not depend on how the answers are counted. -/
theorem sendEach_snd (m : Message) (ids : List Nat) : ∀ done : DeliveryReport × Roster,
    (offerAll m ids done).2 = (sendEach m ids done.2).2 := by
  induction ids with
  | nil => exact fun _ => rfl
  | cons id rest ih => exact fun done => ih ((done.2.offer id m).1.elim done.1 done.1.count, (done.2.offer id m).2)

/-- How often a queue gives an answer, counted over the ids. -/
theorem count_answers_of_ids (h : r.Sorted) (m : Message) (a : Offer) :
    (r.entries.map fun e => (e.2.outbox.offer m).1).count a = r.ids.countP fun id => r.answerOf m id == some a := by
  rw [← filterMap_answerOf h, List.count, List.countP_filterMap]
  refine List.countP_congr fun id _ => ?_
  cases r.answerOf m id with
  | none => simp
  | some b => simp

/--
**A broadcast is the same as sending to each.**

Going over a copy of the roster leaves the roster and all queues as they are left by sending the message to every
registered id, in ascending order. As many messages are delivered as sendings were told to be taken, as many entries are
removed as were removed for a sending, and the others are skipped.
-/
theorem broadcast_like_sending (h : r.Sorted) (m : Message) :
    r.broadcast m = r.walk m
      ∧ (r.broadcast m).2 = (sendEach m r.ids r).2
      ∧ (r.broadcast m).1.delivered = (sendEach m r.ids r).1.countP (·.taken)
      ∧ (r.broadcast m).1.removed = (sendEach m r.ids r).1.countP (·.removed)
      ∧ (r.broadcast m).1.delivered + (r.broadcast m).1.skipped + (r.broadcast m).1.removed
          = (sendEach m r.ids r).1.length := by
  have hreport := (broadcast_fst h m).trans (DeliveryReport.foldl_count _ _)
  simp only [DeliveryReport.nothing, Nat.zero_add] at hreport
  have hsendings := sendEach_fst m r.ids h.nodup r
  refine ⟨(walk_eq h m).symm, sendEach_snd m r.ids (.nothing, r), ?delivered, ?removed, ?total⟩
  case delivered =>
    rw [hreport, hsendings, List.countP_map]
    exact count_answers_of_ids h m .taken
  case removed =>
    rw [hreport, hsendings, List.countP_map]
    exact count_answers_of_ids h m .closed
  case total =>
    rw [hreport, hsendings, List.length_map]
    dsimp only
    rw [DeliveryReport.count_answers, List.length_map, ids, List.length_map]

/-- Three queues for one message each: an empty one, one with a message in it, and one whose reader is gone. -/
def threeQueues : Roster :=
  let entry : Entry := .fresh ⟨.v4 1, 50001⟩ 1 default
  let connected := ((empty.register 1 entry).register 2 entry).register 3 entry
  (connected.offer 2 (.notification (.difficulty 500))).2.closeOutbox 3

theorem broadcast_like_sending_three_queues :
    let m : Message := .notification (.difficulty 1000)
    threeQueues.Sorted
      ∧ (threeQueues.broadcast m).1 = ⟨1, 1, 1⟩
      ∧ (threeQueues.broadcast m).2 = (sendEach m [1, 2, 3] threeQueues).2
      ∧ (sendEach m [1, 2, 3] threeQueues).1 = [⟨true, false⟩, ⟨false, false⟩, ⟨false, true⟩]
      ∧ (sendEach m [1, 2, 3] threeQueues).2.get? 2 = threeQueues.get? 2 := by
  intro m
  have hsorted : threeQueues.Sorted :=
    ((((sorted_empty.register 1 _).register 2 _).register 3 _).offer 2 _).change 3 _
  obtain ⟨_, hsame, _⟩ := broadcast_like_sending hsorted m
  exact ⟨hsorted, rfl, hsame, rfl, rfl⟩

end Roster
end MiningPool

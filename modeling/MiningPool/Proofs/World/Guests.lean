import MiningPool.Proofs.Pool.Books
import MiningPool.Proofs.World.Events

/-!
# The guests of a world

The guests of the pool are the connections of the world that are not over. Whatever happens at once in a world
leaves the guests as they are, or one of them leaves, or someone comes (`Changes`), so the books of the pool stay
right. Someone who comes by way of the listener takes no one's place, and leaves nothing behind if it is refused.
-/

namespace MiningPool

open Net Wire

/-- Who holds something in the pool, and from where. -/
def Connection.guest? (c : Connection) : Option (Nat × Ip) := if c.isOpen then some (c.id, c.peer.ip) else none

namespace World

/-- The connections that are not over. -/
def running (w : World) : List Connection := w.connections.filter (·.isOpen)

def guests (w : World) : List (Nat × Ip) := w.connections.filterMap Connection.guest?

variable {w w' : World} {c c' : Connection} {source : Source}

/-! ## Guests -/

theorem guests_eq (w : World) : w.guests = w.running.map fun c => (c.id, c.peer.ip) := by
  rw [guests, running, ← List.filterMap_eq_map, List.filterMap_filter]
  rfl

theorem mem_guests (hc : c ∈ w.connections) (hopen : c.isOpen = true) : (c.id, c.peer.ip) ∈ w.guests :=
  List.mem_filterMap.mpr ⟨c, hc, if_pos hopen⟩

theorem Numbered.nodup_guests (hn : w.Numbered) : (w.guests.map (·.1)).Nodup := by
  rw [guests_eq, List.map_map]
  have hids : (w.running.map (·.id)).Pairwise (· < ·) :=
    List.pairwise_map.mpr (hn.ascending.sublist List.filter_sublist)
  exact hids.imp Nat.ne_of_lt

/-- Whatever leaves alone who the connections are and which of them are over. -/
theorem guests_map {f : Connection → Connection} (hf : ∀ d ∈ w.connections, (f d).guest? = d.guest?)
    (h : w'.connections = w.connections.map f) : w'.guests = w.guests := by
  rw [guests, guests, h, List.filterMap_map]
  exact List.filterMap_congr hf

theorem guests_replace (hn : w.Numbered) (hc : c ∈ w.connections) (hid : c'.id = c.id)
    (hsame : c'.guest? = c.guest?) : (w.replace c').guests = w.guests := by
  refine guests_map (fun d hd => ?_) rfl
  split
  · rename_i h
    rw [hsame, hn.eq_of_id hc hd (h.trans hid)]
  · rfl

/-- The guests without the one whose connection is over. -/
theorem guests_replace_closed (hclosed : c'.isOpen = false) :
    (w.replace c').guests = w.guests.filter (·.1 ≠ c'.id) := by
  rw [guests, guests, replace, List.filterMap_map, List.filter_filterMap]
  refine List.filterMap_congr fun d _ => ?_
  rw [Function.comp_apply]
  by_cases hd : d.id = c'.id
  · rw [if_pos hd, Connection.guest?, Connection.guest?, hclosed]
    cases d.isOpen with
    | true => simp [hd, Option.filter]
    | false => rfl
  · rw [if_neg hd, Connection.guest?]
    cases d.isOpen with
    | true => simp [hd, Option.filter]
    | false => rfl

/-! ## What one move changes -/

/-- What becomes of the guests at once. -/
inductive Changes (w : World) : World → Prop where
  | keeps {w' : World} (hpool : w.pool.Keeps w'.pool) (hguests : w'.guests = w.guests) : Changes w w'
  | leaves {w' : World} {id : Nat} {ip : Ip} {q : Pool} (hmem : (id, ip) ∈ w.guests) (hq : w.pool.Keeps q)
      (hpool : w'.pool = q.leave id ip) (hguests : w'.guests = w.guests.filter (·.1 ≠ id)) : Changes w w'
  | comes {w' : World} {peer : Socket} {limit : Option Nat} {id : Nat} {q : Pool}
      (henter : w.pool.enter w.now peer.ip limit = (.ok id, q)) (hpool : w'.pool = q.register id peer)
      (hguests : w'.guests = w.guests ++ [(id, peer.ip)])
      (hone : w'.connections.length = w.connections.length + 1) : Changes w w'

theorem changes_turn (hn : w.Numbered) (hb : w.pool.Books w.guests) (hc : c ∈ w.connections) :
    Changes w (w.took (c.turn source w.now w.pool)) := by
  have haccounts := Connection.accounts_turn (Connection.turn_takes source w.now w.pool c) hb
  generalize ht : c.turn source w.now w.pool = t at haccounts
  have hguests : (w.took t).guests = (w.replace t.connection).guests := rfl
  have hpool : (w.took t).pool = t.pool w.pool := rfl
  generalize t.pool w.pool = q at haccounts hpool
  generalize t.connection = c' at haccounts hguests
  cases haccounts with
  | keeps hid hpeer hopen hkeeps =>
      refine .keeps (hpool ▸ hkeeps) (hguests.trans (guests_replace hn hc hid ?_))
      rw [Connection.guest?, Connection.guest?, hid, hpeer, hopen]
  | leaves hid hpeer hopen hclosed hkeeps =>
      refine .leaves (mem_guests hc hopen) hkeeps hpool ?_
      rw [hguests, guests_replace_closed hclosed, hid]

/-- **Whatever happens at once leaves the guests as they are, or one leaves, or someone comes.** -/
theorem changes_move {as : List Act} (h : Move w as w') (hn : w.Numbered) (hb : w.pool.Books w.guests) :
    Changes w w' := by
  cases h with
  | turn source h =>
      obtain ⟨hc⟩ := h
      exact changes_turn hn hb hc
  | arrives bs hc h => exact .keeps hb.refl (guests_replace hn hc rfl rfl)
  | finishes hc => exact .keeps hb.refl (guests_replace hn hc rfl rfl)
  | vanishes hc => exact .keeps hb.refl (guests_replace hn hc rfl rfl)
  | reads room hc => exact .keeps hb.refl (guests_replace hn hc rfl rfl)
  | stops => exact .keeps hb.refl (guests_map (f := fun c => { c with stopping := true }) (fun _ _ => rfl) rfl)
  | cuts hc hopen => exact .leaves (mem_guests hc hopen) hb.refl rfl (guests_replace_closed rfl)
  | admits henter =>
      refine .comes henter rfl ?_ List.length_append
      exact List.filterMap_append
  | meanwhile h => exact .keeps (hb.keeps_meanwhile h) rfl
  | passes r s h => exact .keeps hb.refl rfl

/-! ## The books of a world -/

/-- The connections are numbered, and what is taken up in the pool is what the guests take up. -/
structure Booked (w : World) : Prop where
  numbered : w.Numbered
  books : w.pool.Books w.guests

theorem booked_fresh (settings : Settings) (tasks : Bool) : (fresh settings tasks).Booked :=
  ⟨numbered_fresh settings tasks, Pool.books_fresh settings⟩

/-- Whoever is let in gets an id that is greater than all others. -/
theorem Booked.lt_of_enter (h : w.Booked) {ip : Ip} {limit : Option Nat} {id : Nat} {q : Pool}
    (henter : w.pool.enter w.now ip limit = (.ok id, q)) : ∀ l ∈ w.pool.roster.ids, l < id := by
  intro l hl
  rw [h.books.ids, guests_eq, List.map_map] at hl
  obtain ⟨c, hc, rfl⟩ := List.mem_map.mp hl
  have hused := h.numbered.used c (List.mem_of_mem_filter hc)
  have hnext := (Pool.enter_ok henter).1
  exact Nat.lt_of_le_of_lt hused (by omega)

theorem Booked.changes (h : w.Booked) (hchanges : Changes w w') : w'.pool.Books w'.guests := by
  cases hchanges with
  | keeps hpool hguests =>
      rw [hguests]
      exact h.books.keeps hpool
  | leaves hmem hq hpool hguests =>
      rw [hguests, hpool]
      exact (h.books.keeps hq).leave h.numbered.nodup_guests hmem
  | comes henter hpool hguests _ =>
      rw [hguests, hpool]
      exact h.books.register henter (h.lt_of_enter henter)

/-- **Every move keeps the books right.** -/
theorem booked_move {as : List Act} (hm : Move w as w') (h : w.Booked) : w'.Booked :=
  ⟨numbered_move hm h.numbered, h.changes (changes_move hm h.numbered h.books)⟩

/-- No move changes the settings. -/
theorem settings_move {as : List Act} (hm : Move w as w') (h : w.Booked) :
    w'.pool.settings = w.pool.settings := by
  cases changes_move hm h.numbered h.books with
  | keeps hpool _ => exact hpool.settings
  | leaves _ hq hpool _ =>
      rw [hpool]
      exact hq.settings
  | comes henter hpool _ _ =>
      rw [hpool]
      exact (Pool.enter_ok henter).2.2.1

/-- A move that lets no one in takes no seat. -/
theorem seats_move {as : List Act} (hm : Move w as w') (h : w.Booked)
    (hnone : w'.connections.length = w.connections.length) : w'.pool.seats ≤ w.pool.seats := by
  cases changes_move hm h.numbered h.books with
  | keeps hpool _ => exact Nat.le_of_eq hpool.seats
  | leaves _ hq hpool _ =>
      have hseats : w'.pool.seats = w.pool.seats - 1 := by
        rw [hpool, ← hq.seats]
        rfl
      omega
  | comes _ _ _ hone => omega

/-! ## Coming in by way of the listener -/

/-- Someone comes in by way of the listener, and no one takes a turn yet. -/
def ask (w : World) (peer : Socket) (room : Option Nat) : Except Refusal Nat × World :=
  match (w.pool.count .received).enter w.now peer.ip (some w.pool.settings.maxClients) with
  | (.error why, q) => (.error why, { w with pool := q.count (.refused why) })
  | (.ok id, q) =>
    (.ok id, { w with pool := q.register id peer, connections := w.connections ++ [.fresh q w.now id peer room] })

/-- After it was let in, everyone takes turns. -/
theorem accept_eq_ask (source : Source) (w : World) (peer : Socket) (room : Option Nat) :
    w.accept source peer room = match w.ask peer room with
      | (.error why, w') => (.error why, w')
      | (.ok id, w') => (.ok id, w'.settle source) := by
  have hsettings : (w.pool.count .received).settings = w.pool.settings := rfl
  unfold accept connect ask
  dsimp only
  rw [hsettings]
  rcases (w.pool.count .received).enter w.now peer.ip (some w.pool.settings.maxClients) with ⟨answer, q⟩
  cases answer with
  | error why => rfl
  | ok id => rfl

section Ask

variable {peer : Socket} {room : Option Nat} {id : Nat} {why : Refusal}

theorem ask_ok (h : w.ask peer room = (.ok id, w')) :
    ∃ q, (w.pool.count .received).enter w.now peer.ip (some w.pool.settings.maxClients) = (.ok id, q)
      ∧ w' = { w with
        pool := q.register id peer, connections := w.connections ++ [.fresh q w.now id peer room] } := by
  unfold ask at h
  split at h
  · simp at h
  · rename_i q henter
    simp only [Prod.mk.injEq, Except.ok.injEq] at h
    obtain ⟨rfl, rfl⟩ := h
    exact ⟨q, henter, rfl⟩

theorem ask_error (h : w.ask peer room = (.error why, w')) :
    ∃ q, (w.pool.count .received).enter w.now peer.ip (some w.pool.settings.maxClients) = (.error why, q)
      ∧ w' = { w with pool := q.count (.refused why) } := by
  unfold ask at h
  split at h
  · rename_i q henter
    simp only [Prod.mk.injEq, Except.error.injEq] at h
    obtain ⟨rfl, rfl⟩ := h
    exact ⟨q, henter, rfl⟩
  · simp at h

/-- Asking to be let in is counting, being let in or not, and counting again if not. -/
theorem ask_moves (w : World) (peer : Socket) (room : Option Nat) : ∃ as, Moves w as (w.ask peer room).2 := by
  have hcounted : Moves w [] { w with pool := w.pool.count .received } := .single (.meanwhile (.counted _))
  rcases hask : w.ask peer room with ⟨answer, w'⟩
  cases answer with
  | ok id =>
      obtain ⟨q, henter, rfl⟩ := ask_ok hask
      exact ⟨_, hcounted.tail (.admits henter)⟩
  | error why =>
      obtain ⟨q, henter, rfl⟩ := ask_error hask
      have hrefused := hcounted.tail (.meanwhile (.refused henter))
      exact ⟨_, hrefused.tail (.meanwhile (.counted (.refused why)))⟩

theorem booked_ask (h : w.Booked) (peer : Socket) (room : Option Nat) : (w.ask peer room).2.Booked := by
  obtain ⟨_, hmoves⟩ := ask_moves w peer room
  exact hmoves.preserves booked_move h

/-- Nothing was taken up or given back, and no connection was counted. -/
structure Unmoved (w w' : World) : Prop where
  connections : w'.connections = w.connections
  roster : w'.pool.roster = w.pool.roster
  seats : w'.pool.seats = w.pool.seats
  addresses : ∀ ip, w'.pool.admission.connectionsFrom ip = w.pool.admission.connectionsFrom ip
  lastSession : w'.pool.lastSession = w.pool.lastSession
  tally : w'.pool.tally = w.pool.tally

/-- **Whoever is refused leaves nothing behind**, whatever the reason. -/
theorem Booked.unmoved (h : w.Booked) (hask : w.ask peer room = (.error why, w')) : w.Unmoved w' := by
  obtain ⟨q, henter, rfl⟩ := ask_error hask
  have hcounted : Booked { w with pool := w.pool.count .received } := booked_move (.meanwhile (.counted _)) h
  have hkeeps := hcounted.books.keeps_refused henter
  have hrest := Pool.enter_error henter
  refine ⟨rfl, hrest.2.2, hkeeps.seats, hkeeps.admission.connections, hrest.1, ?_⟩
  show q.tally = w.pool.tally
  rcases Pool.enter_no_seat henter with ⟨_, rfl⟩ | ⟨_, rfl⟩
  · rfl
  · rfl

/-- **Whoever is let in takes no one's place.** -/
theorem Booked.entries_ask (h : w.Booked) (hask : w.ask peer room = (.ok id, w')) :
    id ∉ w.pool.roster.ids ∧ ∃ e, w'.pool.roster.entries = w.pool.roster.entries ++ [(id, e)] := by
  obtain ⟨q, henter, rfl⟩ := ask_ok hask
  have hcounted : Booked { w with pool := w.pool.count .received } := booked_move (.meanwhile (.counted _)) h
  have hnew : ∀ l ∈ w.pool.roster.ids, l < id := hcounted.lt_of_enter henter
  have hentries := Pool.entries_register henter hnew
  exact ⟨fun hid => Nat.lt_irrefl id (hnew id hid), _, hentries⟩

end Ask

end World
end MiningPool

import MiningPool.Proofs.Pool.Rounds
import MiningPool.Proofs.World.Spared

/-!
# The ledger of a world

The ledger changes when a job is made, for a login, in a round or for whoever asks, and at no other time. A login that
is carried out at once is a call with nothing between its steps, and so is a round. So at any time the pool of a world
is `Attained`, and what is known of ledgers on which calls are at work holds of it (`attained_of_moves`).
-/

namespace MiningPool

open Net Wire Connection

/-- What may become of a ledger at once: nothing, or a job is made. -/
def Ledger.Next (l l' : Ledger) : Prop := l' = l ∨ ∃ source purpose, l' = (l.mintFor source purpose).2

namespace Pool

variable {p q : Pool} {source : Source} {now : Instant}

theorem jobForLogin_ledger (source : Source) (p : Pool) :
    (p.jobForLogin source).2.ledger = (p.ledger.mintForSession source).2 := by
  rcases h : p.ledger.mintForSession source with ⟨made, l⟩
  cases made with
  | ok j => rw [jobForLogin_ok source p h]
  | error e => rw [jobForLogin_error source p h]; rfl

/-- **Of all requests only a login has a job made.** -/
theorem next_answer (source : Source) (p : Pool) (s : Session) (r : Request) :
    p.ledger.Next (p.answer source s r).pool.ledger := by
  by_cases hlogin : ∃ username address worker, Command.ofRequest r = .ok (.authorize username address worker)
  · obtain ⟨username, address, worker, hc⟩ := hlogin
    obtain ⟨_, _, hledger, _⟩ := answer_login source p s hc
    exact .inr ⟨source, .session, hledger.trans (jobForLogin_ledger source p)⟩
  · obtain ⟨_, _, hledger⟩ := answer_other source p s fun username address worker hc =>
      hlogin ⟨username, address, worker, hc⟩
    exact .inl hledger

theorem next_tick (source : Source) (p : Pool) : p.ledger.Next (p.tick source).2.ledger := by
  by_cases hsize : p.roster.size = 0
  · rw [tick_idle source hsize]
    exact .inl rfl
  · exact .inr ⟨source, .everyone, (tick_made source hsize).1⟩

theorem next_meanwhile (h : Meanwhile now p q) : p.ledger.Next q.ledger := by
  cases h with
  | ticked source => exact next_tick source p
  | minted source => exact .inr ⟨source, .everyone, rfl⟩
  | banned ip => exact .inl (ledger_banPeer now p ip)
  | refused h =>
      rcases enter_no_seat h with ⟨_, rfl⟩ | ⟨_, rfl⟩
      · exact .inl rfl
      · exact .inl rfl
  | _ => exact .inl rfl

end Pool

/-- A turn has a job made if it carries out a login. -/
theorem Connection.next_turn {source : Source} {now : Instant} {p : Pool} {c : Connection} {ds : List Deed} {t : Turn}
    (h : Takes source now p c ds t) : p.ledger.Next (t.pool p).ledger := by
  cases h with
  | @serves r f o hl hn ho =>
      have hnext := Pool.next_answer source p c.session r
      rw [ho] at hnext
      exact hnext
  | condemned hp hg hw hv => exact .inl (Pool.ledger_banPeer now _ c.peer.ip)
  | bans hl hn hv => exact .inl (Pool.ledger_banPeer now _ c.peer.ip)
  | _ => exact .inl rfl

namespace World

variable {w w' : World} {as h : List Act} {moves : List Minting.Move}

theorem next_move (hm : Move w as w') : w.pool.ledger.Next w'.pool.ledger := by
  cases hm with
  | turn source h =>
      obtain ⟨_⟩ := h
      exact next_turn (turn_takes source w.now w.pool _)
  | admits henter =>
      obtain ⟨_, _, _, _, rfl⟩ := Pool.enter_seat henter
      exact .inl rfl
  | meanwhile h => exact Pool.next_meanwhile h
  | _ => exact .inl rfl

/-- The connected are registered in the order in which they came. -/
theorem Booked.sorted (h : w.Booked) : w.pool.roster.Sorted := by
  rw [Roster.Sorted, h.books.ids, guests_eq, List.map_map]
  exact List.pairwise_map.mpr (h.numbered.ascending.sublist List.filter_sublist)

theorem attained_move (hm : Move w as w') (hb : w.Booked) (h : w.pool.Attained moves) :
    ∃ more, w'.pool.Attained (moves ++ more) := by
  have hsorted := (booked_move hm hb).sorted
  have hsettings := settings_move hm hb
  rcases next_move hm with hsame | ⟨source, purpose, hmade⟩
  · exact ⟨[], by rw [List.append_nil]; exact h.congr hsorted hsettings hsame⟩
  · exact h.made source purpose hsorted hsettings hmade

/-- **At any time the pool of a world is attained**, under the settings it was started with. -/
theorem attained_of_moves {settings : Settings} {tasks : Bool} (hmoves : Moves (fresh settings tasks) h w) :
    w.pool.settings = settings ∧ ∃ moves, w.pool.Attained moves := by
  have hall : w.Booked ∧ w.pool.settings = settings ∧ ∃ moves, w.pool.Attained moves := by
    refine hmoves.preserves (P := fun w => w.Booked ∧ w.pool.settings = settings ∧ ∃ moves, w.pool.Attained moves)
      (fun hstep ⟨hb, hsettings, moves, hattained⟩ => ?_) ⟨booked_fresh settings tasks, rfl, [], .fresh settings⟩
    obtain ⟨more, hnext⟩ := attained_move hstep hb hattained
    exact ⟨booked_move hstep hb, (settings_move hstep hb).trans hsettings, moves ++ more, hnext⟩
  exact hall.2

end World
end MiningPool

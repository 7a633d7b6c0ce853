import Mathlib.Data.List.Nodup
import MiningPool.Proofs.Connection.Elsewhere
import MiningPool.World.Run

/-!
# All that can happen in a world

A `Move` is the least that can happen at once: one connection takes one turn, some bytes arrive, someone asks
something of the pool, time passes. Moves may come in any order. The events of a run settle the world each
time, so they are chains of moves in one particular order, and whatever is preserved by every move holds
after every run.

A move tells who did what and whose bytes arrived, as a list of `Act`s.
-/

namespace MiningPool

open Net Wire Connection

/-! ## Chains -/

/-- Steps one after the other, with all that they tell. -/
inductive Chain {α β : Type} (R : α → List β → α → Prop) (a : α) : List β → α → Prop
  | refl : Chain R a [] a
  | tail {b c : α} {h l : List β} (hab : Chain R a h b) (hbc : R b l c) : Chain R a (h ++ l) c

namespace Chain

variable {α β : Type} {R S : α → List β → α → Prop} {a b c : α} {h k : List β}

theorem single (hab : R a h b) : Chain R a h b := Chain.tail .refl hab

theorem trans (hab : Chain R a h b) (hbc : Chain R b k c) : Chain R a (h ++ k) c := by
  induction hbc with
  | refl => rw [List.append_nil]; exact hab
  | tail _ hstep ih => rw [← List.append_assoc]; exact ih.tail hstep

theorem mono (hRS : ∀ {x l y}, R x l y → S x l y) (hab : Chain R a h b) : Chain S a h b := by
  induction hab with
  | refl => exact .refl
  | tail _ hstep ih => exact ih.tail (hRS hstep)

/-- What every step preserves is preserved. -/
theorem preserves {P : α → Prop} (hR : ∀ {x l y}, R x l y → P x → P y) (hab : Chain R a h b) (ha : P a) :
    P b := by
  induction hab with
  | refl => exact ha
  | tail _ hstep ih => exact hR hstep ih

end Chain

/-! ## Connections of a world -/

/-- The share that a turn handed to the work source. -/
def Turn.handed : Turn → Option Share
  | .waits _ => none
  | .acts progress => progress.handed

namespace World

variable {w : World} {c d : Connection}

def took (w : World) (t : Turn) : World :=
  { w.replace t.connection with pool := t.pool w.pool, handed := w.handed ++ t.handed.toList }

/-- Ids ascend, and none was used that was not given out or passed over. -/
structure Numbered (w : World) : Prop where
  ascending : w.connections.Pairwise fun c d => c.id < d.id
  used : ∀ c ∈ w.connections, c.id ≤ w.pool.lastSession

/-- Different connections have different ids. -/
theorem Numbered.eq_of_id (hn : w.Numbered) (hc : c ∈ w.connections) (hd : d ∈ w.connections)
    (h : d.id = c.id) : d = c := by
  have hdistinct : (w.connections.map (·.id)).Nodup := by
    rw [List.Nodup, List.pairwise_map]
    exact hn.ascending.imp Nat.ne_of_lt
  exact List.inj_on_of_nodup_map hdistinct hd hc h

/-! ### Replacing one -/

theorem mem_replace (h : d ∈ (w.replace c).connections) : d = c ∨ (d ∈ w.connections ∧ d.id ≠ c.id) := by
  obtain ⟨e, he, heq⟩ := List.mem_map.mp h
  split at heq
  · exact .inl heq.symm
  · rename_i hne
    subst heq
    exact .inr ⟨he, hne⟩

theorem mem_replace_self (hd : d ∈ w.connections) (h : d.id = c.id) : c ∈ (w.replace c).connections :=
  List.mem_map.mpr ⟨d, hd, if_pos h⟩

theorem mem_replace_of_ne (hd : d ∈ w.connections) (h : d.id ≠ c.id) : d ∈ (w.replace c).connections :=
  List.mem_map.mpr ⟨d, hd, if_neg h⟩

theorem replace_replace (h : c.id = d.id) : (w.replace c).replace d = w.replace d := by
  have hmap : ((w.replace c).replace d).connections = (w.replace d).connections := by
    rw [replace, replace, replace, List.map_map]
    refine List.map_congr_left fun e _ => ?_
    dsimp only [Function.comp]
    by_cases he : e.id = c.id
    · simp only [he, h, if_true]
    · simp only [he, if_false]
  rw [replace, replace] at hmap ⊢
  dsimp only at hmap ⊢
  rw [hmap]
  rfl

theorem Numbered.replace_of_mem (hn : w.Numbered) (hc : c ∈ w.connections) : w.replace c = w := by
  have hmap : (w.replace c).connections = w.connections := by
    rw [replace]
    refine (List.map_congr_left fun e he => ?_).trans (List.map_id _)
    split
    · rename_i hid
      exact (hn.eq_of_id hc he hid).symm
    · rfl
  rw [replace] at hmap ⊢
  dsimp only at hmap
  rw [hmap]

/-- Whatever leaves the ids of the connections alone and gives back no session id. -/
theorem Numbered.of_ids {w' : World} {f : Connection → Connection} (hn : w.Numbered)
    (hf : ∀ c ∈ w.connections, (f c).id = c.id) (hc : w'.connections = w.connections.map f)
    (hp : w.pool.lastSession ≤ w'.pool.lastSession) : w'.Numbered := by
  constructor
  · rw [hc, List.pairwise_map]
    refine hn.ascending.imp_of_mem fun ha hb hab => ?_
    rw [hf _ ha, hf _ hb]
    exact hab
  · intro d hd
    rw [hc] at hd
    obtain ⟨c, hmem, rfl⟩ := List.mem_map.mp hd
    rw [hf c hmem]
    exact Nat.le_trans (hn.used c hmem) hp

theorem Numbered.replace {p : Pool} {shares : List Share} (hn : w.Numbered)
    (hp : w.pool.lastSession ≤ p.lastSession) :
    Numbered { w.replace c with pool := p, handed := shares } := by
  refine hn.of_ids (fun d _ => ?_) rfl hp
  split
  · rename_i h
    exact h.symm
  · rfl

/-! ## Moves -/

/-- Something that a move tells. -/
inductive Act where
  | did (id : Nat) (ds : List Deed)
  | arrived (id : Nat) (bs : Bytes)

/-- Whose act it is. -/
def Act.id : Act → Nat
  | .did id _ => id
  | .arrived id _ => id

/-- What a connection did. -/
def deedsOf (h : List Act) (id : Nat) : List Deed :=
  h.flatMap fun
    | .did k ds => if k = id then ds else []
    | .arrived _ _ => []

/-- The bytes that arrived at a connection. -/
def streamOf (h : List Act) (id : Nat) : Bytes :=
  h.flatMap fun
    | .did _ _ => []
    | .arrived k bs => if k = id then bs else []

inductive TakesTurn (source : Source) : World → List Act → World → Prop
  | turn {w : World} {c : Connection} (hc : c ∈ w.connections) :
      TakesTurn source w [.did c.id (deeds source w.now w.pool c)]
        (w.took (c.turn source w.now w.pool))

/-- The least that can happen at once. -/
inductive Move : World → List Act → World → Prop
  | turn {w w' : World} {as : List Act} (source : Source) (h : TakesTurn source w as w') : Move w as w'
  /-- Bytes of a miner arrive. -/
  | arrives {w : World} {c : Connection} (bs : Bytes) (hc : c ∈ w.connections) (h : c.inputOver = false) :
      Move w [.arrived c.id bs] (w.replace { c with framer := c.framer.feed bs })
  /-- A miner sends no more. -/
  | finishes {w : World} {c : Connection} (hc : c ∈ w.connections) :
      Move w [] (w.replace { c with client := { c.client with finished := true } })
  /-- A miner is there no more. -/
  | vanishes {w : World} {c : Connection} (hc : c ∈ w.connections) :
      Move w [] (w.replace { c with client := { c.client with gone := true } })
  /-- A miner takes what is on the way, and there is room again. -/
  | reads {w : World} {c : Connection} (room : Option Nat) (hc : c ∈ w.connections) :
      Move w [] (w.replace { c with client := { c.client.takeAll with room := room } })
  /-- All are told that the pool shuts down. -/
  | stops {w : World} :
      Move w [] { w with connections := w.connections.map fun c => { c with stopping := true } }
  /-- A connection is ended from outside. -/
  | cuts {w : World} {c : Connection} (hc : c ∈ w.connections) (h : c.isOpen = true) :
      Move w [.did c.id [.ended .cutOff]]
        { w.replace (c.close w.pool none none).connection with pool := (c.close w.pool none none).pool }
  /-- Someone is let in and registered. -/
  | admits {w : World} {peer : Socket} {room limit : Option Nat} {id : Nat} {p : Pool}
      (h : w.pool.enter w.now peer.ip limit = (.ok id, p)) :
      Move w [] { w with
        pool := p.register id peer
        connections := w.connections ++ [.fresh p w.now id peer room] }
  | meanwhile {w : World} {p : Pool} (h : Pool.Meanwhile w.now w.pool p) : Move w [] { w with pool := p }
  /-- Time passes, and the periodic tasks are put off to any instant. -/
  | passes {w : World} {now : Instant} (nextRound nextSweep : Option Instant) (h : w.now ≤ now) :
      Move w [] { w with now := now, nextRound := nextRound, nextSweep := nextSweep }

abbrev Turns (source : Source) : World → List Act → World → Prop := Chain (TakesTurn source)

abbrev Moves : World → List Act → World → Prop := Chain Move

theorem deedsOf_append (h k : List Act) (id : Nat) : deedsOf (h ++ k) id = deedsOf h id ++ deedsOf k id :=
  List.flatMap_append

theorem streamOf_append (h k : List Act) (id : Nat) : streamOf (h ++ k) id = streamOf h id ++ streamOf k id :=
  List.flatMap_append

theorem streamOf_did (id k : Nat) (ds : List Deed) : streamOf [.did k ds] id = [] := rfl

theorem deedsOf_arrived (id k : Nat) (bs : Bytes) : deedsOf [.arrived k bs] id = [] := rfl

theorem deedsOf_self (id : Nat) (ds : List Deed) : deedsOf [.did id ds] id = ds := by
  exact (List.flatMap_singleton _ _).trans (if_pos rfl)

theorem deedsOf_of_ne {id k : Nat} (h : k ≠ id) (ds : List Deed) : deedsOf [.did k ds] id = [] := by
  exact (List.flatMap_singleton _ _).trans (if_neg h)

theorem streamOf_self (id : Nat) (bs : Bytes) : streamOf [.arrived id bs] id = bs := by
  exact (List.flatMap_singleton _ _).trans (if_pos rfl)

theorem streamOf_of_ne {id k : Nat} (h : k ≠ id) (bs : Bytes) : streamOf [.arrived k bs] id = [] := by
  exact (List.flatMap_singleton _ _).trans (if_neg h)

variable {w' : World} {as : List Act} {source : Source}

theorem numbered_takesTurn (h : TakesTurn source w as w') (hn : w.Numbered) : w'.Numbered := by
  obtain ⟨hc⟩ := h
  refine hn.replace ?_
  exact Nat.le_of_eq (kept_turn (turn_takes source w.now w.pool _)).lastSession.symm

/-- **Every move keeps the connections numbered.** -/
theorem numbered_move (h : Move w as w') (hn : w.Numbered) : w'.Numbered := by
  cases h with
  | turn source h => exact numbered_takesTurn h hn
  | arrives bs hc h => exact hn.replace (Nat.le_refl _)
  | finishes hc => exact hn.replace (Nat.le_refl _)
  | vanishes hc => exact hn.replace (Nat.le_refl _)
  | reads room hc => exact hn.replace (Nat.le_refl _)
  | stops => exact hn.of_ids (f := fun c => { c with stopping := true }) (fun _ _ => rfl) rfl (Nat.le_refl _)
  | cuts hc h => exact hn.replace (Nat.le_refl _)
  | @admits peer room limit id p h =>
      obtain ⟨hid, hlast, _, _⟩ := Pool.enter_ok h
      have hused : ∀ c ∈ w.connections, c.id < id := fun c hc => by
        rw [hid]
        exact Nat.lt_succ_of_le (hn.used c hc)
      have hregister : (p.register id peer).lastSession = id := hlast
      constructor
      · refine List.pairwise_append.mpr ⟨hn.ascending, List.pairwise_singleton _ _, fun c hc d hd => ?_⟩
        rw [List.mem_singleton.mp hd]
        exact hused c hc
      · intro c hc
        show c.id ≤ (p.register id peer).lastSession
        rw [hregister]
        rcases List.mem_append.mp hc with hold | hnew
        · exact Nat.le_of_lt (hused c hold)
        · rw [List.mem_singleton.mp hnew]
          exact Nat.le_refl _
  | meanwhile h => exact hn.of_ids (fun _ _ => rfl) (List.map_id _).symm (Pool.lastSession_meanwhile h)
  | passes r s h => exact hn.of_ids (fun _ _ => rfl) (List.map_id _).symm (Nat.le_refl _)

theorem numbered_fresh (settings : Settings) (tasks : Bool) : (fresh settings tasks).Numbered :=
  ⟨List.Pairwise.nil, fun _ hc => absurd hc List.not_mem_nil⟩

end World
end MiningPool

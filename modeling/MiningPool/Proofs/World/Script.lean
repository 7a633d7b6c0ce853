import MiningPool.Proofs.World.Moves

/-!
# Moves that are written down

A script says which moves come one after the other, and `play` carries it out. So what can happen in a world can be
shown by playing it.
-/

namespace MiningPool

open Net Wire

namespace World

/-- A move that is written down. Someone with an id that is not there does nothing. -/
inductive Cue where
  | enters (peer : Socket) (room : Option Nat)
  | sends (id : Nat) (bs : Bytes)
  | vanishes (id : Nat)
  /-- A connection takes a turn, and others wait. -/
  | turns (id : Nat)

/-- What comes of a cue, and what it tells. -/
def cue (source : Source) (w : World) : Cue → List Act × World
  | .enters peer room =>
    match w.pool.enter w.now peer.ip none with
    | (.error _, _) => ([], w)
    | (.ok id, p) =>
      ([], { w with pool := p.register id peer, connections := w.connections ++ [.fresh p w.now id peer room] })
  | .sends id bs =>
    match w.find? id with
    | none => ([], w)
    | some c =>
      if c.inputOver then ([], w)
      else ([.arrived c.id bs], w.replace { c with framer := c.framer.feed bs })
  | .vanishes id =>
    match w.find? id with
    | none => ([], w)
    | some c => ([], w.replace { c with client := { c.client with gone := true } })
  | .turns id =>
    match w.find? id with
    | none => ([], w)
    | some c => ([.did c.id (Connection.deeds source w.now w.pool c)], w.took (c.turn source w.now w.pool))

/-- What comes of a script, and all that it tells. -/
def play (source : Source) (w : World) : List Cue → List Act × World
  | [] => ([], w)
  | q :: script =>
    let (as, w) := w.cue source q
    let (h, w) := w.play source script
    (as ++ h, w)

theorem moves_cue (source : Source) (w : World) (q : Cue) : Moves w (w.cue source q).1 (w.cue source q).2 := by
  cases q with
  | enters peer room =>
      rw [cue]
      rcases henter : w.pool.enter w.now peer.ip none with ⟨answer, p⟩
      cases answer with
      | error why => exact .refl
      | ok id => exact .single (.admits henter)
  | sends id bs =>
      rw [cue]
      cases hfind : w.find? id with
      | none => exact .refl
      | some c =>
          cases hover : c.inputOver with
          | true => simp only [hover, if_true]; exact .refl
          | false => simp only [hover]; exact .single (.arrives bs (List.mem_of_find?_eq_some hfind) hover)
  | vanishes id =>
      rw [cue]
      cases hfind : w.find? id with
      | none => exact .refl
      | some c => exact .single (.vanishes (List.mem_of_find?_eq_some hfind))
  | turns id =>
      rw [cue]
      cases hfind : w.find? id with
      | none => exact .refl
      | some c => exact .single (.turn source (.turn (List.mem_of_find?_eq_some hfind)))

/-- **Whatever is played can happen.** -/
theorem moves_play (source : Source) (w : World) (script : List Cue) :
    Moves w (w.play source script).1 (w.play source script).2 := by
  induction script generalizing w with
  | nil => exact .refl
  | cons q script ih => exact (moves_cue source w q).trans (ih _)

end World
end MiningPool

import Mathlib.Data.List.Forall2
import MiningPool.Proofs.Pool.Discretion
import MiningPool.Proofs.World.Shares

/-!
# No miner learns why a work source fails

Turns, rounds and everything else that asks a work source come to the same with the hushed one. So two runs
that ask sources which are alike go through the same worlds, and a world holds all that was ever written, every
session, the jobs, all counts and all that admission knows.

Runs let everyone settle after each event. What is due may also be done in any order, one turn at a time: `Doing` is
all that asks a source, with anything else in between. And while work is on its way, others may go on: that is what
a `Delivery` is about.
-/

namespace MiningPool

open Net Wire

/-! ## One connection -/

namespace Connection

variable (S : Source) (now : Instant) (p : Pool) (c : Connection)

/-- **The answer to a request, and all that it leaves, says nothing of the source's fault.** -/
theorem serve_hushed (r : Request) : c.serve S.hushed p r = c.serve S p r := by
  have h := Pool.answer_hushed S p c.session r
  simp only [serve]
  rw [h.messages, h.session, h.pool, h.handed]

theorem receive_hushed (item : Inbound Request) : c.receive S.hushed now p item = c.receive S now p item := by
  cases item with
  | message r => exact serve_hushed S p _ r
  | faulty fault => rfl

theorem turn_hushed : c.turn S.hushed now p = c.turn S now p := by
  simp only [turn, listen, receive_hushed]

theorem turns_hushed (n : Nat) (handed : List Share) : c.turns S.hushed now n p handed = c.turns S now n p handed := by
  induction n generalizing p c handed with
  | zero => rfl
  | succ n ih =>
      rw [turns, turns, turn_hushed]
      split
      · rfl
      · exact ih _ _ _

theorem run_hushed : c.run S.hushed now p = c.run S now p := turns_hushed S now p c _ []

end Connection

/-! ## Events -/

namespace World

variable (S : Source) (w : World)

theorem pass_hushed : w.pass S.hushed = w.pass S := by
  simp only [pass, Connection.run_hushed]

@[simp]
theorem settle_hushed : w.settle S.hushed = w.settle S := by
  simp only [settle, pass_hushed]

@[simp]
theorem change_hushed (id : Nat) (f : Connection → Connection) : w.change S.hushed id f = w.change S id f := by
  simp only [change, settle_hushed]

@[simp]
theorem connect_hushed (peer : Socket) (room limit : Option Nat) :
    w.connect S.hushed peer room limit = w.connect S peer room limit := by
  simp only [connect, settle_hushed]

@[simp]
theorem tick_hushed : w.tick S.hushed = w.tick S := by
  simp only [tick, Pool.tick_hushed, settle_hushed]

theorem meet_hushed (t : Instant) : w.meet S.hushed t = w.meet S t := by
  simp only [meet, roundIfDue, tick_hushed, settle_hushed]

theorem advanceTo_hushed (t : Instant) : w.advanceTo S.hushed t = w.advanceTo S t := by
  induction w using advanceTo.induct S t with
  | case1 w hnone => rw [advanceTo, advanceTo, hnone]
  | case2 w d hsome hd ih =>
      rw [advanceTo, advanceTo, hsome]
      dsimp only
      rw [if_pos hd, if_pos hd, meet_hushed, ih]
  | case3 w d hsome hd =>
      rw [advanceTo, advanceTo, hsome]
      dsimp only
      rw [if_neg hd, if_neg hd]

/-- **Every event comes to the same.** -/
theorem step_hushed (e : Event) : w.step S.hushed e = w.step S e := by
  cases e with
  | mint => simp only [step, mint, Pool.mint_hushed]
  | advance span => exact advanceTo_hushed S w _
  | _ => simp [step, accept, send, finish, vanish, read, push, kill, ban, shutdown]

theorem run_hushed (es : List (Source × Event)) : w.run (es.map fun e => (e.1.hushed, e.2)) = w.run es := by
  induction es generalizing w with
  | nil => rfl
  | cons e es ih =>
      rw [List.map_cons, run, run, List.foldl_cons, List.foldl_cons, step_hushed]
      exact ih (w.step e.1 e.2)

/-! ## Turns in any order -/

/-- What may be done next. -/
inductive Doing where
  /-- A connection takes a turn, and the others wait. -/
  | turn (id : Nat)
  /-- A round of broadcasting, and no one takes a turn yet. -/
  | tick
  | mint
  /-- Anything in which the work source has no part. -/
  | other (f : World → World)

def does (source : Source) (w : World) : Doing → World
  | .turn id =>
    match w.find? id with
    | none => w
    | some c => w.took (c.turn source w.now w.pool)
  | .tick => { w with pool := (w.pool.tick source).2 }
  | .mint => { w with pool := (w.pool.mint source).2 }
  | .other f => f w

/-- The world after many things were done, each with the source as it was then. -/
def doesAll (w : World) (ds : List (Source × Doing)) : World := ds.foldl (fun w d => w.does d.1 d.2) w

theorem does_hushed (d : Doing) : w.does S.hushed d = w.does S d := by
  cases d with
  | turn id => simp only [does, Connection.turn_hushed]
  | tick => rw [does, does, Pool.tick_hushed]
  | mint => rw [does, does, Pool.mint_hushed]
  | other f => rfl

theorem doesAll_hushed (ds : List (Source × Doing)) :
    w.doesAll (ds.map fun d => (d.1.hushed, d.2)) = w.doesAll ds := by
  induction ds generalizing w with
  | nil => rfl
  | cons d ds ih =>
      rw [List.map_cons, doesAll, doesAll, List.foldl_cons, List.foldl_cons, does_hushed]
      exact ih (w.does d.1 d.2)

/-! ## Two runs -/

/-- The same is done, with sources that are alike. -/
def Counterpart {α : Type} (e f : Source × α) : Prop := e.1.Alike f.1 ∧ e.2 = f.2

theorem hushed_eq_of_counterparts {α : Type} {es fs : List (Source × α)} (h : List.Forall₂ Counterpart es fs) :
    (es.map fun e => (e.1.hushed, e.2)) = fs.map fun f => (f.1.hushed, f.2) := by
  induction h with
  | nil => rfl
  | cons hef _ ih =>
      rw [List.map_cons, List.map_cons, Source.hushed_eq_of_alike hef.1, hef.2, ih]

/-- **Why a work source fails is seen by no miner and changes nothing**: two runs that ask sources which are alike
come to the same world, whatever the events or the order of the turns, and calls that overlap come to the same
but for the faults that they end with. -/
theorem faults_stay_inside :
    (∀ (w : World) (es fs : List (Source × Event)), List.Forall₂ Counterpart es fs → w.run es = w.run fs)
      ∧ (∀ (w : World) (ds es : List (Source × Doing)), List.Forall₂ Counterpart ds es →
        w.doesAll ds = w.doesAll es)
      ∧ ∀ (d : Delivery) (ms ns : List Delivery.Move), ms.map Delivery.Move.hushed = ns.map Delivery.Move.hushed →
        (d.run ms).hushed = (d.run ns).hushed := by
  refine ⟨fun w es fs h => ?_, fun w ds es h => ?_, fun d ms ns h => ?_⟩
  · rw [← run_hushed w es, hushed_eq_of_counterparts h, run_hushed]
  · rw [← doesAll_hushed w ds, hushed_eq_of_counterparts h, doesAll_hushed]
  · rw [← Delivery.run_hushed, h, Delivery.run_hushed]

/-- Two sources give work for the second job only and judge no share, each for reasons of its own. A miner logs in and
submits a share, in two rounds a job is made once, and a login on its own has to do without. -/
theorem faults_stay_inside_two_sources :
    let work (e : Fault) : Nat → Except Fault Template := fun n => if n = 2 then .ok default else .error e
    let S : Source := ⟨work (.transport .brokenPipe "node 7"), fun _ => .error .unauthorized⟩
    let T : Source := ⟨work (.internal "wrong password"), fun _ => .error (.workSource "node 8")⟩
    let settings : Settings := { Settings.standard with
      mining := { Settings.standard.mining with submitPolicy := .lenient } }
    let login : Bytes := Utf8.encodeText "[1,\"mining.authorize\",[\"a.b\",\"\"]]\n"
    let events : List Event :=
      [.accept ⟨.v4 1, 50001⟩ none, .send 1 login, .send 1 submitLine, .tick, .tick]
    let hears : Doing := .other fun w =>
      { w with connections := w.connections.map fun c => { c with framer := c.framer.feed (login ++ submitLine) } }
    let doings : List Doing := [hears, .turn 1, .turn 1, .turn 1, .tick, .mint]
    let moves (e : Fault) : List Delivery.Move :=
      [.join 1 ⟨.v4 1, 50001⟩ default, .beginLogin 1, .receive 1 (work e 1), .resolve 1, .answer 1]
    let w := (fresh settings false).run (events.map fun e => (S, e))
    w = (fresh settings false).run (events.map fun e => (T, e))
      ∧ w.doesAll (doings.map fun d => (S, d)) = w.doesAll (doings.map fun d => (T, d))
      ∧ ((Delivery.fresh (.fresh 1 8)).run (moves .unauthorized)).hushed
        = ((Delivery.fresh (.fresh 1 8)).run (moves (.internal "node 9"))).hushed
      ∧ S.fetch 1 ≠ T.fetch 1 ∧ w.pool.meters.of .fetchFailure = 2 ∧ w.pool.tally.rejected = 1 := by
  intro work S T settings login events hears doings moves w
  have halike : S.Alike T := by
    constructor
    · intro n
      by_cases hn : n = 2 <;> simp [S, T, work, hn, Except.toOption]
    · exact fun _ => rfl
  have hcounterparts : ∀ {α : Type} (es : List α),
      List.Forall₂ Counterpart (es.map fun e => (S, e)) (es.map fun e => (T, e)) := by
    intro α es
    rw [List.forall₂_map_left_iff, List.forall₂_map_right_iff]
    exact List.forall₂_same.mpr fun e _ => ⟨halike, rfl⟩
  obtain ⟨hevents, hdoings, hmoves⟩ := faults_stay_inside
  exact ⟨hevents _ _ _ (hcounterparts events), hdoings w _ _ (hcounterparts doings), hmoves _ _ _ rfl,
    by decide, by decide +kernel, by decide +kernel⟩

end World
end MiningPool

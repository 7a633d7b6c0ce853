import Mathlib.Logic.Relation
import MiningPool.Proofs.World.Bans
import MiningPool.Proofs.World.Script
import MiningPool.World.Traffic

/-!
# Whoever sees the answer sees the session shown

What others see of a session is renewed when a request has been carried out, and before the first byte of its answer is
written. In between the request may wait for the work source, and the session runs ahead of what is shown of it. At all
other times what is shown is the session: of every connection that is not at a request, whatever all others do
(`shown_as_it_is`).

The argument keeps the session from before a request next to what is shown (`Mirrors`). What others do to an entry
leaves its snapshot alone, so it is enough to look at the moves of the connection itself.
-/

namespace MiningPool

open Net Wire Connection

/-! ## Requests that have to wait -/

namespace Pool

variable (source : Source) (p : Pool) (s : Session)

/-- **A request that nothing comes between is answered in one go.** -/
theorem answer_eq_undertake (r : Request) :
    p.answer source s r = match p.undertake source s r with
      | .done o => o
      | .waits s' a q => q.conclude source s' a := by
  rw [undertake]
  cases hc : Command.ofRequest r with
  | error fault => rfl
  | ok c =>
      cases c with
      | authorize username address worker =>
          rw [answer_ok source p s hc]
          dsimp only [route, authorize, jobForLogin, conclude, Ledger.mintForSession, Ledger.draw, Command.name, count]
          cases source.fetch (p.ledger.lastSeq + 1) with
          | error e => rfl
          | ok template => rfl
      | submit x =>
          rw [answer_ok source p s hc]
          dsimp only [route, submit, conclude, Command.name]
          cases objection (p.count (.request Method.submit)) s x.jobId with
          | some fault => rfl
          | none => rfl
      | _ => rfl

theorem sameRooms_undertake (r : Request) : SameRooms (p.undertake source s r).pool p := by
  have hanswer := sameRooms_answer source p s r
  rw [undertake]
  cases hc : Command.ofRequest r with
  | error fault => exact hanswer
  | ok c =>
      cases c with
      | authorize username address worker => exact ⟨rfl, rfl, rfl, rfl, rfl⟩
      | submit x =>
          dsimp only
          split
          · have hsubmit := sameRooms_submit source (p.count (.request Method.submit)) s x
            exact ⟨hsubmit.settings, hsubmit.roster, hsubmit.admission, hsubmit.lastSession, hsubmit.seats⟩
          · exact ⟨rfl, rfl, rfl, rfl, rfl⟩
      | _ => exact hanswer

theorem sameRooms_conclude (a : Await) : SameRooms (p.conclude source s a).pool p := by
  cases a with
  | work seq =>
      dsimp only [conclude]
      cases source.fetch seq with
      | error e => exact ⟨rfl, rfl, rfl, rfl, rfl⟩
      | ok template => exact ⟨rfl, rfl, rfl, rfl, rfl⟩
  | verdict x =>
      dsimp only [conclude]
      cases verdict source x with
      | error fault => exact ⟨rfl, rfl, rfl, rfl, rfl⟩
      | ok accepted => exact ⟨rfl, rfl, rfl, rfl, rfl⟩

theorem handed_conclude (a : Await) : (p.conclude source s a).handed = a.handed := by
  cases a with
  | work seq => rfl
  | verdict x =>
      dsimp only [conclude]
      cases verdict source x with
      | error fault => rfl
      | ok accepted => rfl

end Pool

/-! ## What is shown -/

namespace Roster

variable {r : Roster}

theorem map_some_sessions (h : r.ids.Nodup) :
    r.sessions.map some = r.ids.map fun id => (r.get? id).map (·.snapshot) := by
  rw [sessions, ids, List.map_map, List.map_map]
  refine List.map_congr_left fun e he => ?_
  rw [Function.comp_apply, Function.comp_apply, get?, Keyed.get?_of_mem h he]
  rfl

end Roster

namespace World

variable {w w' : World} {as : List Act} {c c' : Connection}

/-- What is shown of a connection is its session. -/
def Mirrors (w : World) : Prop :=
  ∀ c ∈ w.connections, ∀ e, w.pool.roster.get? c.id = some e → e.snapshot = c.session.snapshot c.peer

theorem mirrors_fresh (settings : Settings) (tasks : Bool) : (fresh settings tasks).Mirrors :=
  fun _ hc => absurd hc List.not_mem_nil

/-- As long as sessions and what is shown stay as they are. -/
theorem Mirrors.lasts {f : Connection → Connection} (h : w.Mirrors)
    (hconnections : w'.connections = w.connections.map f)
    (hf : ∀ c ∈ w.connections, (f c).id = c.id ∧ (f c).peer = c.peer ∧ (f c).session = c.session)
    (hlasts : ∀ id, w.pool.roster.Lasts id w'.pool.roster) : w'.Mirrors := by
  intro d hd e he
  rw [hconnections] at hd
  obtain ⟨c, hc, rfl⟩ := List.mem_map.mp hd
  obtain ⟨hid, hpeer, hsession⟩ := hf c hc
  rw [hid] at he
  obtain ⟨e₀, he₀, hlast⟩ := hlasts c.id e he
  rw [hlast.snapshot, h c hc e₀ he₀, hpeer, hsession]

theorem Mirrors.replace (h : w.Mirrors) (hn : w.Numbered) (hc : c ∈ w.connections)
    (hconnections : w'.connections = (w.replace c').connections) (hid : c'.id = c.id) (hpeer : c'.peer = c.peer)
    (hsession : c'.session = c.session) (hlasts : ∀ id, w.pool.roster.Lasts id w'.pool.roster) : w'.Mirrors := by
  refine h.lasts hconnections (fun d hd => ?_) hlasts
  split
  · rename_i heq
    rw [hn.eq_of_id hc hd (heq.trans hid)]
    exact ⟨hid, hpeer, hsession⟩
  · exact ⟨rfl, rfl, rfl⟩

/-- The session of one connection may change if it is shown at once. -/
theorem Mirrors.publish (h : w.Mirrors) (hconnections : w'.connections = (w.replace c').connections)
    (hroster : w'.pool.roster = w.pool.roster.publish c'.id (c'.session.snapshot c'.peer)) : w'.Mirrors := by
  intro d hd e he
  rw [hconnections] at hd
  rw [hroster] at he
  rcases mem_replace hd with rfl | ⟨hold, hne⟩
  · rw [Roster.get?_publish_self] at he
    obtain ⟨_, _, rfl⟩ := Option.map_eq_some_iff.mp he
    rfl
  · obtain ⟨e₀, he₀, hlast⟩ := Roster.lasts_publish_of_ne w.pool.roster hne _ e he
    rw [hlast.snapshot, h d hold e₀ he₀]

/-- **Whatever happens at once, what is shown of a connection is its session.** -/
theorem mirrors_move (hm : Move w as w') (hn : w.Numbered) (h : w.Mirrors) : w'.Mirrors := by
  have hsame : ∀ id, w.pool.roster.Lasts id w.pool.roster := fun id => .refl id _
  cases hm with
  | turn source hturn =>
      obtain ⟨hc⟩ := hturn
      rename_i c
      have htakes := turn_takes source w.now w.pool c
      have hid := (kept_turn htakes).id
      have hpeer := peer_turn htakes
      rcases shows_turn htakes with hshows | ⟨hsession, hlasts⟩
      · refine h.publish rfl ?_
        rw [hid, hpeer]
        exact hshows
      · exact h.replace hn hc rfl hid hpeer hsession hlasts
  | arrives bs hc hover => exact h.replace hn hc rfl rfl rfl rfl hsame
  | finishes hc => exact h.replace hn hc rfl rfl rfl rfl hsame
  | vanishes hc => exact h.replace hn hc rfl rfl rfl rfl hsame
  | reads room hc => exact h.replace hn hc rfl rfl rfl rfl hsame
  | stops => exact h.lasts rfl (fun _ _ => ⟨rfl, rfl, rfl⟩) hsame
  | cuts hc hopen => exact h.replace hn hc rfl rfl rfl rfl (lasts_close w.pool _ none)
  | @admits peer room limit id p henter =>
      obtain ⟨hid, _, _, hroster⟩ := Pool.enter_ok henter
      intro d hd e he
      rcases List.mem_append.mp hd with hold | hnew
      · have hne : d.id ≠ id := by
          have hused := hn.used d hold
          omega
        obtain ⟨e₀, he₀, hlast⟩ := Roster.lasts_register p.roster hne _ e he
        rw [hroster] at he₀
        rw [hlast.snapshot, h d hold e₀ he₀]
      · rw [List.mem_singleton.mp hnew] at he ⊢
        have hregistered := (Roster.get?_register_self p.roster id _).symm.trans he
        rw [Option.some.injEq] at hregistered
        rw [← hregistered]
        rfl
  | meanwhile hothers => exact h.lasts (List.map_id' _).symm (fun _ _ => ⟨rfl, rfl, rfl⟩) (Pool.lasts_meanwhile hothers)
  | passes r s hle => exact h.lasts (List.map_id' _).symm (fun _ _ => ⟨rfl, rfl, rfl⟩) hsame

/-- A connection goes on in some way, and neither comes nor goes. -/
theorem Booked.replace (h : w.Booked) (hc : c ∈ w.connections)
    (hconnections : w'.connections = (w.replace c').connections) (hid : c'.id = c.id) (hpeer : c'.peer = c.peer)
    (hopen : c'.isOpen = c.isOpen) (hpool : w.pool.Keeps w'.pool)
    (hlast : w.pool.lastSession ≤ w'.pool.lastSession) : w'.Booked := by
  refine ⟨h.numbered.of_ids (fun d _ => ?_) hconnections hlast, h.changes (.keeps hpool ?_)⟩
  case refine_1 =>
    split
    · rename_i heq
      exact heq.symm
    · rfl
  case refine_2 =>
    have hsame : (w.replace c').guests = w.guests := by
      refine guests_replace h.numbered hc hid ?_
      rw [Connection.guest?, Connection.guest?, hid, hpeer, hopen]
    rw [← hsame, guests, guests, hconnections]

/-- A connection that does nothing is where it was. -/
theorem phase_move (hm : Move w as w') (hn : w.Numbered) (hc : c ∈ w.connections)
    (hidle : ∀ ds, .did c.id ds ∉ as) : ∃ d ∈ w'.connections, d.id = c.id ∧ d.phase = c.phase := by
  have hreplace : ∀ {b b' : Connection}, b ∈ w.connections → b'.id = b.id → (b.id = c.id → b'.phase = b.phase) →
      ∃ d ∈ (w.replace b').connections, d.id = c.id ∧ d.phase = c.phase := by
    intro b b' hb hid hphase
    by_cases heq : b.id = c.id
    · obtain rfl : b = c := hn.eq_of_id hc hb heq
      exact ⟨b', mem_replace_self hb hid.symm, hid, hphase rfl⟩
    · exact ⟨c, mem_replace_of_ne hc fun h => heq (hid.symm.trans h.symm), rfl, rfl⟩
  cases hm with
  | turn source hturn =>
      obtain ⟨hb⟩ := hturn
      rename_i b
      refine hreplace hb (kept_turn (turn_takes source w.now w.pool b)).id fun heq => ?_
      rw [heq] at hidle
      exact absurd List.mem_cons_self (hidle _)
  | arrives bs hb hover => exact hreplace hb rfl fun _ => rfl
  | finishes hb => exact hreplace hb rfl fun _ => rfl
  | vanishes hb => exact hreplace hb rfl fun _ => rfl
  | reads room hb => exact hreplace hb rfl fun _ => rfl
  | stops => exact ⟨_, List.mem_map_of_mem hc, rfl, rfl⟩
  | @cuts b hb hbopen =>
      refine hreplace hb rfl fun heq => ?_
      rw [heq] at hidle
      exact absurd List.mem_cons_self (hidle _)
  | admits henter => exact ⟨c, List.mem_append_left _ hc, rfl, rfl⟩
  | meanwhile hothers => exact ⟨c, hc, rfl, rfl⟩
  | passes r s hle => exact ⟨c, hc, rfl, rfl⟩

end World

/-! ## Requests under way -/

namespace Traffic

open World

variable {settings : Settings} {t t' : Traffic} {c : Connection} {id : Nat}

/-- The least that can happen at once while requests are under way. -/
inductive Step : Traffic → Traffic → Prop
  /-- Anything that can happen in a world, except that those at a request do nothing else. -/
  | goesOn {t : Traffic} {as : List Act} {w : World} (h : Move t.world as w)
      (hfree : ∀ id ds, .did id ds ∈ as → t.errands id = none) : Step t { t with world := w }
  /-- A connection that is not at a request reads one. -/
  | undertakes {t : Traffic} {c : Connection} {r : Request} {f : Framer} (source : Source)
      (hc : c ∈ t.world.connections) (hfree : t.errands c.id = none) (hl : c.Listens t.world.pool)
      (hn : c.nextLine t.world.pool = (some (.message r), f)) : Step t (t.undertake source c f r)
  | concludes {t : Traffic} (source : Source) (id : Nat) : Step t (t.conclude source id)
  | replies {t : Traffic} (id : Nat) : Step t (t.reply id)
  /-- A connection is ended from outside, be it at a request or not. -/
  | cuts {t : Traffic} {c : Connection} (hc : c ∈ t.world.connections) (hopen : c.isOpen = true) :
      Step t ⟨t.world.cut c, Function.update t.errands c.id none⟩

abbrev Goes : Traffic → Traffic → Prop := Relation.ReflTransGen Step

/-- What can be reached under some settings, with or without the periodic tasks. -/
def Reached (settings : Settings) (t : Traffic) : Prop := ∃ tasks, Goes (still (fresh settings tasks)) t

/-- A connection that has read a request has it carried out before anyone else acts. -/
theorem carried_out (source : Source) (t : Traffic) (c : Connection) (f : Framer) (r : Request) :
    let o := t.world.pool.answer source c.session r
    let reader := { c with framer := f, deadline := t.world.now + t.world.pool.settings.mining.idleTimeout }
    (t.undertake source c f r).conclude source c.id
      = ⟨{ t.world.replace reader with pool := o.pool, handed := t.world.handed ++ o.handed.toList },
        Function.update t.errands c.id (some (.done o.session (o.messages r.id)))⟩ := by
  intro o reader
  have hanswer : o = _ := Pool.answer_eq_undertake source t.world.pool c.session r
  rw [conclude, undertake]
  dsimp only
  rw [Function.update_self]
  cases hu : t.world.pool.undertake source c.session r with
  | done o' =>
      rw [hu] at hanswer
      rw [hanswer]
      rfl
  | waits s a q =>
      rw [hu] at hanswer
      dsimp only [Errand.ofUndertaking, Undertaking.pool, Undertaking.handed]
      rw [Function.update_idem, hanswer, Pool.handed_conclude]

theorem reply_done {s : Session} {messages : List Message} (herrand : t.errands id = some (.done s messages))
    (hfind : t.world.find? id = some c) :
    let p := t.world.pool
    let answering := { c with session := s }.write (messages.flatMap Message.bytes) (shareBetween c.session s)
    t.reply id
      = ⟨{ t.world.replace answering with pool := { p with roster := p.roster.publish id (s.snapshot c.peer) } },
        Function.update t.errands id none⟩ := by
  rw [reply, herrand, hfind]

/-- **A request that nothing comes between is one turn of its connection.** -/
theorem uninterrupted {r : Request} {f : Framer} (source : Source) (hn : t.world.Numbered)
    (hc : c ∈ t.world.connections) (hfree : t.errands c.id = none) :
    let progress := Connection.receive source t.world.now t.world.pool { c with framer := f } (.message r)
    ((t.undertake source c f r).conclude source c.id).reply c.id = ⟨t.world.took (.acts progress), t.errands⟩ := by
  intro progress
  let o := t.world.pool.answer source c.session r
  let reader : Connection :=
    { c with framer := f, deadline := t.world.now + t.world.pool.settings.mining.idleTimeout }
  let carried : World :=
    { t.world.replace reader with pool := o.pool, handed := t.world.handed ++ o.handed.toList }
  have hcarried : (t.undertake source c f r).conclude source c.id
      = ⟨carried, Function.update t.errands c.id (some (.done o.session (o.messages r.id)))⟩ :=
    carried_out source t c f r
  have hrooms := Pool.sameRooms_answer source t.world.pool c.session r
  have hnumbered : carried.Numbered := hn.replace (Nat.le_of_eq hrooms.lastSession.symm)
  have hfind : carried.find? c.id = some reader :=
    hnumbered.find?_of_mem (mem_replace_self (c := reader) hc rfl)
  rw [hcarried, reply_done (Function.update_self _ _ _) hfind, Function.update_idem, ← hfree, Function.update_eq_self]
  -- the connection has been replaced twice
  have htwice : ((t.world.replace reader).replace progress.connection).connections
      = (t.world.replace progress.connection).connections := congrArg World.connections (replace_replace rfl)
  exact congrArg (fun cs => (⟨{ t.world.took (.acts progress) with connections := cs }, t.errands⟩ : Traffic)) htwice

/-! ### What a step preserves -/

/-- The books are right, what is shown of the connections is what their sessions were before their requests, and whoever
is at a request is there and writes nothing. -/
structure Sound (t : Traffic) : Prop where
  booked : t.world.Booked
  mirrors : t.world.Mirrors
  waiting : ∀ id, t.errands id ≠ none → ∃ c ∈ t.world.connections, c.id = id ∧ c.phase = .waiting

theorem sound_still (settings : Settings) (tasks : Bool) : (still (fresh settings tasks)).Sound :=
  ⟨booked_fresh settings tasks, mirrors_fresh settings tasks, fun _ h => absurd rfl h⟩

/-- Whoever is at a request when that of an id is over is someone else, who was at it before. -/
theorem busy_of_update {l : Nat} (h : Function.update t.errands id none l ≠ none) : l ≠ id ∧ t.errands l ≠ none := by
  by_cases hown : l = id
  · rw [hown, Function.update_self] at h
    exact absurd rfl h
  · rw [Function.update_of_ne hown] at h
    exact ⟨hown, h⟩

theorem sound_undertake {r : Request} {f : Framer} (source : Source) (h : t.Sound) (hc : c ∈ t.world.connections)
    (hphase : c.phase = .waiting) : (t.undertake source c f r).Sound := by
  have hrooms := Pool.sameRooms_undertake source t.world.pool c.session r
  refine ⟨?_, ?_, fun id hid => ?_⟩
  case refine_1 =>
    exact h.booked.replace hc rfl rfl rfl rfl (h.booked.books.keeps_rooms hrooms) (Nat.le_of_eq hrooms.lastSession.symm)
  case refine_2 =>
    refine h.mirrors.replace h.booked.numbered hc rfl rfl rfl rfl fun id => ?_
    exact Roster.lasts_of_same (congrArg (·.get? id) hrooms.roster)
  case refine_3 =>
    by_cases hown : id = c.id
    · exact ⟨_, mem_replace_self hc rfl, hown.symm, hphase⟩
    · have hother : t.errands id ≠ none := by
        intro hnone
        exact hid ((Function.update_of_ne hown _ _).trans hnone)
      obtain ⟨d, hd, rfl, hwaits⟩ := h.waiting id hother
      exact ⟨d, mem_replace_of_ne hd hown, rfl, hwaits⟩

theorem sound_conclude (source : Source) (h : t.Sound) (id : Nat) : (t.conclude source id).Sound := by
  unfold conclude
  split
  · rename_i r s a herrand
    have hrooms := Pool.sameRooms_conclude source t.world.pool s a
    refine ⟨⟨?_, ?_⟩, ?_, fun l hl => ?_⟩
    case refine_1 =>
      exact h.booked.numbered.of_ids (fun _ _ => rfl) (List.map_id _).symm (Nat.le_of_eq hrooms.lastSession.symm)
    case refine_2 => exact h.booked.changes (.keeps (h.booked.books.keeps_rooms hrooms) rfl)
    case refine_3 =>
      refine h.mirrors.lasts (List.map_id _).symm (fun _ _ => ⟨rfl, rfl, rfl⟩) fun id => ?_
      exact Roster.lasts_of_same (congrArg (·.get? id) hrooms.roster)
    case refine_4 =>
      refine h.waiting l fun hnone => hl ?_
      by_cases hown : l = id
      · rw [hown, herrand] at hnone
        exact absurd hnone (by simp)
      · exact (Function.update_of_ne hown _ _).trans hnone
  · exact h

/-- **When the answer is about to be written, the session is shown.** -/
theorem sound_reply (h : t.Sound) (id : Nat) : (t.reply id).Sound := by
  unfold reply
  split
  · rename_i s messages c herrand hfind
    have hc : c ∈ t.world.connections := List.mem_of_find?_eq_some hfind
    obtain rfl : c.id = id := by simpa using List.find?_some hfind
    -- it wrote nothing while it was at its request
    obtain ⟨d, hd, hid, hwaits⟩ := h.waiting c.id (by rw [herrand]; exact Option.some_ne_none _)
    obtain rfl : d = c := h.booked.numbered.eq_of_id hc hd hid
    have hshown : t.world.pool.roster.SameGuests (t.world.pool.roster.publish d.id (s.snapshot d.peer)) :=
      Roster.sameGuests_change h.booked.books.allOpen d.id fun _ he => he
    refine ⟨?_, ?_, fun l hl => ?_⟩
    case refine_1 =>
      refine h.booked.replace hc rfl rfl rfl ?_ (h.booked.books.keeps_roster hshown) (Nat.le_refl _)
      rw [isOpen, isOpen, hwaits]
      rfl
    case refine_2 => exact h.mirrors.publish rfl rfl
    case refine_3 =>
      obtain ⟨hne, hbefore⟩ := busy_of_update hl
      obtain ⟨b, hb, rfl, hbwaits⟩ := h.waiting l hbefore
      exact ⟨b, mem_replace_of_ne hb hne, rfl, hbwaits⟩
  · exact h

/-- A move of the world in which whoever is still at a request does nothing. -/
theorem Sound.move {as : List Act} {w : World} {errands : Nat → Option Errand} (h : t.Sound) (hm : Move t.world as w)
    (hbusy : ∀ id, errands id ≠ none → t.errands id ≠ none ∧ ∀ ds, .did id ds ∉ as) : Sound ⟨w, errands⟩ := by
  refine ⟨booked_move hm h.booked, mirrors_move hm h.booked.numbered h.mirrors, fun id hid => ?_⟩
  obtain ⟨hbefore, hidle⟩ := hbusy id hid
  obtain ⟨c, hc, rfl, hwaits⟩ := h.waiting id hbefore
  obtain ⟨d, hd, hsame, hphase⟩ := phase_move hm h.booked.numbered hc hidle
  exact ⟨d, hd, hsame, hphase.trans hwaits⟩

theorem sound_cut (h : t.Sound) (hc : c ∈ t.world.connections) (hopen : c.isOpen = true) :
    Sound ⟨t.world.cut c, Function.update t.errands c.id none⟩ := by
  have hcut : Move t.world [.did c.id [.ended .cutOff]] (t.world.cut c) := by
    rw [cut, if_pos hopen]
    exact .cuts hc hopen
  refine h.move hcut fun id hid => ?_
  obtain ⟨hne, hbefore⟩ := busy_of_update hid
  exact ⟨hbefore, fun ds hmem => by simp [hne] at hmem⟩

/-- **Whatever happens while requests are under way**, nothing is shown but the sessions from before. -/
theorem sound_step (hstep : Step t t') (h : t.Sound) : t'.Sound := by
  cases hstep with
  | goesOn hm hfree => exact h.move hm fun id hid => ⟨hid, fun ds hmem => hid (hfree id ds hmem)⟩
  | undertakes source hc hfree hl hn => exact sound_undertake source h hc hl.phase
  | concludes source id => exact sound_conclude source h id
  | replies id => exact sound_reply h id
  | cuts hc hopen => exact sound_cut h hc hopen

theorem sound_reached (h : Reached settings t) : t.Sound := by
  obtain ⟨tasks, hgoes⟩ := h
  induction hgoes with
  | refl => exact sound_still settings tasks
  | tail _ hstep ih => exact sound_step hstep ih

/-! ### What others see -/

/-- The registered are the running connections. -/
theorem Sound.ids (h : t.Sound) : t.world.pool.roster.ids = t.world.running.map (·.id) := by
  rw [h.booked.books.ids, guests_eq, List.map_map]
  rfl

/-- What is shown of whoever is registered is its session from before its request. -/
theorem Sound.shown (h : t.Sound) (hc : c ∈ t.world.running) :
    ∃ e, t.world.pool.roster.get? c.id = some e ∧ e.snapshot = c.session.snapshot c.peer := by
  have hid : c.id ∈ t.world.pool.roster.ids := by
    rw [h.ids]
    exact List.mem_map_of_mem hc
  cases hget : t.world.pool.roster.get? c.id with
  | none => exact absurd hid (Keyed.get?_eq_none_iff.mp hget)
  | some e => exact ⟨e, rfl, h.mirrors c (List.mem_of_mem_filter hc) e hget⟩

theorem session_of_free (hfree : t.errands c.id = none) : t.session c = c.session := by
  rw [session, hfree]
  rfl

/-- While no one is at a request, the sessions that are shown are those of the running connections. -/
theorem Sound.sessions (h : t.Sound) (hfree : ∀ c ∈ t.world.running, t.errands c.id = none) :
    t.world.pool.roster.sessions = t.world.running.map fun c => (t.session c).snapshot c.peer := by
  have hnodup : t.world.pool.roster.ids.Nodup := by
    rw [h.booked.books.ids]
    exact h.booked.numbered.nodup_guests
  refine List.map_injective_iff.mpr (fun _ _ => Option.some.inj) ?_
  rw [Roster.map_some_sessions hnodup, h.ids, List.map_map, List.map_map]
  refine List.map_congr_left fun c hc => ?_
  obtain ⟨e, hget, hshown⟩ := h.shown hc
  rw [Function.comp_apply, Function.comp_apply, hget, session_of_free (hfree c hc), Option.map_some, hshown]

end Traffic
end MiningPool

import MiningPool.Proofs.Pool.Accounts
import MiningPool.Proofs.World.Conservation

/-!
# What is posted

The accounts are about two things: requests that are carried out, and rounds of broadcasting. `Posts` lists all that
can happen at once while the listener alone lets anyone in, in any order, and what it posts. What a miner does at its
end is not looked at here; whatever it does, it may have sent anything, taken anything and be gone. The work source
may be another one each time.

A run of events is one such order.
-/

namespace MiningPool

open Net Wire Connection

/-- Something that the accounts are about. -/
inductive Posting where
  /-- A request was carried out, in a pool and for a session as they were. -/
  | served (source : Source) (p : Pool) (s : Session) (r : Request)
  /-- A round of broadcasting came to something. -/
  | round (r : Round)

/-- What a deed posts. -/
def Connection.Deed.posting? : Deed → Option Posting
  | .served source p s r => some (.served source p s r)
  | _ => none

namespace World

/-- What can happen at once, with what it posts. -/
inductive Posts : World → List Posting → World → Prop
  /-- Someone comes in by way of the listener, or is refused. -/
  | asks {w : World} (peer : Socket) (room : Option Nat) : Posts w [] (w.ask peer room).2
  | turn {w : World} {c : Connection} (source : Source) (hc : c ∈ w.connections) :
      Posts w ((deeds source w.now w.pool c).filterMap Deed.posting?) (w.took (c.turn source w.now w.pool))
  | round {w : World} (source : Source) :
      Posts w [.round (w.pool.tick source).1] { w with pool := (w.pool.tick source).2 }
  /-- A miner does something at its end. -/
  | touches {w : World} {c : Connection} (framer : Framer) (client : Client) (hc : c ∈ w.connections) :
      Posts w [] (w.replace { c with framer := framer, client := client })
  /-- All are told that the pool shuts down. -/
  | stops {w : World} :
      Posts w [] { w with connections := w.connections.map fun c => { c with stopping := true } }
  /-- A connection is ended from outside. -/
  | cuts {w : World} {c : Connection} (hc : c ∈ w.connections) (h : c.isOpen = true) :
      Posts w [] { w.replace (c.close w.pool none none).connection with pool := (c.close w.pool none none).pool }
  | aside {w : World} {p : Pool} (h : Pool.Aside w.now w.pool p) : Posts w [] { w with pool := p }
  | passes {w : World} {now : Instant} (nextRound nextSweep : Option Instant) (h : w.now ≤ now) :
      Posts w [] { w with now := now, nextRound := nextRound, nextSweep := nextSweep }

/-- One world comes of another, with all that was posted on the way. -/
abbrev Postings : World → List Posting → World → Prop := Chain Posts

variable {w w' : World} {c : Connection} {source : Source} {log : List Posting}

/-- **Whatever happens keeps the connections numbered.** -/
theorem numbered_posts (h : Posts w log w') (hn : w.Numbered) : w'.Numbered := by
  cases h with
  | asks peer room =>
      obtain ⟨_, hmoves⟩ := ask_moves w peer room
      exact hmoves.preserves numbered_move hn
  | turn source hc => exact numbered_takesTurn (.turn hc) hn
  | round source => exact numbered_move (.meanwhile (.ticked source)) hn
  | touches framer client hc => exact hn.replace (Nat.le_refl _)
  | stops => exact numbered_move .stops hn
  | cuts hc h => exact numbered_move (.cuts hc h) hn
  | aside h => exact numbered_move (.meanwhile h.meanwhile) hn
  | passes r s h => exact numbered_move (.passes r s h) hn

/-! ## Events -/

/-- One world comes of another, whatever was posted on the way. -/
def Posted (w w' : World) : Prop := ∃ log, Postings w log w'

theorem Posted.refl (w : World) : Posted w w := ⟨[], .refl⟩

theorem Posted.trans {u : World} (h : Posted u w) (h' : Posted w w') : Posted u w' := by
  obtain ⟨log, hlog⟩ := h
  obtain ⟨more, hmore⟩ := h'
  exact ⟨log ++ more, hlog.trans hmore⟩

theorem Posted.numbered (h : Posted w w') (hn : w.Numbered) : w'.Numbered := by
  obtain ⟨_, hlog⟩ := h
  exact hlog.preserves numbered_posts hn

theorem posted (h : Posts w log w') : Posted w w' := ⟨log, .single h⟩

theorem posted_turns {h : List Act} (hturns : Turns source w h w') : Posted w w' := by
  induction hturns with
  | refl => exact .refl w
  | tail _ hstep ih =>
      obtain ⟨hc⟩ := hstep
      exact ih.trans (posted (.turn source hc))

theorem posted_settle (source : Source) (hn : w.Numbered) : Posted w (w.settle source) := by
  obtain ⟨_, hturns, _⟩ := settle_turns source hn
  exact posted_turns hturns

theorem posted_settled (source : Source) (hn : w.Numbered) (h : Posted w w') : Posted w (w'.settle source) :=
  h.trans (posted_settle source (h.numbered hn))

theorem posted_accept (source : Source) (hn : w.Numbered) (peer : Socket) (room : Option Nat) :
    Posted w (w.accept source peer room).2 := by
  have hasked : Posted w (w.ask peer room).2 := posted (.asks peer room)
  rw [accept_eq_ask]
  rcases hask : w.ask peer room with ⟨answer, w'⟩
  rw [hask] at hasked
  cases answer with
  | error why => exact hasked
  | ok id => exact posted_settled source hn hasked

theorem posted_change (source : Source) (hn : w.Numbered) (id : Nat) (f : Connection → Connection)
    (hf : ∀ c, ∃ framer client, f c = { c with framer := framer, client := client }) :
    Posted w (w.change source id f) := by
  unfold change
  split
  · exact .refl w
  · rename_i c hc
    obtain ⟨framer, client, heq⟩ := hf c
    rw [heq]
    exact posted_settled source hn (posted (.touches framer client (List.mem_of_find?_eq_some hc)))

theorem posted_send (source : Source) (hn : w.Numbered) (id : Nat) (bs : Bytes) :
    Posted w (w.send source id bs).2 := by
  unfold send
  split
  · exact .refl w
  · split
    · exact .refl w
    · split
      · exact posted_change source hn id _ fun c => ⟨c.framer.feed bs, c.client, rfl⟩
      · exact .refl w

theorem posted_read (source : Source) (hn : w.Numbered) (id : Nat) : Posted w (w.read source id) := by
  unfold read
  split
  · exact .refl w
  · rename_i c _
    have htaken := posted_change source hn id (fun c => { c with client := { c.client.takeAll with room := none } })
      fun d => ⟨d.framer, _, rfl⟩
    exact htaken.trans (posted_change source (htaken.numbered hn) id _ fun d => ⟨d.framer, _, rfl⟩)

theorem posted_shutdown (source : Source) (hn : w.Numbered) : Posted w (w.shutdown source) :=
  posted_settled source hn ((posted .stops).trans (posted (.passes none none (Nat.le_refl _))))

theorem posted_cut (hc : c ∈ w.connections) : Posted w (w.cut c) := by
  unfold cut
  split
  · rename_i hopen
    exact posted (.cuts hc hopen)
  · exact .refl w

theorem posted_cuts : ∀ (cs : List Connection) (w : World), cs.Pairwise (fun c d => c.id < d.id) →
    (∀ c ∈ cs, c ∈ w.connections) → Posted w (cs.foldl cut w) := by
  intro cs
  induction cs with
  | nil => intro w _ _; exact .refl w
  | cons c cs ih =>
      intro w hcs hmem
      obtain ⟨hlt, hrest⟩ := List.pairwise_cons.mp hcs
      exact (posted_cut (hmem c List.mem_cons_self)).trans (ih (w.cut c) hrest (mem_cut hlt hmem))

/-! ### Time -/

theorem posted_tick (source : Source) (hn : w.Numbered) : Posted w (w.tick source).2 :=
  posted_settled source hn (posted (.round source))

theorem posted_roundIfDue (source : Source) (hn : w.Numbered) : Posted w (w.roundIfDue source) := by
  unfold roundIfDue
  split
  · exact (posted_tick source hn).trans (posted (.passes _ _ (Nat.le_refl _)))
  · exact .refl w

theorem posted_sweepIfDue (w : World) : Posted w w.sweepIfDue := by
  unfold sweepIfDue
  split
  · exact (posted (.aside .swept)).trans (posted (.passes _ _ (Nat.le_refl _)))
  · exact .refl w

theorem posted_meet (source : Source) (hn : w.Numbered) {t : Instant} (ht : w.now ≤ t) :
    Posted w (w.meet source t) := by
  have hlater : Posted w { w with now := t } := posted (.passes w.nextRound w.nextSweep ht)
  have hround := hlater.trans (posted_roundIfDue source (hlater.numbered hn))
  exact posted_settled source hn (hround.trans (posted_sweepIfDue _))

theorem posted_advanceTo (source : Source) (hn : w.Numbered) (t : Instant) : Posted w (w.advanceTo source t) := by
  have hmax : ∀ v : World, Posted v { v with now := max v.now t } :=
    fun v => posted (.passes v.nextRound v.nextSweep (Nat.le_max_left _ _))
  induction w using advanceTo.induct source t with
  | case1 w hnone =>
      rw [advanceTo, hnone]
      exact hmax w
  | case2 w d hsome hd ih =>
      have hmeet := posted_meet source hn (Nat.le_of_lt hd.1)
      have hnow := (quietly_meet source hn (Nat.le_of_lt hd.1)).2
      rw [with_now hnow] at ih
      rw [advanceTo, hsome]
      dsimp only
      rw [if_pos hd, with_now hnow]
      exact hmeet.trans (ih (hmeet.numbered hn))
  | case3 w d hsome hd =>
      rw [advanceTo, hsome]
      dsimp only
      rw [if_neg hd]
      exact hmax w

/-! ### Runs -/

/-- Every event is a few things that can happen at once, unless someone is let in past the listener. -/
theorem posted_step (source : Source) (hn : w.Numbered) (e : Event)
    (hdoor : ∀ peer room limit, e ≠ .connect peer room limit) : Posted w (w.step source e) := by
  cases e with
  | connect peer room limit => exact absurd rfl (hdoor peer room limit)
  | accept peer room => exact posted_accept source hn peer room
  | send id bs => exact posted_send source hn id bs
  | finish id => exact posted_change source hn id _ fun c => ⟨c.framer, _, rfl⟩
  | vanish id => exact posted_change source hn id _ fun c => ⟨c.framer, _, rfl⟩
  | read id => exact posted_read source hn id
  | push id m => exact posted_settled source hn (posted (.aside (.pushed id m)))
  | kill id => exact posted_settled source hn (posted (.aside (.killed id)))
  | ban ip => exact posted_settled source hn (posted (.aside (.banned ip)))
  | askBanned ip => exact posted (.aside (.asked ip))
  | sweep => exact posted (.aside .swept)
  | tick => exact posted_tick source hn
  | mint => exact posted (.aside (.minted source))
  | skipSessions last => exact posted (.aside (.skipped last))
  | advance span => exact posted_advanceTo source hn _
  | shutdown => exact posted_shutdown source hn
  | cutOff => exact posted_cuts w.connections w hn.ascending fun _ hc => hc

/-- **A run in which all come by way of the listener is one order of what can happen.** -/
theorem posted_run (settings : Settings) (tasks : Bool) (events : List (Source × Event))
    (hdoor : ∀ e ∈ events, ∀ peer room limit, e.2 ≠ .connect peer room limit) :
    Posted (fresh settings tasks) ((fresh settings tasks).run events) := by
  have hrun : ∀ (events : List (Source × Event)) (w : World), w.Numbered →
      (∀ e ∈ events, ∀ peer room limit, e.2 ≠ .connect peer room limit) → Posted w (w.run events) := by
    intro events
    induction events with
    | nil => exact fun w _ _ => .refl w
    | cons event rest ih =>
        intro w hn hdoor
        obtain ⟨source, e⟩ := event
        have hfirst := posted_step source hn e (hdoor _ List.mem_cons_self)
        exact hfirst.trans (ih (w.step source e) (hfirst.numbered hn)
          fun e' he' => hdoor e' (List.mem_cons_of_mem _ he'))
  exact hrun events _ (numbered_fresh settings tasks) hdoor

end World
end MiningPool

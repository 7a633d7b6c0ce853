import Mathlib.Logic.Relation
import MiningPool.Proofs.World.Guests

/-!
# Nothing of a connection is left over

Those who come by way of the listener find no more seats than there are for clients. What can be reached from a
fresh world has all turns and all other moves in any order, and only letting someone in is a step that nothing
else comes between. A run of events is one such order.

A shutdown lets everyone end, and after a while ends those who have not. Then nothing is taken up any more.
-/

namespace MiningPool

open Net Wire

namespace World

variable {settings : Settings} {w w' : World} {source : Source}

/-! ## What can be reached -/

/-- Someone comes in by way of the listener, or something else happens at once and no one is let in. -/
inductive Happens (w : World) : World → Prop where
  | asks (peer : Socket) (room : Option Nat) : Happens w (w.ask peer room).2
  | goesOn {w' : World} {as : List Act} (h : Move w as w')
      (hnone : w'.connections.length = w.connections.length) : Happens w w'

abbrev Goes : World → World → Prop := Relation.ReflTransGen Happens

/-- What can be reached under some settings, with or without the periodic tasks, when the listener alone lets
anyone in. -/
def Reached (settings : Settings) (w : World) : Prop := ∃ tasks, Goes (fresh settings tasks) w

/-- The books are right, under some settings, and no more seats are taken than there are for clients. -/
structure Sound (settings : Settings) (w : World) : Prop extends Booked w where
  configured : w.pool.settings = settings
  room : w.pool.seats ≤ settings.maxClients

theorem sound_ask (h : w.Sound settings) (peer : Socket) (room : Option Nat) :
    (w.ask peer room).2.Sound settings := by
  refine ⟨booked_ask h.toBooked peer room, ?_, ?_⟩
  case refine_1 =>
    obtain ⟨_, hmoves⟩ := ask_moves w peer room
    have hboth : (w.ask peer room).2.Booked ∧ (w.ask peer room).2.pool.settings = settings :=
      hmoves.preserves (P := fun v => v.Booked ∧ v.pool.settings = settings)
        (fun hm hv => ⟨booked_move hm hv.1, (settings_move hm hv.1).trans hv.2⟩) ⟨h.toBooked, h.configured⟩
    exact hboth.2
  case refine_2 =>
    rcases hask : w.ask peer room with ⟨answer, w'⟩
    cases answer with
    | error why =>
        have hseats : w'.pool.seats = w.pool.seats := (h.toBooked.unmoved hask).seats
        exact hseats ▸ h.room
    | ok id =>
        obtain ⟨q, henter, rfl⟩ := ask_ok hask
        obtain ⟨hroom, _, _, _, rfl⟩ := Pool.enter_seat henter
        have hfree : ¬ w.pool.settings.maxClients ≤ w.pool.seats := of_decide_eq_false hroom
        rw [h.configured] at hfree
        show w.pool.seats + 1 ≤ settings.maxClients
        omega

/-- **Whatever happens, the books are right and the seats are enough.** -/
theorem sound_happens (hstep : Happens w w') (h : w.Sound settings) : w'.Sound settings := by
  cases hstep with
  | asks peer room => exact sound_ask h peer room
  | goesOn hm hnone =>
      have hseats := seats_move hm h.toBooked hnone
      exact ⟨booked_move hm h.toBooked, (settings_move hm h.toBooked).trans h.configured,
        Nat.le_trans hseats h.room⟩

theorem sound_goes (hgoes : Goes w w') (h : w.Sound settings) : w'.Sound settings := by
  induction hgoes with
  | refl => exact h
  | tail _ hstep ih => exact sound_happens hstep ih

theorem sound_reached (h : Reached settings w) : w.Sound settings := by
  obtain ⟨tasks, hgoes⟩ := h
  exact sound_goes hgoes ⟨booked_fresh settings tasks, rfl, Nat.zero_le _⟩

/-! ## Runs -/

theorem length_replace (w : World) (c : Connection) : (w.replace c).connections.length = w.connections.length :=
  List.length_map _

/-- Whoever is over stays among the connections. -/
theorem length_takesTurn {as : List Act} (h : TakesTurn source w as w') :
    w'.connections.length = w.connections.length := by
  obtain ⟨hc⟩ := h
  exact length_replace w _

/-- The connections get no fewer. -/
theorem length_move {as : List Act} (h : Move w as w') : w.connections.length ≤ w'.connections.length := by
  cases h with
  | turn source h => exact Nat.le_of_eq (length_takesTurn h).symm
  | arrives bs hc h => exact Nat.le_of_eq (length_replace w _).symm
  | finishes hc => exact Nat.le_of_eq (length_replace w _).symm
  | vanishes hc => exact Nat.le_of_eq (length_replace w _).symm
  | reads room hc => exact Nat.le_of_eq (length_replace w _).symm
  | stops => exact Nat.le_of_eq (List.length_map _).symm
  | cuts hc h => exact Nat.le_of_eq (length_replace w _).symm
  | admits h =>
      show w.connections.length ≤ (w.connections ++ [_]).length
      rw [List.length_append]
      exact Nat.le_add_right _ _
  | meanwhile h => exact Nat.le_refl _
  | passes r s h => exact Nat.le_refl _

/-- If there are no more connections in the end, no one was let in on the way. -/
theorem goes_of_moves {h : List Act} (hmoves : Moves w h w') :
    w.connections.length ≤ w'.connections.length
      ∧ (w'.connections.length = w.connections.length → Goes w w') := by
  induction hmoves with
  | refl => exact ⟨Nat.le_refl _, fun _ => .refl⟩
  | tail _ hstep ih =>
      have hlast := length_move hstep
      obtain ⟨hfirst, hgoes⟩ := ih
      refine ⟨Nat.le_trans hfirst hlast, fun hsame => (hgoes (by omega)).tail (.goesOn hstep (by omega))⟩

/-! ### How many connections there are -/

theorem length_foldl {α : Type} {f : World → α → World}
    (hf : ∀ w a, (f w a).connections.length = w.connections.length) (as : List α) :
    ∀ w : World, (as.foldl f w).connections.length = w.connections.length := by
  induction as with
  | nil => exact fun _ => rfl
  | cons a as ih => exact fun w => (ih (f w a)).trans (hf w a)

theorem length_settle (source : Source) (w : World) :
    (w.settle source).connections.length = w.connections.length := by
  have hpass : ∀ w : World, (w.pass source).connections.length = w.connections.length :=
    fun w => length_foldl (f := ran source) (fun w _ => length_replace w _) w.connections w
  exact length_foldl (fun w _ => hpass w) _ w

theorem length_change (source : Source) (w : World) (id : Nat) (f : Connection → Connection) :
    (w.change source id f).connections.length = w.connections.length := by
  unfold change
  split
  · rfl
  · exact (length_settle source _).trans (length_replace w _)

theorem length_meet (source : Source) (w : World) (t : Instant) :
    (w.meet source t).connections.length = w.connections.length := by
  have hround : ∀ v : World, (v.roundIfDue source).connections.length = v.connections.length := by
    intro v
    unfold roundIfDue
    split
    · exact length_settle source _
    · rfl
  have hsweep : ∀ v : World, v.sweepIfDue.connections.length = v.connections.length := by
    intro v
    unfold sweepIfDue
    split
    · rfl
    · rfl
  exact (length_settle source _).trans ((hsweep _).trans (hround _))

theorem length_advanceTo (source : Source) (w : World) (t : Instant) :
    (w.advanceTo source t).connections.length = w.connections.length := by
  induction w using advanceTo.induct source t with
  | case1 w hnone => rw [advanceTo, hnone]
  | case2 w d hsome hd ih =>
      rw [advanceTo, hsome]
      dsimp only
      rw [if_pos hd, ih]
      exact length_meet source w d
  | case3 w d hsome hd =>
      rw [advanceTo, hsome]
      dsimp only
      rw [if_neg hd]

theorem length_cut (w : World) (c : Connection) : (w.cut c).connections.length = w.connections.length := by
  unfold cut
  split
  · exact length_replace w _
  · rfl

theorem length_send (source : Source) (w : World) (id : Nat) (bs : Bytes) :
    (w.send source id bs).2.connections.length = w.connections.length := by
  unfold send
  split
  · rfl
  · split
    · rfl
    · split
      · exact length_change source w id _
      · rfl

theorem length_read (source : Source) (w : World) (id : Nat) :
    (w.read source id).connections.length = w.connections.length := by
  unfold read
  split
  · rfl
  · exact (length_change source _ id _).trans (length_change source w id _)

theorem goes_settle (source : Source) (hn : w.Numbered) : Goes w (w.settle source) := by
  obtain ⟨_, hturns, _⟩ := settle_turns source hn
  exact (goes_of_moves (moves_of_turns hturns)).2 (length_settle source w)

theorem goes_shutdown (source : Source) (hn : w.Numbered) : Goes w (w.shutdown source) := by
  obtain ⟨_, hmoves, _⟩ := (quietly_shutdown source w).wordless hn
  exact (goes_of_moves hmoves).2 ((length_settle source _).trans (List.length_map _))

theorem goes_cutOff (hn : w.Numbered) : Goes w w.cutOff := by
  obtain ⟨_, hmoves, _⟩ := (quietly_cutOff hn).wordless hn
  exact (goes_of_moves hmoves).2 (length_foldl length_cut w.connections w)

theorem goes_accept (source : Source) (hn : w.Numbered) (peer : Socket) (room : Option Nat) :
    Goes w (w.accept source peer room).2 := by
  have hasked : Goes w (w.ask peer room).2 := .single (.asks peer room)
  obtain ⟨_, hmoves⟩ := ask_moves w peer room
  have hn' : (w.ask peer room).2.Numbered := hmoves.preserves numbered_move hn
  rw [accept_eq_ask]
  rcases hask : w.ask peer room with ⟨answer, w'⟩
  rw [hask] at hasked hn'
  cases answer with
  | error why => exact hasked
  | ok id => exact hasked.trans (goes_settle source hn')

/-- Every event goes on from where it happens, unless someone is let in past the listener. -/
theorem goes_step (source : Source) (hn : w.Numbered) (htidy : w.Tidy) (e : Event)
    (hdoor : ∀ peer room limit, e ≠ .connect peer room limit) : Goes w (w.step source e) := by
  obtain ⟨⟨h, hmoves, _⟩, _⟩ := step_moves source hn htidy e
  have hgoes := (goes_of_moves hmoves).2
  cases e with
  | connect peer room limit => exact absurd rfl (hdoor peer room limit)
  | accept peer room => exact goes_accept source hn peer room
  | send id bs => exact hgoes (length_send source w id bs)
  | finish id => exact hgoes (length_change source w id _)
  | vanish id => exact hgoes (length_change source w id _)
  | read id => exact hgoes (length_read source w id)
  | push id m => exact hgoes (length_settle source _)
  | kill id => exact hgoes (length_settle source _)
  | ban ip => exact hgoes (length_settle source _)
  | askBanned ip => exact hgoes rfl
  | sweep => exact hgoes rfl
  | tick => exact hgoes (length_settle source _)
  | mint => exact hgoes rfl
  | skipSessions last => exact hgoes rfl
  | advance span => exact hgoes (length_advanceTo source w _)
  | shutdown => exact goes_shutdown source hn
  | cutOff => exact goes_cutOff hn

/-- **A run in which all come by way of the listener reaches where it ends.** -/
theorem reached_run (settings : Settings) (tasks : Bool) (events : List (Source × Event))
    (hdoor : ∀ e ∈ events, ∀ peer room limit, e.2 ≠ .connect peer room limit) :
    Reached settings ((fresh settings tasks).run events) := by
  refine ⟨tasks, ?_⟩
  have hrun : ∀ (events : List (Source × Event)) (w : World), w.Numbered → w.Tidy →
      (∀ e ∈ events, ∀ peer room limit, e.2 ≠ .connect peer room limit) → Goes w (w.run events) := by
    intro events
    induction events with
    | nil => exact fun _ _ _ _ => .refl
    | cons event rest ih =>
        intro w hn htidy hdoor
        obtain ⟨source, e⟩ := event
        obtain ⟨⟨h, hmoves, _⟩, htidy'⟩ := step_moves source hn htidy e
        have hfirst := goes_step source hn htidy e (hdoor _ List.mem_cons_self)
        exact hfirst.trans (ih (w.step source e) (hmoves.preserves numbered_move hn) htidy'
          fun e' he' => hdoor e' (List.mem_cons_of_mem _ he'))
  exact hrun events _ (numbered_fresh settings tasks) (fun _ hc => absurd hc List.not_mem_nil) hdoor

/-! ## The end -/

theorem closed_cuts : ∀ (cs : List Connection) (w : World), cs.Pairwise (fun c d => c.id < d.id) →
    (∀ c ∈ cs, c ∈ w.connections) → (∀ c ∈ w.connections, c ∉ cs → c.isOpen = false) →
      ∀ c ∈ (cs.foldl cut w).connections, c.isOpen = false := by
  intro cs
  induction cs with
  | nil =>
      intro w _ _ hclosed c hc
      exact hclosed c hc List.not_mem_nil
  | cons c cs ih =>
      intro w hcs hmem hclosed
      obtain ⟨hlt, hrest⟩ := List.pairwise_cons.mp hcs
      refine ih (w.cut c) hrest (mem_cut hlt hmem) fun d hd hnot => ?_
      have hothers : d ∈ w.connections → d ≠ c → d.isOpen = false := by
        intro hold hne
        refine hclosed d hold fun hin => ?_
        rcases List.mem_cons.mp hin with heq | hin
        · exact hne heq
        · exact hnot hin
      unfold cut at hd
      split at hd
      · rcases mem_replace hd with rfl | ⟨hold, hne⟩
        · rfl
        · exact hothers hold fun heq => hne (congrArg (·.id) heq)
      · rename_i hover
        by_cases heq : d = c
        · rw [heq]
          exact Bool.not_eq_true _ ▸ hover
        · exact hothers hd heq

/-- **Those who are cut off are over, all of them.** -/
theorem running_cutOff (hn : w.Numbered) : w.cutOff.running = [] := by
  refine List.filter_eq_nil_iff.mpr fun c hc => ?_
  have hclosed := closed_cuts w.connections w hn.ascending (fun _ hc => hc) (fun _ hc hnot => absurd hc hnot) c hc
  rw [hclosed]
  exact Bool.false_ne_true

/-- All have ended by themselves, or those who have not are ended. -/
def Drained (u v : World) : Prop := (v = u ∧ u.running = []) ∨ v = u.cutOff

/-- Nothing is taken up. -/
structure Vacant (w : World) : Prop where
  running : w.running = []
  ids : w.pool.roster.ids = []
  seats : w.pool.seats = 0
  addresses : ∀ ip, w.pool.admission.connectionsFrom ip = 0

theorem Booked.vacant (h : w.Booked) (hnone : w.running = []) : w.Vacant := by
  have hguests : w.guests = [] := by rw [guests_eq, hnone, List.map_nil]
  have hbooks := h.books
  rw [hguests] at hbooks
  refine ⟨hnone, hbooks.ids, hbooks.seats, fun ip => ?_⟩
  rw [hbooks.counted]
  split
  · rfl
  · rfl

/-! ## Conservation -/

/-- What is taken up is what the running connections take up, and no more than there is. -/
structure Conserved (settings : Settings) (w : World) : Prop where
  ids : w.pool.roster.ids = w.running.map (·.id)
  distinct : (w.running.map (·.id)).Nodup
  seats : w.pool.seats = w.running.length
  room : w.pool.seats ≤ settings.maxClients
  addresses : ∀ ip, settings.policy.enabled = true → ip ∉ settings.policy.trusted →
    w.pool.admission.connectionsFrom ip = w.running.countP (·.peer.ip = ip)
      ∧ w.pool.admission.connectionsFrom ip ≤ settings.policy.maxConnectionsPerIp

theorem Sound.conserved (h : w.Sound settings) : w.Conserved settings := by
  have hids : w.guests.map (·.1) = w.running.map (·.id) := by
    rw [guests_eq, List.map_map]
    rfl
  have hbooks := h.books
  refine ⟨hbooks.ids.trans hids, ?_, ?_, h.room, fun ip henabled htrusted => ⟨?_, ?_⟩⟩
  case refine_1 =>
    rw [← hids]
    exact h.numbered.nodup_guests
  case refine_2 => rw [hbooks.seats, guests_eq, List.length_map]
  case refine_3 =>
    have happlies : w.pool.admission.appliesTo ip = true := by
      rw [Admission.appliesTo, hbooks.limits, h.configured, henabled]
      simpa using htrusted
    rw [hbooks.counted, if_pos happlies, guests_eq, List.map_map, List.count, List.countP_map]
    rfl
  case refine_4 =>
    have hcap := hbooks.capped ip
    rw [h.configured] at hcap
    exact hcap

/--
**Connections give back what they took.**

At every point the roster, the seats and the counts of the addresses are those of the running connections, and
there are no more of them than there may be. Whoever is refused, for whatever reason, changes nothing of this, and
whoever is let in takes no one's place. After a shutdown nothing is left.
-/
theorem connections_conserved (h : Reached settings w) :
    w.Conserved settings
      ∧ (∀ source peer room why w', w.accept source peer room = (.error why, w') → w.Unmoved w')
      ∧ (∀ peer room id w', w.ask peer room = (.ok id, w') →
          id ∉ w.pool.roster.ids ∧ ∃ e, w'.pool.roster.entries = w.pool.roster.entries ++ [(id, e)])
      ∧ ∀ source u v, Goes (w.shutdown source) u → Drained u v → v.Vacant := by
  have hsound := sound_reached h
  refine ⟨hsound.conserved, ?_, fun _ _ _ _ hask => hsound.toBooked.entries_ask hask, ?_⟩
  case refine_1 =>
    intro source peer room why w' haccept
    rw [accept_eq_ask] at haccept
    rcases hask : w.ask peer room with ⟨answer, v⟩
    rw [hask] at haccept
    cases answer with
    | ok id => simp at haccept
    | error reason =>
        simp only [Prod.mk.injEq, Except.error.injEq] at haccept
        obtain ⟨rfl, rfl⟩ := haccept
        exact hsound.toBooked.unmoved hask
  case refine_2 =>
    intro source u v hgoes hdrained
    have hshut := sound_goes (goes_shutdown source hsound.numbered) hsound
    have hu := sound_goes hgoes hshut
    rcases hdrained with ⟨rfl, hnone⟩ | rfl
    · exact hu.toBooked.vacant hnone
    · have hv := sound_goes (goes_cutOff hu.numbered) hu
      exact hv.toBooked.vacant (running_cutOff hu.numbered)

/-- With one seat, the first client takes it, the second one is refused, and in the end the seat is free again. -/
theorem connections_conserved_one_seat :
    let settings : Settings := { Settings.standard with maxClients := 1 }
    let source : Source := ⟨fun _ => .ok default, fun _ => .ok true⟩
    let first : Socket := ⟨.v4 1, 50001⟩
    let second : Socket := ⟨.v4 2, 50002⟩
    let w := ((fresh settings false).ask first none).2
    Reached settings w ∧ w.pool.roster.ids = [1] ∧ w.pool.seats = 1 ∧ w.Conserved settings
      ∧ (∃ w', w.accept source second none = (.error .full, w') ∧ w.Unmoved w')
      ∧ (w.shutdown source).cutOff.Vacant := by
  intro settings source first second w
  have hreached : Reached settings w := ⟨false, .single (.asks first none)⟩
  obtain ⟨hconserved, hrefused, _, hend⟩ := connections_conserved hreached
  refine ⟨hreached, rfl, rfl, hconserved, ⟨_, rfl, ?_⟩, hend source _ _ .refl (.inr rfl)⟩
  exact hrefused source second none .full _ rfl

end World
end MiningPool

import MiningPool.Proofs.Connection.Patience
import MiningPool.Proofs.World.Moves

/-!
# The events of a run as moves

Settling is taking turns, in one order of many, and each event is a few moves and then settling. So a run is
a chain of moves, and its only bytes are those that it sent.

Sending is the one event that needs an argument. It looks whether a connection is over, but not whether its
miner is there at all. A world is `Tidy` if nobody stays connected whose miner is gone, and settling tidies up,
since a connection whose miner is gone never waits.
-/

namespace MiningPool

open Net Wire

/-! ## The turns of one connection -/

namespace Connection

variable {source : Source} {now : Instant}

theorem id_turns (source : Source) (now : Instant) : ∀ (n : Nat) (p : Pool) (c : Connection)
    (handed : List Share), (c.turns source now n p handed).1.id = c.id := by
  intro n
  induction n with
  | zero => intro p c handed; rfl
  | succ n ih =>
      intro p c handed
      have hkept := kept_turn (turn_takes source now p c)
      rw [turns]
      cases ht : c.turn source now p with
      | waits c' => rw [ht] at hkept; exact hkept.id
      | acts progress =>
          rw [ht] at hkept
          exact (ih progress.pool progress.connection _).trans hkept.id

theorem id_run (source : Source) (now : Instant) (p : Pool) (c : Connection) :
    (c.run source now p).1.id = c.id := id_turns source now _ p c []

/-- A connection that waits has its miner, or is over. -/
theorem isOpen_of_waits {p : Pool} {c c' : Connection} {ds : List Deed}
    (h : Takes source now p c ds (.waits c')) (hgone : c'.client.gone = true) : c'.isOpen = false := by
  cases h with
  | stays hp => rw [isOpen, hp]
  | writes hp hg hw hr =>
      have hkept := (Client.keptBy_write hw).gone
      exact absurd (hg.symm.trans (hkept.symm.trans hgone)) (by simp)
  | @waits f hl hn he hd =>
      have hboth := (Bool.or_eq_false_iff.mp he).2
      exact absurd (hboth.symm.trans hgone) (by simp)

/-- After its turns a connection has its miner, or is over. -/
theorem isOpen_of_run {p : Pool} {c : Connection} (h : (c.run source now p).1.client.gone = true) :
    (c.run source now p).1.isOpen = false := by
  obtain ⟨_, _, _, hwaits⟩ := waits_of_run source now p c
  exact isOpen_of_waits hwaits h

end Connection

namespace World

variable {w w' : World} {c d : Connection} {source : Source}

/-- The turns of one connection are turns of the world. -/
theorem turns_of_turns (source : Source) (before : List Share) : ∀ (n : Nat) (w : World) (c : Connection)
    (shares : List Share), w.Numbered → c ∈ w.connections → w.handed = before ++ shares →
      ∃ h, Turns source w h { w.replace (c.turns source w.now n w.pool shares).1 with
        pool := (c.turns source w.now n w.pool shares).2.1
        handed := before ++ (c.turns source w.now n w.pool shares).2.2 } := by
  intro n
  induction n with
  | zero =>
      intro w c shares hn hc hhanded
      refine ⟨[], ?_⟩
      rw [Connection.turns]
      dsimp only
      rw [hn.replace_of_mem hc, ← hhanded]
      exact .refl
  | succ n ih =>
      intro w c shares hn hc hhanded
      have hkept := Connection.kept_turn (Connection.turn_takes source w.now w.pool c)
      have hfirst : TakesTurn source w _ (w.took (c.turn source w.now w.pool)) := .turn hc
      rw [Connection.turns]
      cases ht : c.turn source w.now w.pool with
      | waits c' =>
          -- a turn that waits hands nothing on
          have hnone : w.handed ++ (Turn.waits c').handed.toList = before ++ shares :=
            (List.append_nil _).trans hhanded
          rw [ht, took, hnone] at hfirst
          exact ⟨_, .single hfirst⟩
      | acts progress =>
          rw [ht] at hkept hfirst
          have hid : c.id = progress.connection.id := hkept.id.symm
          have hmem : progress.connection ∈ (w.took (.acts progress)).connections :=
            mem_replace_self hc hid
          have hmore : (w.took (.acts progress)).handed = before ++ (shares ++ progress.handed.toList) := by
            rw [← List.append_assoc, ← hhanded]
            rfl
          obtain ⟨h, hrest⟩ := ih (w.took (.acts progress)) progress.connection _
            (numbered_takesTurn hfirst hn) hmem hmore
          have hlast := Connection.id_turns source w.now n progress.pool progress.connection
            (shares ++ progress.handed.toList)
          -- later turns replace what the first one put down
          have htwice := congrArg
            (fun v : World =>
              { v with pool := progress.pool, handed := w.handed ++ progress.handed.toList })
            (replace_replace (w := w) hlast.symm)
          have hsame : (w.took (.acts progress)).replace _ = _ := htwice
          dsimp only at hrest ⊢
          exact ⟨_, (Chain.single hfirst).trans (hsame ▸ hrest)⟩

/-! ## Settling -/

/-- The world after a connection took turns until it had to wait. -/
def ran (source : Source) (w : World) (c : Connection) : World :=
  { w.replace (c.run source w.now w.pool).1 with
    pool := (c.run source w.now w.pool).2.1
    handed := w.handed ++ (c.run source w.now w.pool).2.2 }

theorem ran_turns (source : Source) (hn : w.Numbered) (hc : c ∈ w.connections) :
    ∃ h, Turns source w h (w.ran source c) :=
  turns_of_turns source w.handed _ w c [] hn hc (List.append_nil _).symm

section Settling

variable {I : World → Prop} {P : Connection → Prop}

/-- Taking turns one after the other. What holds of whoever has just had its turns, and of all that are not to have
any, holds of all in the end. -/
theorem turns_of_foldl (source : Source) (hI : ∀ {v as v'}, TakesTurn source v as v' → I v → I v')
    (hP : ∀ {v c}, I v → c ∈ v.connections → P (c.run source v.now v.pool).1) :
    ∀ (cs : List Connection) (w : World), w.Numbered → I w → cs.Pairwise (fun c d => c.id < d.id) →
      (∀ c ∈ cs, c ∈ w.connections) → (∀ c ∈ w.connections, c ∉ cs → P c) →
      ∃ h, Turns source w h (cs.foldl (ran source) w) ∧ ∀ c ∈ (cs.foldl (ran source) w).connections, P c := by
  intro cs
  induction cs with
  | nil =>
      intro w _ _ _ _ hothers
      exact ⟨[], .refl, fun c hc => hothers c hc List.not_mem_nil⟩
  | cons c cs ih =>
      intro w hn hw hcs hmem hothers
      obtain ⟨hlt, hrest⟩ := List.pairwise_cons.mp hcs
      have hc := hmem c List.mem_cons_self
      have hid := Connection.id_run source w.now w.pool c
      obtain ⟨h, hturns⟩ := ran_turns source hn hc
      have hn' : (w.ran source c).Numbered := hturns.preserves numbered_takesTurn hn
      have hmem' : ∀ d ∈ cs, d ∈ (w.ran source c).connections := by
        intro d hd
        refine mem_replace_of_ne (hmem d (List.mem_cons_of_mem c hd)) ?_
        rw [hid]
        exact (Nat.ne_of_lt (hlt d hd)).symm
      have hothers' : ∀ d ∈ (w.ran source c).connections, d ∉ cs → P d := by
        intro d hd hnot
        rcases mem_replace hd with rfl | ⟨hold, hne⟩
        · exact hP hw hc
        · refine hothers d hold fun hin => ?_
          rcases List.mem_cons.mp hin with rfl | hin
          · exact hne hid.symm
          · exact hnot hin
      obtain ⟨k, hmore, hend⟩ := ih (w.ran source c) hn' (hturns.preserves hI hw) hrest hmem' hothers'
      exact ⟨_, hturns.trans hmore, hend⟩

theorem pass_turns (source : Source) (hI : ∀ {v as v'}, TakesTurn source v as v' → I v → I v')
    (hP : ∀ {v c}, I v → c ∈ v.connections → P (c.run source v.now v.pool).1) (hn : w.Numbered) (hw : I w) :
    ∃ h, Turns source w h (w.pass source) ∧ ∀ c ∈ (w.pass source).connections, P c :=
  turns_of_foldl source hI hP w.connections w hn hw hn.ascending (fun _ hc => hc)
    (fun _ hc hnot => absurd hc hnot)

/-- **Settling is taking turns**, and in the end there holds of all what holds of whoever has had its turns. -/
theorem turns_of_settle (source : Source) (hI : ∀ {v as v'}, TakesTurn source v as v' → I v → I v')
    (hP : ∀ {v c}, I v → c ∈ v.connections → P (c.run source v.now v.pool).1) (hn : w.Numbered) (hw : I w) :
    ∃ h, Turns source w h (w.settle source) ∧ ∀ c ∈ (w.settle source).connections, P c := by
  rw [settle, List.range_succ, List.foldl_append]
  -- all passes are turns, and the last one is enough
  have hpasses : ∀ (is : List Nat) (v : World), v.Numbered → I v →
      ∃ h, Turns source v h (is.foldl (fun w _ => w.pass source) v) := by
    intro is
    induction is with
    | nil => intro v _ _; exact ⟨[], .refl⟩
    | cons i is ih =>
        intro v hv hiv
        obtain ⟨h, hfirst, _⟩ := pass_turns source hI hP hv hiv
        obtain ⟨k, hmore⟩ := ih (v.pass source) (hfirst.preserves numbered_takesTurn hv) (hfirst.preserves hI hiv)
        exact ⟨_, hfirst.trans hmore⟩
  obtain ⟨h, hmost⟩ := hpasses (List.range w.connections.length) w hn hw
  obtain ⟨k, hlast, hend⟩ :=
    pass_turns source hI hP (hmost.preserves numbered_takesTurn hn) (hmost.preserves hI hw)
  exact ⟨_, hmost.trans hlast, hend⟩

end Settling

/-- Nobody stays connected whose miner is gone. -/
def Tidy (w : World) : Prop := ∀ c ∈ w.connections, c.client.gone = true → c.isOpen = false

/-- **Settling tidies up.** -/
theorem settle_turns (source : Source) (hn : w.Numbered) :
    ∃ h, Turns source w h (w.settle source) ∧ (w.settle source).Tidy :=
  turns_of_settle (I := fun _ => True) source (fun _ _ => trivial) (fun _ _ => Connection.isOpen_of_run) hn trivial

/-! ## Events without a word from a miner -/

theorem streamOf_turns {h : List Act} (hturns : Turns source w h w') (id : Nat) : streamOf h id = [] := by
  induction hturns with
  | refl => rfl
  | tail _ hstep ih =>
      obtain ⟨hc⟩ := hstep
      rw [streamOf_append, ih]
      rfl

theorem now_turns {h : List Act} (hturns : Turns source w h w') : w'.now = w.now := by
  induction hturns with
  | refl => rfl
  | tail _ hstep ih =>
      obtain ⟨hc⟩ := hstep
      exact ih

theorem moves_of_turns {h : List Act} (hturns : Turns source w h w') : Moves w h w' :=
  hturns.mono fun hstep => .turn source hstep

theorem now_settle (source : Source) (hn : w.Numbered) : (w.settle source).now = w.now := by
  obtain ⟨h, hturns, _⟩ := settle_turns source hn
  exact now_turns hturns

/-- One world comes of another by moves, and no miner sends anything. -/
def Wordless (w w' : World) : Prop := ∃ h, Moves w h w' ∧ ∀ id, streamOf h id = []

theorem Wordless.refl (w : World) : Wordless w w := ⟨[], .refl, fun _ => rfl⟩

theorem Wordless.trans {u : World} (h₁ : Wordless u w) (h₂ : Wordless w w') : Wordless u w' := by
  obtain ⟨h, hmoves, hnone⟩ := h₁
  obtain ⟨k, kmoves, knone⟩ := h₂
  refine ⟨h ++ k, hmoves.trans kmoves, fun id => ?_⟩
  rw [streamOf_append, hnone, knone]
  rfl

theorem Wordless.numbered (h : Wordless w w') (hn : w.Numbered) : w'.Numbered := by
  obtain ⟨k, hmoves, _⟩ := h
  exact hmoves.preserves numbered_move hn

theorem wordless_of_move (h : Move w [] w') : Wordless w w' := ⟨[], .single h, fun _ => rfl⟩

/-- Something that happens to the numbered and tidy and leaves them so, without a word from any miner. -/
structure Quietly (w w' : World) : Prop where
  wordless : w.Numbered → Wordless w w'
  tidy : w.Numbered → w.Tidy → w'.Tidy

theorem Quietly.refl (w : World) : Quietly w w := ⟨fun _ => .refl w, fun _ h => h⟩

theorem Quietly.trans {u : World} (h₁ : Quietly u w) (h₂ : Quietly w w') : Quietly u w' where
  wordless := fun hn => (h₁.wordless hn).trans (h₂.wordless ((h₁.wordless hn).numbered hn))
  tidy := fun hn ht => h₂.tidy ((h₁.wordless hn).numbered hn) (h₁.tidy hn ht)

theorem quietly_settled (source : Source) (h : Wordless w w') : Quietly w (w'.settle source) where
  wordless := by
    intro hn
    obtain ⟨k, hturns, _⟩ := settle_turns source (h.numbered hn)
    exact h.trans ⟨k, moves_of_turns hturns, streamOf_turns hturns⟩
  tidy := by
    intro hn _
    obtain ⟨_, _, htidy⟩ := settle_turns source (h.numbered hn)
    exact htidy

theorem quietly_meanwhile {p : Pool} (h : Pool.Meanwhile w.now w.pool p) : Quietly w { w with pool := p } :=
  ⟨fun _ => wordless_of_move (.meanwhile h), fun _ ht => ht⟩

theorem quietly_passes {now : Instant} (nextRound nextSweep : Option Instant) (h : w.now ≤ now) :
    Quietly w { w with now := now, nextRound := nextRound, nextSweep := nextSweep } :=
  ⟨fun _ => wordless_of_move (.passes nextRound nextSweep h), fun _ ht => ht⟩

/-! ### Coming and going -/

theorem quietly_connect (source : Source) (w : World) (peer : Socket) (room limit : Option Nat) :
    Quietly w (w.connect source peer room limit).2 := by
  unfold connect
  rcases henter : w.pool.enter w.now peer.ip limit with ⟨answer, p⟩
  cases answer with
  | error why => exact quietly_meanwhile (.refused henter)
  | ok id => exact quietly_settled source (wordless_of_move (.admits henter))

theorem quietly_accept (source : Source) (w : World) (peer : Socket) (room : Option Nat) :
    Quietly w (w.accept source peer room).2 := by
  unfold accept
  have hcounted : Quietly w { w with pool := w.pool.count .received } := quietly_meanwhile (.counted _)
  have hconnect := hcounted.trans (quietly_connect source { w with pool := w.pool.count .received } peer
    room (some (w.pool.count .received).settings.maxClients))
  dsimp only at hconnect ⊢
  split
  · rename_i heq
    rw [heq] at hconnect
    exact hconnect.trans (quietly_meanwhile (.counted _))
  · rename_i heq
    rw [heq] at hconnect
    exact hconnect

theorem quietly_change (source : Source) {id : Nat} {f : Connection → Connection}
    (h : ∀ c, w.find? id = some c → Move w [] (w.replace (f c))) : Quietly w (w.change source id f) := by
  unfold change
  split
  · exact .refl w
  · rename_i c hc
    exact quietly_settled source (wordless_of_move (h c hc))

theorem quietly_finish (source : Source) (w : World) (id : Nat) : Quietly w (w.finish source id) :=
  quietly_change source fun _ hc => .finishes (List.mem_of_find?_eq_some hc)

theorem quietly_vanish (source : Source) (w : World) (id : Nat) : Quietly w (w.vanish source id) :=
  quietly_change source fun _ hc => .vanishes (List.mem_of_find?_eq_some hc)

/-- Nothing is on the way to the connection of an id, and nothing will be. -/
def Unblocked (id : Nat) (w : World) : Prop :=
  ∀ d ∈ w.connections, d.id = id → d.client.room = none ∧ d.client.underway = []

theorem unblocked_takesTurn {id : Nat} {as : List Act} (h : TakesTurn source w as w')
    (hw : w.Unblocked id) : w'.Unblocked id := by
  obtain ⟨hc⟩ := h
  rename_i c
  have hkept := Connection.kept_turn (Connection.turn_takes source w.now w.pool c)
  intro d hd hid
  rcases mem_replace hd with rfl | ⟨hold, _⟩
  · obtain ⟨hroom, hway⟩ := hw c hc (hkept.id.symm.trans hid)
    exact ⟨hkept.miner.room.trans hroom, (hkept.miner.underway hroom).trans hway⟩
  · exact hw d hold hid

theorem quietly_read (source : Source) (hn : w.Numbered) (id : Nat) : Quietly w (w.read source id) := by
  unfold read
  split
  · exact .refl w
  · rename_i c hc
    have hmem := List.mem_of_find?_eq_some hc
    let c' : Connection := { c with client := { c.client.takeAll with room := none } }
    have hfirst : w.change source id (fun c => { c with client := { c.client.takeAll with room := none } })
        = (w.replace c').settle source := by
      rw [change, hc]
    have hmove : Move w [] (w.replace c') := .reads none hmem
    have hopen : (w.replace c').Unblocked id := by
      intro d hd hid
      rcases mem_replace hd with rfl | ⟨_, hne⟩
      · exact ⟨rfl, rfl⟩
      · have hcid : c.id = id := by simpa using List.find?_some hc
        exact absurd (hid.trans hcid.symm) hne
    obtain ⟨h, hturns, _⟩ := settle_turns source (numbered_move hmove hn)
    have hstill := hturns.preserves (P := Unblocked id) unblocked_takesTurn hopen
    dsimp only
    rw [hfirst]
    refine (quietly_settled source (wordless_of_move hmove)).trans (quietly_change source fun d hd => ?_)
    have hdid : d.id = id := by simpa using List.find?_some hd
    obtain ⟨hroom, hway⟩ := hstill d (List.mem_of_find?_eq_some hd) hdid
    -- it has taken all that was on the way, so only the room is new
    have htaken : d.client.takeAll = d.client := by
      rw [Client.takeAll, hway, List.append_nil, ← hway]
    have hmove := Move.reads c.client.room (List.mem_of_find?_eq_some hd)
    rw [htaken] at hmove
    exact hmove

theorem quietly_shutdown (source : Source) (w : World) : Quietly w (w.shutdown source) := by
  refine quietly_settled source ((wordless_of_move .stops).trans (wordless_of_move ?_))
  exact .passes none none (Nat.le_refl _)

/-- The world after a connection was cut off, unless it was over. -/
def cut (w : World) (c : Connection) : World :=
  if c.isOpen then
    { w.replace (c.close w.pool none none).connection with pool := (c.close w.pool none none).pool }
  else w

theorem quietly_cut (hc : c ∈ w.connections) : Quietly w (w.cut c) := by
  unfold cut
  split
  · rename_i hopen
    refine ⟨fun _ => ⟨_, .single (.cuts hc hopen), fun _ => rfl⟩, fun _ htidy d hd hgone => ?_⟩
    rcases mem_replace hd with rfl | ⟨hold, _⟩
    · rfl
    · exact htidy d hold hgone
  · exact .refl w

/-- Those who come after one who is cut off are still there. -/
theorem mem_cut {cs : List Connection} (hlt : ∀ d ∈ cs, c.id < d.id)
    (hmem : ∀ d ∈ c :: cs, d ∈ w.connections) : ∀ d ∈ cs, d ∈ (w.cut c).connections := by
  intro d hd
  have hold := hmem d (List.mem_cons_of_mem c hd)
  unfold cut
  split
  · exact mem_replace_of_ne hold (Nat.ne_of_lt (hlt d hd)).symm
  · exact hold

theorem quietly_cuts : ∀ (cs : List Connection) (w : World), cs.Pairwise (fun c d => c.id < d.id) →
    (∀ c ∈ cs, c ∈ w.connections) → Quietly w (cs.foldl cut w) := by
  intro cs
  induction cs with
  | nil => intro w _ _; exact .refl w
  | cons c cs ih =>
      intro w hcs hmem
      obtain ⟨hlt, hrest⟩ := List.pairwise_cons.mp hcs
      exact (quietly_cut (hmem c List.mem_cons_self)).trans (ih (w.cut c) hrest (mem_cut hlt hmem))

theorem quietly_cutOff (hn : w.Numbered) : Quietly w w.cutOff :=
  quietly_cuts w.connections w hn.ascending (fun _ hc => hc)

/-! ### Time -/

theorem quietly_tick (source : Source) (w : World) : Quietly w (w.tick source).2 :=
  quietly_settled source (wordless_of_move (.meanwhile (.ticked source)))

theorem now_tick (source : Source) (hn : w.Numbered) : (w.tick source).2.now = w.now :=
  now_settle source (numbered_move (.meanwhile (.ticked source)) hn)

theorem quietly_roundIfDue (source : Source) (hn : w.Numbered) :
    Quietly w (w.roundIfDue source) ∧ (w.roundIfDue source).now = w.now := by
  unfold roundIfDue
  split
  · have hnow := now_tick source hn
    exact ⟨(quietly_tick source w).trans (quietly_passes _ _ (Nat.le_refl _)), hnow⟩
  · exact ⟨.refl w, rfl⟩

theorem quietly_sweepIfDue (w : World) : Quietly w w.sweepIfDue ∧ w.sweepIfDue.now = w.now := by
  unfold sweepIfDue
  split
  · exact ⟨(quietly_meanwhile .swept).trans (quietly_passes _ _ (Nat.le_refl _)), rfl⟩
  · exact ⟨.refl w, rfl⟩

theorem quietly_meet (source : Source) (hn : w.Numbered) {t : Instant} (ht : w.now ≤ t) :
    Quietly w (w.meet source t) ∧ (w.meet source t).now = t := by
  have hlater : Quietly w { w with now := t } := quietly_passes w.nextRound w.nextSweep ht
  have hn₁ : Numbered { w with now := t } := (hlater.wordless hn).numbered hn
  obtain ⟨hround, hnow₁⟩ := quietly_roundIfDue source hn₁
  obtain ⟨hsweep, hnow₂⟩ := quietly_sweepIfDue (roundIfDue source { w with now := t })
  have hdone := (hlater.trans hround).trans hsweep
  constructor
  · exact hdone.trans (quietly_settled source (.refl _))
  · exact (now_settle source ((hdone.wordless hn).numbered hn)).trans (hnow₂.trans hnow₁)

theorem with_now {t : Instant} (h : w.now = t) : { w with now := t } = w := by
  subst h
  rfl

theorem quietly_advanceTo (source : Source) (hn : w.Numbered) (t : Instant) :
    Quietly w (w.advanceTo source t) := by
  have hmax : ∀ v : World, Quietly v { v with now := max v.now t } :=
    fun v => quietly_passes v.nextRound v.nextSweep (Nat.le_max_left _ _)
  induction w using advanceTo.induct source t with
  | case1 w hnone =>
      rw [advanceTo, hnone]
      exact hmax w
  | case2 w d hsome hd ih =>
      obtain ⟨hmeet, hnow⟩ := quietly_meet source hn (Nat.le_of_lt hd.1)
      rw [with_now hnow] at ih
      rw [advanceTo, hsome]
      dsimp only
      rw [if_pos hd, with_now hnow]
      exact hmeet.trans (ih ((hmeet.wordless hn).numbered hn))
  | case3 w d hsome hd =>
      rw [advanceTo, hsome]
      dsimp only
      rw [if_neg hd]
      exact hmax w

/-! ## Events and runs -/

/-- The bytes of an event that arrive at a connection. -/
def sent (w : World) (source : Source) : Event → Nat → Bytes
  | .send id bs, k => if k = id ∧ (w.send source id bs).1 = true then bs else []
  | _, _ => []

/-- The bytes of a run that arrive at a connection. -/
def stream (w : World) : List (Source × Event) → Nat → Bytes
  | [], _ => []
  | (source, e) :: rest, id => w.sent source e id ++ (w.step source e).stream rest id

/-- What is sent arrives, if it is said to get through. -/
theorem send_moves (source : Source) (hn : w.Numbered) (htidy : w.Tidy) (id : Nat) (bs : Bytes) :
    (∃ h, Moves w h (w.send source id bs).2
      ∧ ∀ k, streamOf h k = if k = id ∧ (w.send source id bs).1 = true then bs else [])
      ∧ (w.send source id bs).2.Tidy := by
  have hnothing : ∀ {b : Bool}, (b = true → bs = []) →
      ∃ h, Moves w h w ∧ ∀ k, streamOf h k = if k = id ∧ b = true then bs else [] := by
    intro b hb
    refine ⟨[], .refl, fun k => ?_⟩
    split
    · rename_i hk
      exact (hb hk.2).symm
    · rfl
  unfold send
  split
  · exact ⟨hnothing (by simp), htidy⟩
  · rename_i c hc
    have hid : c.id = id := by simpa using List.find?_some hc
    have hmem := List.mem_of_find?_eq_some hc
    split
    · rename_i hempty
      exact ⟨hnothing fun _ => List.isEmpty_iff.mp hempty, htidy⟩
    · split
      · rename_i hopen
        obtain ⟨hopen, hfinished⟩ := Bool.and_eq_true_iff.mp hopen
        -- it is open, so its miner is there
        have hgone : c.client.gone = false := by
          cases hg : c.client.gone with
          | false => rfl
          | true => exact absurd (hopen.symm.trans (htidy c hmem hg)) (by simp)
        have hover : c.inputOver = false := by
          rw [Connection.inputOver, hgone, Bool.or_false]
          simpa using hfinished
        have hmove : Move w [.arrived c.id bs] (w.replace { c with framer := c.framer.feed bs }) :=
          .arrives bs hmem hover
        obtain ⟨h, hturns, hend⟩ := settle_turns source (numbered_move hmove hn)
        have hchange : w.change source id (fun c => { c with framer := c.framer.feed bs })
            = (w.replace { c with framer := c.framer.feed bs }).settle source := by
          rw [change, hc]
        dsimp only
        rw [hchange]
        refine ⟨⟨_, (Chain.single hmove).trans (moves_of_turns hturns), fun k => ?_⟩, hend⟩
        rw [streamOf_append, streamOf_turns hturns, List.append_nil, hid]
        by_cases hk : k = id
        · rw [hk, streamOf_self, if_pos ⟨rfl, rfl⟩]
        · rw [streamOf_of_ne (Ne.symm hk), if_neg (fun hboth => hk hboth.1)]
      · exact ⟨hnothing (by simp), htidy⟩

/-- **An event is a few moves.** -/
theorem step_moves (source : Source) (hn : w.Numbered) (htidy : w.Tidy) (e : Event) :
    (∃ h, Moves w h (w.step source e) ∧ ∀ id, streamOf h id = w.sent source e id)
      ∧ (w.step source e).Tidy := by
  have hquiet : ∀ {v : World}, Quietly w v → Wordless w v ∧ v.Tidy :=
    fun h => ⟨h.wordless hn, h.tidy hn htidy⟩
  cases e with
  | connect peer room limit => exact hquiet (quietly_connect source w peer room limit)
  | accept peer room => exact hquiet (quietly_accept source w peer room)
  | send id bs => exact send_moves source hn htidy id bs
  | finish id => exact hquiet (quietly_finish source w id)
  | vanish id => exact hquiet (quietly_vanish source w id)
  | read id => exact hquiet (quietly_read source hn id)
  | push id m => exact hquiet (quietly_settled source (wordless_of_move (.meanwhile (.pushed id m))))
  | kill id => exact hquiet (quietly_settled source (wordless_of_move (.meanwhile (.killed id))))
  | ban ip => exact hquiet (quietly_settled source (wordless_of_move (.meanwhile (.banned ip))))
  | askBanned ip => exact hquiet (quietly_meanwhile (.asked ip))
  | sweep => exact hquiet (quietly_meanwhile .swept)
  | tick => exact hquiet (quietly_tick source w)
  | mint => exact hquiet (quietly_meanwhile (.minted source))
  | skipSessions last => exact hquiet (quietly_meanwhile (.skipped last))
  | advance span => exact hquiet (quietly_advanceTo source hn _)
  | shutdown => exact hquiet (quietly_shutdown source w)
  | cutOff => exact hquiet (quietly_cutOff hn)

/-- **A run is a chain of moves, and the bytes that arrive are those that it sent.** -/
theorem run_moves : ∀ (events : List (Source × Event)) (w : World), w.Numbered → w.Tidy →
    ∃ h, Moves w h (w.run events) ∧ ∀ id, streamOf h id = w.stream events id := by
  intro events
  induction events with
  | nil => intro w _ _; exact ⟨[], .refl, fun _ => rfl⟩
  | cons event rest ih =>
      intro w hn htidy
      obtain ⟨source, e⟩ := event
      obtain ⟨⟨h, hmoves, hsent⟩, htidy'⟩ := step_moves source hn htidy e
      obtain ⟨k, hmore, hstream⟩ := ih (w.step source e) (hmoves.preserves numbered_move hn) htidy'
      refine ⟨h ++ k, hmoves.trans hmore, fun id => ?_⟩
      rw [streamOf_append, hsent, hstream, stream]

end World
end MiningPool

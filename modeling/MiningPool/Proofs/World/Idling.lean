import MiningPool.Proofs.Wire.Unheard
import MiningPool.Proofs.World.Bans
import MiningPool.Proofs.World.Script
import MiningPool.Proofs.World.Shares

/-!
# Closing for want of a word

A connection is closed as idle when its deadline has passed. The deadline is put off when a line comes to something, a
request or a fault, and at no other time: not by a message that is written to the miner, and not by a line that comes to
nothing. So from when a connection is closed as idle one may look back as far as the timeout: nothing was heard in that
time, and the lines that ended in it are blank, or are the rest of one that was too large before (`idle_close`). That
does not make them no lines: a miner that sends nothing but blank lines is closed as idle
(`closed_as_idle_after_a_blank_line`).

`Since` is what becomes of each connection in a stretch of moves, and of its deadline. The other direction is about
runs, where everyone takes turns until all have to wait: then whoever is past its deadline is held up by a write that
does not go through, or is over (`Prompt`).
-/

namespace MiningPool

open Net Wire

/-! ## Deadlines -/

namespace Connection

open World (Act deedsOf)

/-- Only what is heard puts off the deadline. -/
theorem deadline_turn {source : Source} {now : Instant} {p : Pool} {c : Connection} {ds : List Deed} {t : Turn}
    (h : Takes source now p c ds t) :
    heard ds = [] ∧ t.connection.deadline = c.deadline
      ∨ heard ds ≠ [] ∧ t.connection.deadline = now + p.settings.mining.idleTimeout := by
  cases h with
  | serves hl hn ho => exact .inr ⟨List.cons_ne_nil _ _, rfl⟩
  | refuses hl hn hv => exact .inr ⟨List.cons_ne_nil _ _, rfl⟩
  | drops hl hn hf hv => exact .inr ⟨List.cons_ne_nil _ _, rfl⟩
  | bans hl hn hv => exact .inr ⟨List.cons_ne_nil _ _, rfl⟩
  | _ => exact .inl ⟨rfl, rfl⟩

/-- What becomes of a connection from some instant on: a miner that is done sending stays so, and the deadline is the
same, unless something was heard; then it is as far away as the timeout, or farther. -/
structure Since (now timeout : Nat) (acts : List Act) (c d : Connection) : Prop where
  id : d.id = c.id
  inputOver : c.inputOver = true → d.inputOver = true
  deadline : heard (deedsOf acts c.id) = [] ∧ d.deadline = c.deadline
    ∨ heard (deedsOf acts c.id) ≠ [] ∧ now + timeout ≤ d.deadline

/-- Whoever is closed as idle has been asked for a line and has none, and its deadline has passed. -/
theorem silent_of_idle {source : Source} {now : Instant} {p : Pool} {c : Connection} {ds : List Deed} {t : Turn}
    (h : Takes source now p c ds t) (hidle : .ended .idle ∈ ds) :
    ∃ f, c.nextLine p = (none, f) ∧ c.inputOver = false ∧ c.deadline ≤ now := by
  cases h with
  | idles hl hn he hd => exact ⟨_, hn, he, hd⟩
  | _ => exact absurd hidle (by simp)

variable {now later timeout : Nat} {h k : List Act} {c d e : Connection}

theorem Since.of_silent (hid : d.id = c.id) (hinput : c.inputOver = true → d.inputOver = true)
    (hdeadline : d.deadline = c.deadline) (hsilent : heard (deedsOf h c.id) = []) : Since now timeout h c d :=
  ⟨hid, hinput, .inl ⟨hsilent, hdeadline⟩⟩

theorem Since.trans (hle : now ≤ later) (hcd : Since now timeout h c d) (hde : Since later timeout k d e) :
    Since now timeout (h ++ k) c e := by
  refine ⟨hde.id.trans hcd.id, fun hc => hde.inputOver (hcd.inputOver hc), ?_⟩
  rw [World.deedsOf_append, heard_append]
  have hlast := hde.deadline
  rw [hcd.id] at hlast
  rcases hlast with ⟨hk, hsame⟩ | ⟨hk, hlater⟩
  · rw [hk, List.append_nil, hsame]
    exact hcd.deadline
  · exact .inr ⟨List.append_ne_nil_of_right_ne_nil _ hk, Nat.le_trans (Nat.add_le_add_right hle timeout) hlater⟩

end Connection

namespace World

open Connection

variable {settings : Settings} {tasks : Bool} {source : Source} {u v w w' : World} {c d : Connection}
  {h k as : List Act}

/-! ## Since an earlier world -/

/-- What becomes of all connections, and of those who are let in. -/
def Since (u : World) (acts : List Act) (v : World) : Prop := ∃ f new,
  v.connections = u.connections.map f ++ new
    ∧ (∀ c ∈ u.connections, Connection.Since u.now u.pool.settings.mining.idleTimeout acts c (f c))
    ∧ ∀ d ∈ new, u.now + u.pool.settings.mining.idleTimeout ≤ d.deadline

theorem since_map {f : Connection → Connection} (hv : v.connections = u.connections.map f)
    (hf : ∀ c ∈ u.connections, Connection.Since u.now u.pool.settings.mining.idleTimeout h c (f c)) : u.Since h v :=
  ⟨f, [], by rw [hv, List.append_nil], hf, fun _ hd => absurd hd List.not_mem_nil⟩

theorem since_of_same (hv : v.connections = u.connections) (hsilent : ∀ id, deedsOf h id = []) : u.Since h v :=
  since_map (f := fun c => c) (by rw [hv, List.map_id']) fun c _ =>
    .of_silent rfl (fun hover => hover) rfl (by rw [hsilent]; rfl)

/-- One connection goes on, and the others are left alone. -/
theorem since_replace (hn : u.Numbered) {c' : Connection} (hc : c ∈ u.connections)
    (hv : v.connections = (u.replace c').connections) (hid : c'.id = c.id)
    (hothers : ∀ d ∈ u.connections, d.id ≠ c.id → deedsOf h d.id = [])
    (hgoes : Connection.Since u.now u.pool.settings.mining.idleTimeout h c c') : u.Since h v := by
  refine since_map hv fun d hd => ?_
  split
  · rename_i hsame
    rw [hn.eq_of_id hc hd (hsame.trans hid)]
    exact hgoes
  · rename_i hne
    rw [hid] at hne
    exact .of_silent rfl (fun hover => hover) rfl (by rw [hothers d hd hne]; rfl)

/-- **Every move leaves the deadlines as they are, but for what is heard in it.** -/
theorem since_move (hmove : Move w as w') (hn : w.Numbered) : w.Since as w' := by
  cases hmove with
  | turn source hturn =>
      obtain ⟨hc⟩ := hturn
      rename_i c
      have htakes := turn_takes source w.now w.pool c
      have hkept := kept_turn htakes
      refine since_replace hn hc rfl hkept.id (fun d _ hne => deedsOf_of_ne hne.symm _) ⟨hkept.id, ?_, ?_⟩
      · rw [Connection.inputOver, Connection.inputOver, hkept.miner.finished, hkept.miner.gone]
        exact fun hover => hover
      · rw [deedsOf_self]
        exact (deadline_turn htakes).imp_right (And.imp_right Nat.le_of_eq ∘ And.imp_right Eq.symm)
  | arrives bs hc hover =>
      exact since_replace hn hc rfl rfl (fun _ _ _ => rfl) (.of_silent rfl (fun hover => hover) rfl rfl)
  | finishes hc => exact since_replace hn hc rfl rfl (fun _ _ _ => rfl) (.of_silent rfl (fun _ => rfl) rfl rfl)
  | vanishes hc =>
      exact since_replace hn hc rfl rfl (fun _ _ _ => rfl) (.of_silent rfl (fun _ => Bool.or_true _) rfl rfl)
  | reads room hc =>
      exact since_replace hn hc rfl rfl (fun _ _ _ => rfl) (.of_silent rfl (fun hover => hover) rfl rfl)
  | stops => exact since_map rfl fun c _ => .of_silent rfl (fun hover => hover) rfl rfl
  | @cuts c hc hopen =>
      refine since_replace hn hc rfl rfl (fun d _ hne => deedsOf_of_ne hne.symm _) ?_
      refine .of_silent rfl (fun hover => hover) rfl ?_
      rw [deedsOf_self]
      rfl
  | @admits peer room limit id p henter =>
      refine ⟨fun c => c, _, by rw [List.map_id'], fun c _ => .of_silent rfl (fun hover => hover) rfl rfl, ?_⟩
      intro d hd
      rw [List.mem_singleton.mp hd, ← (Pool.enter_ok henter).2.2.1]
      exact Nat.le_refl _
  | meanwhile hothers => exact since_of_same rfl fun _ => rfl
  | passes r s hle => exact since_of_same rfl fun _ => rfl

theorem Since.trans (huv : u.Since h v) (hvw : v.Since k w) (hnow : u.now ≤ v.now)
    (hsettings : v.pool.settings = u.pool.settings) : u.Since (h ++ k) w := by
  obtain ⟨f, new, hv, hf, hnew⟩ := huv
  obtain ⟨g, newer, hw, hg, hnewer⟩ := hvw
  rw [hsettings] at hg hnewer
  refine ⟨g ∘ f, new.map g ++ newer, ?_, fun c hc => ?_, fun d hd => ?_⟩
  · rw [hw, hv, List.map_append, List.map_map, List.append_assoc]
  · refine (hf c hc).trans hnow (hg (f c) ?_)
    rw [hv]
    exact List.mem_append_left new (List.mem_map_of_mem hc)
  · have hle := Nat.add_le_add_right hnow u.pool.settings.mining.idleTimeout
    rcases List.mem_append.mp hd with hd | hd
    · obtain ⟨e, he, rfl⟩ := List.mem_map.mp hd
      have hgoes := hg e (by rw [hv]; exact List.mem_append_right _ he)
      rcases hgoes.deadline with ⟨_, hsame⟩ | ⟨_, hlater⟩
      · rw [hsame]
        exact hnew e he
      · exact Nat.le_trans hle hlater
    · exact Nat.le_trans hle (hnewer d hd)

/-- **Moves leave the deadlines as they are, but for what is heard in them.** -/
theorem since_moves (hu : u.Booked) (hmoves : Moves u k v) :
    u.Since k v ∧ u.now ≤ v.now ∧ v.pool.settings = u.pool.settings := by
  induction hmoves with
  | refl => exact ⟨since_of_same rfl fun _ => rfl, Nat.le_refl _, rfl⟩
  | @tail w v k l hearlier hstep ih =>
      obtain ⟨hsince, hnow, hsettings⟩ := ih
      have hw : w.Booked := hearlier.preserves booked_move hu
      exact ⟨hsince.trans (since_move hstep hw.numbered) hnow hsettings, Nat.le_trans hnow (now_move hstep),
        (settings_move hstep hw).trans hsettings⟩

/-- **Before a connection is closed as idle**, for as long as the timeout nothing was heard, and no line ended but blank
ones and the rest of one that was too large already. -/
theorem unheard_before_idle (hbefore : Moves (fresh settings tasks) h u) (hsince : Moves u k v)
    (hc : c ∈ v.connections) (hidle : .ended .idle ∈ deeds source v.now v.pool c)
    (hlate : v.now < u.now + settings.mining.idleTimeout) :
    heard (deedsOf k c.id) = []
      ∧ ∀ line ∈ linesEnded (streamOf h c.id) (streamOf k c.id), trim line = []
        ∨ settings.mining.maxRequestSize < (unended (streamOf h c.id)).length ∧ unended (streamOf h c.id) <+: line := by
  obtain ⟨f, hnext, hover, hdeadline⟩ := silent_of_idle (turn_takes source v.now v.pool c) hidle
  have hfresh := booked_fresh settings tasks
  obtain ⟨_, _, hsettings⟩ := since_moves hfresh hbefore
  obtain ⟨⟨g, new, hv, hg, hnew⟩, _, hkept⟩ := since_moves (hbefore.preserves booked_move hfresh) hsince
  rw [hsettings] at hg hnew
  have hlast : c.deadline < u.now + settings.mining.idleTimeout := Nat.lt_of_le_of_lt hdeadline hlate
  -- whoever has come since has time left
  obtain ⟨b, hb, rfl⟩ : ∃ b ∈ u.connections, g b = c := by
    rw [hv] at hc
    rcases List.mem_append.mp hc with hold | hcame
    · exact List.mem_map.mp hold
    · exact absurd (hnew c hcame) (Nat.not_le_of_lt hlast)
  have hgoes := hg b hb
  have hsilent : heard (deedsOf k b.id) = [] := by
    rcases hgoes.deadline with ⟨hsilent, _⟩ | ⟨_, hlater⟩
    · exact hsilent
    · exact absurd hlater (Nat.not_le_of_lt hlast)
  have hlistens : ¬ b.inputOver = true := fun hb => absurd (hover.symm.trans (hgoes.inputOver hb)) (by simp)
  obtain ⟨_, _, hthen⟩ := faithful_of_moves hbefore hb
  obtain ⟨_, _, hnow⟩ := faithful_of_moves (hbefore.trans hsince) hc
  obtain ⟨_, _, howed, hdry⟩ := nextLine_honest hnow.framer hnext
  have hopen : ¬ (g b).inputOver = true := by rw [hover]; exact Bool.false_ne_true
  have hlimit : limit u.pool = settings.mining.maxRequestSize := by rw [limit, hsettings]; rfl
  have hlimit' : limit v.pool = limit u.pool := by rw [limit, limit, hkept]
  have hdry := hdry rfl
  rw [if_neg hopen, hlimit'] at hdry
  have hseen : ∀ rest, heard (deedsOf h b.id) <+: items (limit u.pool) Request.read? (streamOf h b.id ++ rest) :=
    fun rest => ⟨_, (hthen.heard rest fun hb => absurd hb hlistens).symm⟩
  have hall : ∀ rest, items (limit u.pool) Request.read? (streamOf h b.id ++ streamOf k b.id ++ rest)
      = heard (deedsOf h b.id) ++ Framer.owed (limit u.pool) Request.read? f rest := by
    intro rest
    have hall := hnow.heard rest fun hb => absurd hb hopen
    rw [howed rest fun hb => absurd hb hopen, Option.toList_none, List.nil_append] at hall
    dsimp only [Scene.itemsOf, Connection.owed] at hall
    rwa [hgoes.id, streamOf_append, deedsOf_append, heard_append, hsilent, List.append_nil, hlimit'] at hall
  rw [hgoes.id, ← hlimit]
  exact ⟨hsilent, blank_or_reported hdry hseen hall⟩

/-- **Nothing but what is heard puts off a deadline**, whatever is written to the miner meanwhile. -/
theorem deadline_unheard (hbefore : Moves (fresh settings tasks) h u) (hsince : Moves u k v) (hc : c ∈ u.connections)
    (hd : d ∈ v.connections) (hid : d.id = c.id) (hsilent : heard (deedsOf k c.id) = []) : d.deadline = c.deadline := by
  have hu : u.Booked := hbefore.preserves booked_move (booked_fresh settings tasks)
  obtain ⟨⟨g, new, hv, hg, _⟩, _, _⟩ := since_moves hu hsince
  have hgoes := hg c hc
  have hmem : g c ∈ v.connections := by
    rw [hv]
    exact List.mem_append_left new (List.mem_map_of_mem hc)
  have hbooked : v.Booked := hsince.preserves booked_move hu
  rw [hbooked.numbered.eq_of_id hmem hd (hid.trans hgoes.id.symm)]
  rcases hgoes.deadline with ⟨_, hsame⟩ | ⟨hheard, _⟩
  · exact hsame
  · exact absurd hsilent hheard

/-! ## On time -/

/-- The connections are numbered, and each is over, or held up by a write, or has time left. -/
structure Prompt (w : World) : Prop where
  numbered : w.Numbered
  onTime : ∀ c ∈ w.connections, c.Stopped ∨ c.phase = .waiting ∧ w.now < c.deadline

/-- **When all have had their turns, nobody is late.** -/
theorem prompt_settle (source : Source) (hn : w.Numbered) : (w.settle source).Prompt := by
  have hnow : ∀ {v v' : World} {as : List Act}, TakesTurn source v as v' → v.now = w.now → v'.now = w.now := by
    rintro v v' as ⟨hc⟩ h
    exact h
  have hwaits : ∀ {v : World} {c : Connection}, v.now = w.now → c ∈ v.connections →
      (c.run source v.now v.pool).1.Stopped
        ∨ (c.run source v.now v.pool).1.phase = .waiting ∧ w.now < (c.run source v.now v.pool).1.deadline := by
    intro v c h _
    rw [h]
    obtain ⟨q, d, ds, htakes⟩ := waits_of_run source w.now v.pool c
    generalize (c.run source w.now v.pool).1 = c' at htakes
    cases htakes with
    | stays hp => exact .inl (.inl (by rw [isOpen, hp]))
    | writes hp hg hw hr => exact .inl (.inr ⟨_, _, rfl, hr⟩)
    | waits hl hn he hd => exact .inr ⟨hl.phase, hd⟩
  obtain ⟨_, hturns, hend⟩ := turns_of_settle (I := fun v => v.now = w.now)
    (P := fun c => c.Stopped ∨ c.phase = .waiting ∧ w.now < c.deadline) source hnow hwaits hn rfl
  refine ⟨hturns.preserves numbered_takesTurn hn, ?_⟩
  rw [now_settle source hn]
  exact hend

theorem Prompt.of_same (h : w.Prompt) (hconnections : w'.connections = w.connections) (hnow : w'.now = w.now)
    (hlast : w.pool.lastSession ≤ w'.pool.lastSession) : w'.Prompt := by
  refine ⟨h.numbered.of_ids (fun _ _ => rfl) (hconnections.trans (List.map_id _).symm) hlast, ?_⟩
  rw [hconnections, hnow]
  exact h.onTime

theorem prompt_meanwhile {p : Pool} (h : w.Prompt) (hothers : Pool.Meanwhile w.now w.pool p) :
    Prompt { w with pool := p } :=
  h.of_same rfl rfl (Pool.lastSession_meanwhile hothers)

/-- Something that happens to the pool, and then everyone takes turns. -/
theorem prompt_settled {p : Pool} (source : Source) (h : w.Prompt) (hothers : Pool.Meanwhile w.now w.pool p) :
    (settle source { w with pool := p }).Prompt := prompt_settle source (prompt_meanwhile h hothers).numbered

theorem prompt_connect (source : Source) (h : w.Prompt) (peer : Socket) (room limit : Option Nat) :
    (w.connect source peer room limit).2.Prompt := by
  unfold connect
  rcases henter : w.pool.enter w.now peer.ip limit with ⟨answer, p⟩
  cases answer with
  | error why => exact prompt_meanwhile h (.refused henter)
  | ok id => exact prompt_settle source (numbered_move (.admits henter) h.numbered)

theorem prompt_accept (source : Source) (h : w.Prompt) (peer : Socket) (room : Option Nat) :
    (w.accept source peer room).2.Prompt := by
  unfold accept
  have hconnect := prompt_connect source (prompt_meanwhile h (.counted .received)) peer room
    (some (w.pool.count .received).settings.maxClients)
  dsimp only at hconnect ⊢
  split
  · rename_i heq
    rw [heq] at hconnect
    exact prompt_meanwhile hconnect (.counted _)
  · rename_i heq
    rw [heq] at hconnect
    exact hconnect

theorem prompt_change (source : Source) (h : w.Prompt) (id : Nat) (f : Connection → Connection) :
    (w.change source id f).Prompt := by
  unfold change
  split
  · exact h
  · exact prompt_settle source (h.numbered.replace (Nat.le_refl _))

theorem prompt_send (source : Source) (h : w.Prompt) (id : Nat) (bs : Bytes) : (w.send source id bs).2.Prompt := by
  unfold send
  split
  · exact h
  · split
    · exact h
    · split
      · exact prompt_change source h id _
      · exact h

theorem prompt_read (source : Source) (h : w.Prompt) (id : Nat) : (w.read source id).Prompt := by
  unfold read
  split
  · exact h
  · exact prompt_change source (prompt_change source h id _) id _

theorem prompt_cut (h : w.Prompt) (c : Connection) : (w.cut c).Prompt := by
  unfold cut
  split
  · refine ⟨h.numbered.replace (Nat.le_refl _), fun d hd => ?_⟩
    rcases mem_replace hd with rfl | ⟨hold, _⟩
    · exact .inl (.inl rfl)
    · exact h.onTime d hold
  · exact h

theorem prompt_cutOff (h : w.Prompt) : w.cutOff.Prompt := by
  have hcuts : ∀ (cs : List Connection) (v : World), v.Prompt → (cs.foldl cut v).Prompt := by
    intro cs
    induction cs with
    | nil => exact fun _ hv => hv
    | cons c cs ih => exact fun v hv => ih (v.cut c) (prompt_cut hv c)
  exact hcuts w.connections w h

/-! ### Time -/

/-- Time may pass up to the next deadline. -/
theorem prompt_passes (h : w.Prompt) {t : Instant} (hnext : ∀ d ∈ w.nextDeadline?, ¬ (w.now < d ∧ d ≤ t)) :
    Prompt { w with now := max w.now t } := by
  refine ⟨h.numbered.of_ids (fun _ _ => rfl) (List.map_id _).symm (Nat.le_refl _), fun c hc => ?_⟩
  rcases h.onTime c hc with hstopped | ⟨hphase, hdeadline⟩
  · exact .inl hstopped
  refine .inr ⟨hphase, Nat.max_lt.mpr ⟨hdeadline, ?_⟩⟩
  -- its deadline is one of those that are still to come
  have hmem : c.deadline ∈ w.deadlines.filter (w.now < ·) := by
    refine List.mem_filter.mpr ⟨List.mem_append_right _ (List.mem_filterMap.mpr ⟨c, hc, if_pos hphase⟩), ?_⟩
    exact decide_eq_true hdeadline
  cases hd : w.nextDeadline? with
  | none => exact absurd (List.min?_eq_none_iff.mp hd) (List.ne_nil_of_mem hmem)
  | some d =>
      obtain ⟨hin, hleast⟩ := List.min?_eq_some_iff.mp hd
      have hlater : w.now < d := of_decide_eq_true (List.mem_filter.mp hin).2
      have hbeyond : t < d := Nat.lt_of_not_le fun hle => hnext d (by rw [hd]; rfl) ⟨hlater, hle⟩
      exact Nat.lt_of_lt_of_le hbeyond (hleast c.deadline hmem)

theorem prompt_meet (source : Source) (hn : w.Numbered) {t : Instant} (ht : w.now ≤ t) :
    (w.meet source t).Prompt := by
  have hlater : Quietly w { w with now := t } := quietly_passes w.nextRound w.nextSweep ht
  have hn₁ : Numbered { w with now := t } := (hlater.wordless hn).numbered hn
  have hround := (quietly_roundIfDue source hn₁).1
  have hn₂ := (hround.wordless hn₁).numbered hn₁
  have hsweep := (quietly_sweepIfDue (roundIfDue source { w with now := t })).1
  exact prompt_settle source ((hsweep.wordless hn₂).numbered hn₂)

theorem prompt_advanceTo (source : Source) (h : w.Prompt) (t : Instant) : (w.advanceTo source t).Prompt := by
  induction w using advanceTo.induct source t with
  | case1 w hnone =>
      rw [advanceTo, hnone]
      exact prompt_passes h (by rw [hnone]; simp)
  | case2 w d hsome hd ih =>
      have hnow := (quietly_meet source h.numbered (Nat.le_of_lt hd.1)).2
      rw [with_now hnow] at ih
      rw [advanceTo, hsome]
      dsimp only
      rw [if_pos hd, with_now hnow]
      exact ih (prompt_meet source h.numbered (Nat.le_of_lt hd.1))
  | case3 w d hsome hd =>
      rw [advanceTo, hsome]
      dsimp only
      rw [if_neg hd]
      exact prompt_passes h (by rw [hsome]; simpa using hd)

/-- **Every event leaves nobody late.** -/
theorem prompt_step (source : Source) (h : w.Prompt) (e : Event) : (w.step source e).Prompt := by
  cases e with
  | connect peer room limit => exact prompt_connect source h peer room limit
  | accept peer room => exact prompt_accept source h peer room
  | send id bs => exact prompt_send source h id bs
  | finish id => exact prompt_change source h id _
  | vanish id => exact prompt_change source h id _
  | read id => exact prompt_read source h id
  | push id m => exact prompt_settled source h (.pushed id m)
  | kill id => exact prompt_settled source h (.killed id)
  | ban ip => exact prompt_settled source h (.banned ip)
  | askBanned ip => exact prompt_meanwhile h (.asked ip)
  | sweep => exact prompt_meanwhile h .swept
  | tick => exact prompt_settled source h (.ticked source)
  | mint => exact prompt_meanwhile h (.minted source)
  | skipSessions last => exact prompt_meanwhile h (.skipped last)
  | advance span => exact prompt_advanceTo source h _
  | shutdown =>
      exact prompt_settle source
        (h.numbered.of_ids (f := fun c => { c with stopping := true }) (fun _ _ => rfl) rfl (Nat.le_refl _))
  | cutOff => exact prompt_cutOff h

theorem prompt_run (settings : Settings) (tasks : Bool) (events : List (Source × Event)) :
    ((fresh settings tasks).run events).Prompt := by
  induction events using List.reverseRecOn with
  | nil => exact ⟨numbered_fresh settings tasks, fun _ hc => absurd hc List.not_mem_nil⟩
  | append_singleton events e ih =>
      rw [run_append]
      exact prompt_step e.1 ih e.2

/-! ## Closing as idle -/

/--
**A connection is closed as idle only for want of a word, and on time.**

When one is closed as idle, nothing was heard from its miner for as long as the timeout, and each line that ended in
that time is blank, or is the rest of one that had been reported as too large. What is written to the miner does not put
off the deadline, only what is heard does. And after every run whoever is still there has time left, unless a write to
it does not go through.
-/
theorem idle_close :
    (∀ h k u v source, Moves (fresh settings tasks) h u → Moves u k v →
      ∀ c ∈ v.connections, .ended .idle ∈ deeds source v.now v.pool c → v.now < u.now + settings.mining.idleTimeout →
        heard (deedsOf k c.id) = []
          ∧ ∀ line ∈ linesEnded (streamOf h c.id) (streamOf k c.id), trim line = []
            ∨ settings.mining.maxRequestSize < (unended (streamOf h c.id)).length ∧ unended (streamOf h c.id) <+: line)
      ∧ (∀ h k u v, Moves (fresh settings tasks) h u → Moves u k v →
        ∀ c ∈ u.connections, ∀ d ∈ v.connections, d.id = c.id → heard (deedsOf k c.id) = [] → d.deadline = c.deadline)
      ∧ ∀ events, ∀ c ∈ ((fresh settings tasks).run events).connections, c.isOpen = true →
        ((fresh settings tasks).run events).now < c.deadline
          ∨ ∃ left afterwards, c.phase = .writing left afterwards ∧ left ≠ [] := by
  refine ⟨fun h k u v source hbefore hsince c hc hidle hlate => unheard_before_idle hbefore hsince hc hidle hlate,
    fun h k u v hbefore hsince c hc d hd hid hsilent => deadline_unheard hbefore hsince hc hd hid hsilent,
    fun events c hc hopen => ?_⟩
  rcases (prompt_run settings tasks events).onTime c hc with (hclosed | hheld) | ⟨_, hleft⟩
  · exact absurd (hopen.symm.trans hclosed) (by simp)
  · exact .inr hheld
  · exact .inl hleft

theorem moves_later (hmoves : Moves u h v) {t : Instant} (hle : v.now ≤ t) : Moves u h { v with now := t } := by
  have hlater := Chain.tail hmoves (.passes v.nextRound v.nextSweep hle)
  rwa [List.append_nil] at hlater

theorem moves_from_later {t : Instant} (hle : u.now ≤ t) (hmoves : Moves { u with now := t } h v) : Moves u h v :=
  (moves_later .refl hle).trans hmoves

theorem mem_of_any_idle {ds : List Deed} (hany : ds.any (· matches .ended .idle) = true) : .ended .idle ∈ ds := by
  obtain ⟨d, hd, hidle⟩ := List.any_eq_true.mp hany
  split at hidle
  · exact hd
  · exact absurd hidle Bool.false_ne_true

/-- A miner logs in after 100 seconds. Its answer and its job are written only later, and a blank line follows. The miner
is closed as idle when the timeout has passed since the login. -/
theorem idle_close_after_a_login :
    let source : Source := ⟨fun _ => .ok default, fun _ => .ok true⟩
    let login : Request := ⟨.ofNat 7, Method.authorize, .array [.string "wallet.rig"]⟩
    let line : Bytes := Utf8.encodeText "[7,\"mining.authorize\",[\"wallet.rig\"]]" ++ [lineFeed]
    let entered := (fresh .standard false).play source [.enters ⟨.v4 1, 50001⟩ none]
    let asked := play source { entered.2 with now := Span.ofSeconds 100 } [.sends 1 line, .turns 1]
    let early := { asked.2 with now := Span.ofSeconds 101 }
    let quiet := play source { early with now := Span.ofSeconds 200 } [.turns 1, .sends 1 [0x20, lineFeed], .turns 1]
    let late := { quiet.2 with now := Span.ofSeconds 400 }
    Moves (fresh .standard false) (entered.1 ++ asked.1) early ∧ Moves early quiet.1 late
      ∧ heard (deedsOf (entered.1 ++ asked.1) 1) = [.message login]
      ∧ ∃ c ∈ late.connections, c.id = 1 ∧ .ended .idle ∈ deeds source late.now late.pool c
        ∧ c.client.received.count lineFeed = 2
        ∧ linesEnded (streamOf (entered.1 ++ asked.1) c.id) (streamOf quiet.1 c.id) = [[0x20]]
        ∧ heard (deedsOf quiet.1 c.id) = [] := by
  intro source login line entered asked early quiet late
  have hentered : Moves (fresh .standard false) entered.1 entered.2 := moves_play source _ _
  have hasked : Moves entered.2 asked.1 asked.2 := moves_from_later (by decide +kernel) (moves_play source _ _)
  have hbefore : Moves (fresh .standard false) (entered.1 ++ asked.1) early :=
    moves_later (hentered.trans hasked) (by decide +kernel)
  have hquiet : Moves early quiet.1 quiet.2 := moves_from_later (by decide +kernel) (moves_play source _ _)
  have hsince : Moves early quiet.1 late := moves_later hquiet (by decide +kernel)
  obtain ⟨c, hc, hid, hany, hwritten⟩ : ∃ c ∈ late.connections, c.id = 1
      ∧ (deeds source late.now late.pool c).any (· matches .ended .idle) ∧ c.client.received.count lineFeed = 2 := by
    decide +kernel
  have hidle := mem_of_any_idle hany
  have hlate : late.now < early.now + Settings.standard.mining.idleTimeout := by decide +kernel
  have hblank : linesEnded (streamOf (entered.1 ++ asked.1) 1) (streamOf quiet.1 1) = [[0x20]] := by decide +kernel
  exact ⟨hbefore, hsince, by decide +kernel, c, hc, hid, hidle, hwritten, hid ▸ hblank,
    (idle_close.1 _ _ _ _ source hbefore hsince c hc hidle hlate).1⟩

/-- A miner comes in and later sends a line, a blank one. It is closed as idle before the timeout has passed since. -/
theorem closed_as_idle_after_a_blank_line :
    let source : Source := ⟨fun _ => .ok default, fun _ => .ok true⟩
    let entered := (fresh .standard false).play source [.enters ⟨.v4 1, 50001⟩ none]
    let early := { entered.2 with now := Span.ofSeconds 200 }
    let said := early.play source [.sends 1 [lineFeed]]
    let late := { said.2 with now := Span.ofSeconds 300 }
    Moves (fresh .standard false) entered.1 early ∧ Moves early said.1 late
      ∧ late.now < early.now + Settings.standard.mining.idleTimeout
      ∧ linesEnded (streamOf entered.1 1) (streamOf said.1 1) = [[]]
      ∧ ∃ c ∈ late.connections, c.id = 1 ∧ .ended .idle ∈ deeds source late.now late.pool c := by
  intro source entered early said late
  have hbefore : Moves (fresh .standard false) entered.1 early :=
    moves_later (moves_play source _ _) (by decide +kernel)
  have hsince : Moves early said.1 late := moves_later (moves_play source _ _) (by decide +kernel)
  obtain ⟨c, hc, hid, hany⟩ :
      ∃ c ∈ late.connections, c.id = 1 ∧ (deeds source late.now late.pool c).any (· matches .ended .idle) := by
    decide +kernel
  exact ⟨hbefore, hsince, by decide +kernel, by decide +kernel, c, hc, hid, mem_of_any_idle hany⟩

end World
end MiningPool

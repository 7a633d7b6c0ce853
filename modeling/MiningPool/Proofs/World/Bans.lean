import MiningPool.Proofs.World.Calls
import MiningPool.Proofs.World.Guests
import MiningPool.Proofs.World.Transcripts

/-!
# A ban takes effect at once

When an address is banned, all its connections are asked to close, and from then on they do nothing but finish what
they are writing and end: they see to no line and write no message that waits. Until the ban runs out nobody is let
in from there. So no line from the address is seen to, whoever sends it. Connections from elsewhere do not notice.

The first part holds because nobody is ever asked in vain (`Attentive`), the asking is not taken back, and a
connection looks for it before it looks for anything else. The second part is about admission alone.
-/

namespace MiningPool

open Net Wire

/-! ## A connection that has to close -/

namespace Connection

variable {source : Source} {now : Instant} {p : Pool} {c : Connection} {ds : List Deed} {t : Turn}

/-- **A connection that has to close sees to no line and writes no message that waits**, and says nothing else. -/
theorem silent_turn (h : Takes source now p c ds t) (hm : p.roster.mustClose c.id = true) :
    heard ds = [] ∧ forwarded ds = [] ∧ said ds = [] := by
  have hno : ∀ {P : Prop}, c.Attends p → P := fun ha => absurd (hm.symm.trans ha.mustClose) (by simp)
  cases h with
  | forwards ha hm => exact hno ha
  | serves hl hn ho => exact hno hl.toAttends
  | refuses hl hn hv => exact hno hl.toAttends
  | drops hl hn hf hv => exact hno hl.toAttends
  | bans hl hn hv => exact hno hl.toAttends
  | hangsUp hl hn he => exact hno hl.toAttends
  | idles hl hn he hd => exact hno hl.toAttends
  | waits hl hn he hd => exact hno hl.toAttends
  | _ => exact ⟨rfl, rfl, rfl⟩

/-- It is over, or held up by a write. -/
def Stopped (c : Connection) : Prop :=
  c.isOpen = false ∨ ∃ left afterwards, c.phase = .writing left afterwards ∧ left ≠ []

/-- A connection that has to close and waits is stopped. -/
theorem stopped_of_waits {c' : Connection} (h : Takes source now p c ds (.waits c'))
    (hm : p.roster.mustClose c.id = true) : c'.Stopped := by
  cases h with
  | stays hp => exact Or.inl (by rw [isOpen, hp])
  | writes hp hg hw hr => exact Or.inr ⟨_, _, rfl, hr⟩
  | waits hl hn he hd => exact absurd (hm.symm.trans hl.mustClose) (by simp)

/-- After its turns a connection that has to close is stopped. -/
theorem stopped_of_turns (source : Source) (now : Instant) : ∀ (n : Nat) (p : Pool) (c : Connection)
    (handed : List Share), c.effort p < n → p.roster.mustClose c.id = true →
      (c.turns source now n p handed).1.Stopped := by
  intro n
  induction n with
  | zero => intro p c handed hn; exact absurd hn (Nat.not_lt_zero _)
  | succ n ih =>
      intro p c handed hn hm
      have htakes := turn_takes source now p c
      rw [turns]
      cases ht : c.turn source now p with
      | waits c' => rw [ht] at htakes; exact stopped_of_waits htakes hm
      | acts progress =>
          rw [ht] at htakes
          have hlt := effort_lt_of_acts htakes
          have hstays := (stays_turn htakes c.id).mustClose hm
          rw [← (kept_turn htakes).id] at hstays
          exact ih progress.pool progress.connection _ (Nat.lt_of_lt_of_le hlt (Nat.le_of_lt_succ hn)) hstays

theorem stopped_of_run (source : Source) (now : Instant) (hm : p.roster.mustClose c.id = true) :
    (c.run source now p).1.Stopped :=
  stopped_of_turns source now _ p c [] (effort_lt_patience p c) hm

end Connection

/-! ## Bans of a pool -/

namespace Pool

variable {p : Pool} {ip : Ip} {now : Instant} {id : Nat}

theorem banPeer_of_applies (now : Instant) (happlies : p.admission.appliesTo ip = true) :
    (p.banPeer now ip).2.roster = (p.roster.killIp ip).2
      ∧ (p.banPeer now ip).2.admission = (p.admission.ban now ip).2 := by
  refine ⟨?_, Connection.admission_banPeer now p ip⟩
  unfold banPeer Admission.ban
  rw [happlies]
  rfl

/-- Nobody is let in from an address that is banned, whatever the limit to the seats. -/
theorem enter_of_bars {deadline : Instant} (h : p.admission.Bars ip deadline) (hnow : now < deadline)
    (limit : Option Nat) : (p.enter now ip limit).1 = .error .banned := by
  obtain ⟨happlies, d, hban, hle⟩ := h
  have hrunning := Record.isBanned_eq_true hban (Nat.lt_of_lt_of_le hnow hle)
  have hin := Admission.letIn_of_isBanned happlies hrunning
  unfold enter
  rcases hletIn : p.admission.letIn now ip with ⟨entrance, a⟩
  rw [hletIn] at hin
  dsimp only at hin
  subst hin
  rfl

end Pool

/-- A turn that ends with a ban asks all connections from its address to close, and leaves. -/
theorem Connection.roster_of_banned {source : Source} {now : Instant} {p : Pool} {c : Connection} {ds : List Deed}
    {t : Turn} (h : Takes source now p c ds t) (hb : .ended .banned ∈ ds) (hd : p.admission.Distinct)
    (happlies : p.admission.appliesTo c.peer.ip = true) :
    (t.pool p).roster = (p.roster.killIp c.peer.ip).2.leave c.id := by
  have happlies' : ∀ {call : Admission.Call} {a : Admission}, p.admission.call now call = a →
      a.appliesTo c.peer.ip = true := by
    rintro call a rfl
    rw [Admission.appliesTo_congr (Admission.limits_call hd now call).1]
    exact happlies
  cases h with
  | @condemned left accepted client a hp hg hw hv =>
      have ha : p.admission.call now (.share c.peer.ip accepted) = a := congrArg Prod.snd hv
      have hban := Pool.banPeer_of_applies (p := { p with admission := a }) now (happlies' ha)
      exact congrArg (·.leave c.id) hban.1
  | @bans fault f a hl hn hv =>
      have ha : p.admission.call now (.malformed c.peer.ip) = a := congrArg Prod.snd hv
      have hban := Pool.banPeer_of_applies (p := { p.count .malformedLine with admission := a }) now
        (happlies' ha)
      exact congrArg (·.leave c.id) hban.1
  | _ => exact absurd hb (by simp)

namespace World

open Connection

variable {w w' v : World} {as h k : List Act} {c d : Connection} {ip : Ip} {id : Nat} {settings : Settings}

/-! ## Nobody is asked in vain -/

/-- The entry of a connection has its address and would notice being asked to close. -/
def Attentive (w : World) : Prop :=
  ∀ c ∈ w.connections, ∀ e, w.pool.roster.get? c.id = some e → e.peer = c.peer ∧ e.listening = true

theorem attentive_fresh (settings : Settings) (tasks : Bool) : (fresh settings tasks).Attentive :=
  fun _ hc => absurd hc List.not_mem_nil

theorem attentive_move (hm : Move w as w') (hn : w.Numbered) (h : w.Attentive) : w'.Attentive := by
  obtain ⟨f, new, hconnections, hf, hnew⟩ := connections_move hn hm
  intro d hd e he
  rw [hconnections] at hd
  rcases List.mem_append.mp hd with hold | hd
  · obtain ⟨c, hc, rfl⟩ := List.mem_map.mp hold
    obtain ⟨hid, hpeer⟩ := hf c hc
    rw [hid] at he
    obtain ⟨e₀, he₀, hcontinues⟩ := stays_move hm (hn.used c hc) e he
    obtain ⟨hpeer₀, hlistening⟩ := h c hc e₀ he₀
    exact ⟨hcontinues.peer.trans (hpeer₀.trans hpeer.symm), hcontinues.listening.trans hlistening⟩
  · -- whoever was let in just now has a new entry
    obtain ⟨limit, p, _, hpool⟩ := hnew d hd
    have hregistered : w'.pool.roster.get? d.id
        = some (.fresh d.peer Roster.outboxCapacity ((p.session d.id).snapshot d.peer)) := by
      rw [hpool]
      exact Roster.get?_register_self p.roster d.id _
    rw [hregistered, Option.some.injEq] at he
    rw [← he]
    exact ⟨rfl, rfl⟩

/-! ## Connections that have to close -/

/-- What is shown of all moves of a world: the books, and that nobody is asked in vain. -/
structure Kept (w : World) : Prop extends Booked w where
  attentive : w.Attentive

theorem kept_fresh (settings : Settings) (tasks : Bool) : (fresh settings tasks).Kept :=
  ⟨booked_fresh settings tasks, attentive_fresh settings tasks⟩

theorem kept_move (hm : Move w as w') (h : w.Kept) : w'.Kept :=
  ⟨booked_move hm h.toBooked, attentive_move hm h.numbered h.attentive⟩

/-- A connection with this id, if it is still there, has to close. -/
structure Condemns (id : Nat) (w : World) : Prop where
  used : id ≤ w.pool.lastSession
  mustClose : w.pool.roster.mustClose id = true

theorem condemns_move (hm : Move w as w') (h : Condemns id w) : Condemns id w' :=
  ⟨Nat.le_trans h.used (lastSession_move hm), (stays_move hm h.used).mustClose h.mustClose⟩

/-- No line was seen to, no message that waited was written, and nothing else was said. -/
def Silent (ds : List Deed) : Prop := heard ds = [] ∧ forwarded ds = [] ∧ said ds = []

theorem silent_move (hm : Move w as w') (h : Condemns id w) : Silent (deedsOf as id) := by
  rcases deedsOf_move hm id with hnone | ⟨source, c, _, hid, hturn⟩ | hcut
  · rw [hnone]
    exact ⟨rfl, rfl, rfl⟩
  · rw [hturn]
    refine silent_turn (turn_takes source w.now w.pool c) ?_
    rw [hid]
    exact h.mustClose
  · rw [hcut]
    exact ⟨rfl, rfl, rfl⟩

/-- **Whoever has to close does nothing but end, whatever happens.** -/
theorem silent_moves (hmoves : Moves w h v) (hc : Condemns id w) : Condemns id v ∧ Silent (deedsOf h id) := by
  induction hmoves with
  | refl => exact ⟨hc, rfl, rfl, rfl⟩
  | @tail v v' h l _ hstep ih =>
      obtain ⟨hcondemns, hheard, hforwarded, hsaid⟩ := ih
      obtain ⟨hheard', hforwarded', hsaid'⟩ := silent_move hstep hcondemns
      refine ⟨condemns_move hstep hcondemns, ?_, ?_, ?_⟩
      · rw [deedsOf_append, heard_append, hheard, hheard']
        rfl
      · rw [deedsOf_append, forwarded_append, hforwarded, hforwarded']
        rfl
      · rw [deedsOf_append, said_append, hsaid, hsaid']
        rfl

/-- **Once the world has settled whoever has to close is over**, unless a write of it does not go through. -/
theorem stopped_of_settle (source : Source) (hn : w.Numbered) (h : Condemns id w) :
    ∀ c ∈ (w.settle source).connections, c.id = id → c.Stopped := by
  have hkeeps : ∀ {v as v'}, TakesTurn source v as v' → Condemns id v → Condemns id v' :=
    fun hturn => condemns_move (.turn source hturn)
  have hstops : ∀ {v : World} {c : Connection}, Condemns id v → c ∈ v.connections →
      (c.run source v.now v.pool).1.id = id → (c.run source v.now v.pool).1.Stopped := by
    intro v c hv _ hid
    rw [Connection.id_run] at hid
    have hclose := hv.mustClose
    rw [← hid] at hclose
    exact Connection.stopped_of_run source v.now hclose
  obtain ⟨_, _, hend⟩ := turns_of_settle (P := fun c => c.id = id → c.Stopped) source hkeeps hstops hn h
  exact hend

/-! ## The address is let in no more -/

/-- Nobody is let in from an address until a deadline, which no ban that is still to come makes earlier. -/
structure Shuts (ip : Ip) (deadline : Instant) (w : World) : Prop extends Kept w where
  later : deadline ≤ w.now + w.pool.settings.policy.banDuration
  bars : w.now < deadline → w.pool.admission.Bars ip deadline

variable {deadline : Instant}

theorem bars_calls {a : Admission} {now : Instant} (ha : a.Bars ip deadline) (hd : a.Distinct)
    (hnow : now < deadline) (hlater : deadline ≤ now + a.limits.banDuration) (cs : List Admission.Call) :
    (a.calls now cs).Bars ip deadline := by
  induction cs generalizing a with
  | nil => exact ha
  | cons call cs ih =>
      obtain ⟨hlimits, hdistinct⟩ := Admission.limits_call hd now call
      exact ih (ha.call hd hnow hlater call) hdistinct (by rw [hlimits]; exact hlater)

theorem now_move (hm : Move w as w') : w.now ≤ w'.now := by
  cases hm with
  | turn source hturn => obtain ⟨_⟩ := hturn; exact Nat.le_refl _
  | passes r s hle => exact hle
  | _ => exact Nat.le_refl _

theorem shuts_move (hm : Move w as w') (h : Shuts ip deadline w) : Shuts ip deadline w' := by
  have hnow := now_move hm
  refine ⟨kept_move hm h.toKept, ?_, fun hlt => ?_⟩
  · rw [settings_move hm h.toBooked]
    exact Nat.le_trans h.later (Nat.add_le_add_right hnow _)
  · obtain ⟨cs, hcs, _⟩ := calls_move h.numbered hm
    have hlt' := Nat.lt_of_le_of_lt hnow hlt
    rw [hcs]
    exact bars_calls (h.bars hlt') h.books.distinct hlt' (by rw [h.books.limits]; exact h.later) cs

/-- Whoever is there from the address was there from the start. -/
theorem old_of_shuts (hmoves : Moves w k v) (h : Shuts ip deadline w) (hnow : v.now < deadline) :
    ∀ d ∈ v.connections, d.peer.ip = ip → ∃ c ∈ w.connections, c.id = d.id ∧ c.peer = d.peer := by
  induction hmoves with
  | refl => exact fun d hd _ => ⟨d, hd, rfl, rfl⟩
  | @tail v v' k l hearlier hstep ih =>
      have hv : Shuts ip deadline v := hearlier.preserves shuts_move h
      have hlt := Nat.lt_of_le_of_lt (now_move hstep) hnow
      obtain ⟨f, new, hconnections, hf, hnew⟩ := connections_move hv.numbered hstep
      intro d hd hip
      rw [hconnections] at hd
      rcases List.mem_append.mp hd with hold | hd
      · obtain ⟨b, hb, rfl⟩ := List.mem_map.mp hold
        obtain ⟨hid, hpeer⟩ := hf b hb
        rw [hpeer] at hip
        obtain ⟨c, hc, hcid, hcpeer⟩ := ih hlt b hb hip
        exact ⟨c, hc, hcid.trans hid.symm, hcpeer.trans hpeer.symm⟩
      · obtain ⟨limit, p, henter, _⟩ := hnew d hd
        have hrefused := Pool.enter_of_bars (hv.bars hlt) hlt limit
        rw [← hip, henter] at hrefused
        exact absurd hrefused (by simp)

/-- After calls among which there is a ban of an address nobody is let in from there. -/
theorem bars_of_mem {a : Admission} {now : Instant} (happlies : a.appliesTo ip = true)
    (hd : a.Distinct) (hpos : now < now + a.limits.banDuration) {cs : List Admission.Call} (hmem : .ban ip ∈ cs) :
    (a.calls now cs).Bars ip (now + a.limits.banDuration) := by
  induction cs generalizing a with
  | nil => exact absurd hmem List.not_mem_nil
  | cons call cs ih =>
      obtain ⟨hlimits, hdistinct⟩ := Admission.limits_call hd now call
      rw [← hlimits] at hpos ⊢
      rcases List.mem_cons.mp hmem with heq | hmem
      · subst heq
        refine bars_calls ?_ hdistinct hpos (Nat.le_refl _) cs
        rw [hlimits]
        exact Admission.bars_ban happlies hd now
      · exact ih ((Admission.appliesTo_congr hlimits ip).trans happlies) hdistinct hpos hmem

/-! ## At once -/

/-- A ban is a call to admission among others. -/
theorem Bans.calls (h : Bans ip w as w') : ∃ cs, .ban ip ∈ cs
    ∧ w'.pool.admission = w.pool.admission.calls w.now cs := by
  cases h with
  | asked => exact ⟨[.ban ip], List.mem_singleton.mpr rfl, admission_banPeer w.now w.pool ip⟩
  | @earned c source hc hip hd =>
      subst hip
      refine ⟨_, ?_, admission_turn (turn_takes source w.now w.pool c)⟩
      exact List.mem_flatMap.mpr ⟨_, hd, List.mem_cons_self⟩

theorem Bans.now (h : Bans ip w as w') : w'.now = w.now := by
  cases h with
  | asked => rfl
  | earned source hc hip hd => rfl

theorem Bans.shuts (h : Bans ip w as w') (hk : w.Kept) (happlies : w.pool.admission.appliesTo ip = true) :
    Shuts ip (w.now + w.pool.settings.policy.banDuration) w' := by
  obtain ⟨cs, hmem, hcs⟩ := h.calls
  refine ⟨kept_move h.move hk, ?_, fun hlt => ?_⟩
  · exact Nat.le_of_eq (by rw [settings_move h.move hk.toBooked, h.now])
  · rw [h.now, ← hk.books.limits] at hlt
    rw [hcs, ← hk.books.limits]
    exact bars_of_mem happlies hk.books.distinct hlt hmem

/-- What a ban does to the roster: whoever is connected from there has to close, and of the others none is gone. -/
theorem Bans.roster (h : Bans ip w as w') (hk : w.Kept) (happlies : w.pool.admission.appliesTo ip = true) :
    (∀ c ∈ w.connections, c.peer.ip = ip → w'.pool.roster.mustClose c.id = true)
      ∧ ∀ c ∈ w.connections, c.peer.ip ≠ ip → w'.pool.roster.get? c.id = w.pool.roster.get? c.id := by
  have hasked : ∀ c ∈ w.connections, c.peer.ip = ip → (w.pool.roster.killIp ip).2.mustClose c.id = true := by
    intro c hc hip
    refine Roster.mustClose_killIp fun e he => ?_
    obtain ⟨hpeer, hlistening⟩ := hk.attentive c hc e he
    exact ⟨by rw [hpeer]; exact hip, hlistening⟩
  have hothers : ∀ c ∈ w.connections, c.peer.ip ≠ ip →
      (w.pool.roster.killIp ip).2.get? c.id = w.pool.roster.get? c.id := by
    intro c hc hne
    refine Roster.get?_killIp_of_ne fun e he => ?_
    rw [(hk.attentive c hc e he).1]
    exact hne
  cases h with
  | asked =>
      dsimp only
      rw [(Pool.banPeer_of_applies w.now happlies).1]
      exact ⟨hasked, hothers⟩
  | @earned c source hc hip hd =>
      subst hip
      have hroster : (w.took (c.turn source w.now w.pool)).pool.roster
          = (w.pool.roster.killIp c.peer.ip).2.leave c.id :=
        roster_of_banned (turn_takes source w.now w.pool c) hd hk.books.distinct happlies
      rw [hroster]
      refine ⟨fun d hd hip => ?_, fun d hd hne => ?_⟩
      · exact (Roster.lasts_leave _ d.id c.id).stays.mustClose (hasked d hd hip)
      · have hid : d.id ≠ c.id := fun heq => hne (congrArg (·.peer.ip) (hk.numbered.eq_of_id hc hd heq))
        exact (Roster.get?_deregister_of_ne _ hid).trans (hothers d hd hne)

/-- What comes of a ban of an address between two worlds, after some acts. -/
structure TakesEffect (ip : Ip) (h : List Act) (w w' : World) : Prop where
  /-- Connections from elsewhere are as they were, and so is what others see of them. -/
  others : ∀ c ∈ w.connections, c.peer.ip ≠ ip →
    c ∈ w'.connections ∧ w'.pool.roster.get? c.id = w.pool.roster.get? c.id
  /-- Those from the address see to no line any more and write no message that waits. -/
  silent : ∀ k v, Moves w' k v → ∀ c ∈ w'.connections, c.peer.ip = ip →
    heard (deedsOf k c.id) = [] ∧ forwarded (deedsOf k c.id) = []
  /-- What they were writing is finished and nothing else is written, unless a write fails or is cut off. -/
  finished : ∀ k v, Moves w' k v → ∀ c ∈ w'.connections, c.peer.ip = ip → ∀ d ∈ v.connections, d.id = c.id →
    Finished (deedsOf (h ++ k) c.id) → d.output = c.output
  /-- Once everyone had turns they are over, or a write of them does not go through. -/
  stopped : ∀ k v, Moves w' k v → ∀ source, ∀ d ∈ (v.settle source).connections,
    (∃ c ∈ w'.connections, c.id = d.id ∧ c.peer.ip = ip) → d.Stopped
  /-- Nobody is let in from the address until the ban runs out. -/
  refused : ∀ k v, Moves w' k v → v.now < w.now + w.pool.settings.policy.banDuration →
    ∀ source peer room, peer.ip = ip → (v.accept source peer room).1 = .error .banned
      ∧ ∀ limit, (v.connect source peer room limit).1 = .error .banned
  /-- So no line from the address is seen to until then. -/
  quiet : ∀ k v, Moves w' k v → v.now < w.now + w.pool.settings.policy.banDuration →
    ∀ c ∈ v.connections, c.peer.ip = ip → heard (deedsOf k c.id) = []

/-- Whoever is refused by admission gets no answer but that. -/
theorem refused_of_enter (hrefused : ∀ limit, (w.pool.enter w.now ip limit).1 = .error .banned) (source : Source)
    {peer : Socket} (room : Option Nat) (hip : peer.ip = ip) (limit : Option Nat) :
    (w.connect source peer room limit).1 = .error .banned := by
  have henter := hrefused limit
  unfold connect
  rw [hip]
  rcases hanswer : w.pool.enter w.now ip limit with ⟨answer, p⟩
  rw [hanswer] at henter
  dsimp only at henter
  subst henter
  rfl

theorem Shuts.refused (h : Shuts ip deadline w) (hnow : w.now < deadline) (source : Source) {peer : Socket}
    (room : Option Nat) (hip : peer.ip = ip) :
    (w.accept source peer room).1 = .error .banned
      ∧ ∀ limit, (w.connect source peer room limit).1 = .error .banned := by
  have hbars := h.bars hnow
  have hconnect : ∀ limit, (w.connect source peer room limit).1 = .error .banned :=
    refused_of_enter (fun limit => Pool.enter_of_bars hbars hnow limit) source room hip
  refine ⟨?_, hconnect⟩
  -- the listener only counts before it asks
  have hcounted : (connect source { w with pool := w.pool.count .received } peer room
      (some w.pool.settings.maxClients)).1 = .error .banned :=
    refused_of_enter (w := { w with pool := w.pool.count .received })
      (fun limit => Pool.enter_of_bars (p := w.pool.count .received) hbars hnow limit) source room hip _
  unfold accept
  dsimp only
  rcases hanswer : connect source { w with pool := w.pool.count .received } peer room
      (some (w.pool.count .received).settings.maxClients) with ⟨answer, u⟩
  have hsame : (some (w.pool.count .received).settings.maxClients) = some w.pool.settings.maxClients := rfl
  rw [← hsame, hanswer] at hcounted
  dsimp only at hcounted
  subst hcounted
  rfl

/-- Nothing happens to other connections than the one that is the reason of a ban. -/
theorem Bans.mem (h : Bans ip w as w') (hn : w.Numbered) (hc : c ∈ w.connections) (hne : c.peer.ip ≠ ip) :
    c ∈ w'.connections := by
  cases h with
  | asked => exact hc
  | @earned b source hb hip hd =>
      refine mem_replace_of_ne hc fun hid => hne ?_
      rw [(Connection.kept_turn (turn_takes source w.now w.pool b)).id] at hid
      rw [hn.eq_of_id hb hc hid, hip]

/-- The connections that a ban leaves behind were there before. -/
theorem Bans.old (h : Bans ip w as w') (hd : d ∈ w'.connections) :
    ∃ c ∈ w.connections, c.id = d.id ∧ c.peer = d.peer := by
  cases h with
  | asked => exact ⟨d, hd, rfl, rfl⟩
  | @earned b source hb hip hdeed =>
      have htakes := turn_takes source w.now w.pool b
      rcases mem_replace hd with rfl | ⟨hold, _⟩
      · exact ⟨b, hb, (Connection.kept_turn htakes).id.symm, (peer_turn htakes).symm⟩
      · exact ⟨d, hold, rfl, rfl⟩

/-- A connection that has said nothing new since has written no more than it was about to write. -/
theorem output_of_silent {settings : Settings} {tasks : Bool} {v : World} {k : List Act}
    (hmoves : Moves (fresh settings tasks) h w) (hlater : Moves w k v) (hc : c ∈ w.connections)
    (hd : d ∈ v.connections) (hid : d.id = c.id) (hsilent : said (deedsOf k c.id) = [])
    (hfinished : Finished (deedsOf (h ++ k) c.id)) : d.output = c.output := by
  obtain ⟨_, _, hbefore⟩ := transcript_of_moves hmoves hc
  obtain ⟨_, _, hafter⟩ := transcript_of_moves (hmoves.trans hlater) hd
  have hfinished' : Finished (deedsOf h c.id) := by
    rw [deedsOf_append, finished_append] at hfinished
    exact hfinished.1
  have hold := hbefore.written hfinished'
  rw [← hid] at hfinished
  have hnew := hafter.written hfinished
  dsimp only at hold hnew
  rw [hid, deedsOf_append, said_append, hsilent, List.append_nil, ← hold] at hnew
  exact hnew

/--
**A ban takes effect at once and everywhere.**

Whoever has an address banned, and whatever else goes on: its connections end, without seeing to another line and
without writing another message that waits for them, nobody is let in from there until the ban runs out, and no
other connection notices.
-/
theorem ban_takes_effect {settings : Settings} {tasks : Bool} (hmoves : Moves (fresh settings tasks) h w)
    (happlies : w.pool.admission.appliesTo ip = true) (hban : Bans ip w as w') :
    TakesEffect ip (h ++ as) w w' := by
  have hk : w.Kept := hmoves.preserves kept_move (kept_fresh settings tasks)
  have hshuts := hban.shuts hk happlies
  have hn := hk.numbered
  obtain ⟨hasked, hothers⟩ := hban.roster hk happlies
  have hcondemned : ∀ c ∈ w'.connections, c.peer.ip = ip → Condemns c.id w' := by
    intro c hc hip
    obtain ⟨b, hb, hid, hpeer⟩ := hban.old hc
    refine ⟨hshuts.numbered.used c hc, ?_⟩
    rw [← hid]
    exact hasked b hb (by rw [hpeer, hip])
  constructor
  case others => exact fun c hc hne => ⟨hban.mem hn hc hne, hothers c hc hne⟩
  case silent =>
    intro k v hlater c hc hip
    obtain ⟨_, hheard, hforwarded, _⟩ := silent_moves hlater (hcondemned c hc hip)
    exact ⟨hheard, hforwarded⟩
  case finished =>
    intro k v hlater c hc hip d hd hid hfinished
    obtain ⟨_, _, _, hsaid⟩ := silent_moves hlater (hcondemned c hc hip)
    exact output_of_silent (hmoves.tail hban.move) hlater hc hd hid hsaid hfinished
  case stopped =>
    rintro k v hlater source d hd ⟨c, hc, hid, hip⟩
    have hv : v.Numbered := hlater.preserves numbered_move hshuts.numbered
    exact stopped_of_settle source hv (silent_moves hlater (hcondemned c hc hip)).1 d hd hid.symm
  case refused =>
    intro k v hlater hnow source peer room hip
    have hv : Shuts ip (w.now + w.pool.settings.policy.banDuration) v := hlater.preserves shuts_move hshuts
    exact hv.refused hnow source room hip
  case quiet =>
    intro k v hlater hnow d hd hip
    obtain ⟨c, hc, hid, hpeer⟩ := old_of_shuts hlater hshuts hnow d hd hip
    rw [← hid]
    exact (silent_moves hlater (hcondemned c hc (by rw [hpeer, hip]))).2.1

/-- Two miners of one address and one of another are connected. A message waits for the first and a line of the
second has arrived when their address is banned: both end without a word, and the third goes on. -/
theorem ban_takes_effect_two_of_three :
    let source : Source := ⟨fun _ => .ok default, fun _ => .ok true⟩
    let one := ((fresh .standard false).ask ⟨.v4 1, 50001⟩ none).2
    let two := (one.ask ⟨.v4 1, 50002⟩ none).2
    let three := (two.ask ⟨.v4 2, 50003⟩ none).2
    let pushed : World :=
      { three with pool := { three.pool with roster := (three.pool.roster.sendTo 1 (refusal 64)).2 } }
    let second := pushed.connections.get ⟨1, by decide⟩
    let w := pushed.replace { second with framer := second.framer.feed [0x7B, 0x7D, 0x0A] }
    let w' : World := { w with pool := (w.pool.banPeer w.now (.v4 1)).2 }
    (∃ h, Moves (fresh .standard false) h w ∧ TakesEffect (.v4 1) (h ++ []) w w')
      ∧ (w'.settle source).connections.map (fun c => (c.isOpen, c.client.received))
        = [(false, []), (false, []), (true, [])]
      ∧ (w'.accept source ⟨.v4 1, 50004⟩ none).1 = .error .banned
      ∧ (w'.accept source ⟨.v4 2, 50005⟩ none).1 = .ok 4 := by
  intro source one two three pushed second w w'
  obtain ⟨_, hone⟩ := ask_moves (fresh .standard false) ⟨.v4 1, 50001⟩ none
  obtain ⟨_, htwo⟩ := ask_moves one ⟨.v4 1, 50002⟩ none
  obtain ⟨_, hthree⟩ := ask_moves two ⟨.v4 2, 50003⟩ none
  have hpushed := ((hone.trans htwo).trans hthree).tail (.meanwhile (.pushed 1 (refusal 64)))
  have hw : Moves (fresh .standard false) _ w :=
    hpushed.tail (.arrives [0x7B, 0x7D, 0x0A] (List.get_mem pushed.connections ⟨1, by decide⟩) (by decide))
  exact ⟨⟨_, hw, ban_takes_effect hw (by decide) .asked⟩, by decide +kernel, by decide +kernel, by decide +kernel⟩

end World
end MiningPool

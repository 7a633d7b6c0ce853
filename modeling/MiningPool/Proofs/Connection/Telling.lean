import MiningPool.Proofs.Connection.Turn
import MiningPool.Proofs.Pool.Answer
import MiningPool.Proofs.Roster
import MiningPool.Proofs.Wire.Framing

/-!
# What the deeds of a connection tell

The same list of deeds is read in three ways: what was written (`said`), which lines were seen to (`heard`)
and which messages were taken from the queue (`forwarded`). Each way has one lemma about one turn, which says
that the connection and the pool changed by just what the deeds tell.
-/

namespace MiningPool

open Json Net Wire

namespace Client

/-- Where all bytes fit at once none are on their way. -/
def Sound (c : Client) : Prop := c.room = none → c.underway = []

/-- Writing loses no byte and keeps their order. -/
theorem write_eq {c c' : Client} {left rest : Bytes} (hc : c.Sound) (h : c.write left = (rest, c')) :
    c'.Sound ∧ c'.received ++ c'.underway ++ rest = c.received ++ c.underway ++ left := by
  unfold write at h
  split at h
  · rename_i hroom
    simp only [Prod.mk.injEq] at h
    obtain ⟨rfl, rfl⟩ := h
    refine ⟨hc, ?_⟩
    have hnone : c.underway = [] := hc hroom
    simp only [hnone, List.append_nil]
  · rename_i n hroom
    simp only [Prod.mk.injEq] at h
    obtain ⟨rfl, rfl⟩ := h
    refine ⟨fun hn => absurd (hroom.symm.trans hn) (by simp), ?_⟩
    simp only [List.append_assoc, List.take_append_drop]

/-- Being written to leaves alone what a miner has done and how much fits on the way to it. -/
structure KeptBy (c c' : Client) : Prop where
  finished : c'.finished = c.finished
  gone : c'.gone = c.gone
  room : c'.room = c.room
  underway : c.room = none → c'.underway = c.underway

theorem KeptBy.refl (c : Client) : c.KeptBy c := ⟨rfl, rfl, rfl, fun _ => rfl⟩

theorem keptBy_write {c c' : Client} {left rest : Bytes} (h : c.write left = (rest, c')) : c.KeptBy c' := by
  unfold write at h
  split at h
  · simp only [Prod.mk.injEq] at h
    obtain ⟨_, rfl⟩ := h
    exact ⟨rfl, rfl, rfl, fun _ => rfl⟩
  · rename_i n hroom
    simp only [Prod.mk.injEq] at h
    obtain ⟨_, rfl⟩ := h
    exact ⟨rfl, rfl, rfl, fun hn => absurd (hroom.symm.trans hn) (by simp)⟩

end Client

namespace Connection

variable {source : Source} {now : Instant} {p : Pool} {c : Connection} {ds : List Deed} {t : Turn}

/-! ## What stays as it is -/

/-- A turn leaves alone who a connection is, what its miner has done and how the pool was set up. -/
structure Kept (p : Pool) (c : Connection) (p' : Pool) (c' : Connection) : Prop where
  id : c'.id = c.id
  miner : c.client.KeptBy c'.client
  settings : p'.settings = p.settings
  lastSession : p'.lastSession = p.lastSession

theorem banPeer_keeps (now : Instant) (p : Pool) (ip : Ip) :
    (p.banPeer now ip).2.settings = p.settings ∧ (p.banPeer now ip).2.lastSession = p.lastSession := by
  unfold Pool.banPeer
  split
  · exact ⟨rfl, rfl⟩
  · exact ⟨rfl, rfl⟩

theorem kept_turn (h : Takes source now p c ds t) : Kept p c (t.pool p) t.connection := by
  cases h with
  | writes hp hg hw hr => exact ⟨rfl, Client.keptBy_write hw, rfl, rfl⟩
  | wrote hp hg hw => exact ⟨rfl, Client.keptBy_write hw, rfl, rfl⟩
  | reports hp hg hw hv => exact ⟨rfl, Client.keptBy_write hw, rfl, rfl⟩
  | condemned hp hg hw hv =>
      obtain ⟨hs, hl⟩ := banPeer_keeps now { p with admission := _ } c.peer.ip
      exact ⟨rfl, Client.keptBy_write hw, hs, hl⟩
  | @serves r f o hl hn ho =>
      have hrooms := Pool.sameRooms_answer source p c.session r
      rw [ho] at hrooms
      exact ⟨rfl, .refl _, hrooms.settings, hrooms.lastSession⟩
  | bans hl hn hv =>
      obtain ⟨hs, hl⟩ := banPeer_keeps now { p.count .malformedLine with admission := _ } c.peer.ip
      exact ⟨rfl, .refl _, hs, hl⟩
  | _ => exact ⟨rfl, .refl _, rfl, rfl⟩

/-! ## What is written -/

/-- The messages a deed writes. -/
def Deed.said : Deed → List Message
  | .forwarded m => [m]
  | .served source p s r =>
    match (p.answer source s r).reply with
    | .ok reply => .response ⟨r.id, reply.result, none⟩ :: reply.pushes.map .notification
    | .error fault => [.response ⟨r.id, .null, some fault.triple⟩]
  | .noted (.tooLarge _) .allowed =>
    [.response ⟨.null, .null, some ⟨-32600, "Request too large", none⟩⟩]
  | _ => []

def said (log : List Deed) : List Message := log.flatMap Deed.said

def lines (log : List Deed) : Bytes := (said log).flatMap Message.bytes

theorem said_append (log ds : List Deed) : said (log ++ ds) = said log ++ said ds := List.flatMap_append

theorem lines_append (log ds : List Deed) : lines (log ++ ds) = lines log ++ lines ds := by
  rw [lines, said_append, List.flatMap_append]
  rfl

def unsent (c : Connection) : Bytes :=
  match c.phase with
  | .writing left _ => left
  | _ => []

/-- All that was written or is being written. -/
def output (c : Connection) : Bytes := c.client.received ++ c.client.underway ++ c.unsent

theorem unsent_of_closed {fault : Option Fault} (h : c.phase = .closed fault) : c.unsent = [] := by
  rw [unsent, h]

theorem unsent_of_writing {left : Bytes} {afterwards : Afterwards} (h : c.phase = .writing left afterwards) :
    c.unsent = left := by
  rw [unsent, h]

theorem unsent_of_waiting (h : c.phase = .waiting) : c.unsent = [] := by
  rw [unsent, h]

/-- A connection with nothing left to write starts to write some lines. -/
theorem output_of_starts {c' : Connection} {bs : Bytes} {afterwards : Afterwards} (hp : c.phase = .waiting)
    (hc : c'.client = c.client) (hp' : c'.phase = .writing bs afterwards) : c'.output = c.output ++ bs := by
  rw [output, output, hc, unsent_of_waiting hp, unsent_of_writing hp', List.append_nil]

/-- A connection with nothing left to write goes on or is over. -/
theorem output_of_same {c' : Connection} (hc : c'.client = c.client) (hu : c'.unsent = c.unsent) :
    c'.output = c.output ++ [] := by
  rw [output, output, hc, hu, List.append_nil]

/-- A connection that writes on says nothing new. -/
theorem output_of_writes {c' : Connection} {left rest : Bytes} {afterwards : Afterwards} {client : Client}
    (hc : c.client.Sound) (hp : c.phase = .writing left afterwards)
    (hw : c.client.write left = (rest, client)) (hcl : c'.client = client) (hu : c'.unsent = rest) :
    c'.output = c.output ++ [] := by
  rw [output, output, hu, hcl, (Client.write_eq hc hw).2, unsent_of_writing hp, List.append_nil]

/-- Nothing was left unwritten. -/
def Finished (log : List Deed) : Prop := ∀ why, .ended why ∈ log → why.isAbrupt = false

theorem finished_append {log ds : List Deed} : Finished (log ++ ds) ↔ Finished log ∧ Finished ds := by
  simp only [Finished, List.mem_append, or_imp, forall_and]

/-- **A turn adds to what is written the lines of its deeds.** Only a failed write loses any. -/
theorem output_turn (h : Takes source now p c ds t) (hc : c.client.Sound) :
    t.connection.client.Sound ∧ (Finished ds → t.connection.output = c.output ++ lines ds) := by
  cases h with
  | stays hp => exact ⟨hc, fun _ => output_of_same rfl rfl⟩
  | broken hp hg => exact ⟨hc, fun hb => absurd (hb .broken (List.mem_singleton.mpr rfl)) (by decide)⟩
  | writes hp hg hw hr =>
      exact ⟨(Client.write_eq hc hw).1, fun _ => output_of_writes hc hp hw (by rfl) (by rfl)⟩
  | wrote hp hg hw =>
      exact ⟨(Client.write_eq hc hw).1, fun _ => output_of_writes hc hp hw (by rfl) (by rfl)⟩
  | reports hp hg hw hv =>
      exact ⟨(Client.write_eq hc hw).1, fun _ => output_of_writes hc hp hw (by rfl) (by rfl)⟩
  | condemned hp hg hw hv =>
      exact ⟨(Client.write_eq hc hw).1, fun _ => output_of_writes hc hp hw (by rfl) (by rfl)⟩
  | stops hp hs => exact ⟨hc, fun _ => output_of_same rfl (unsent_of_waiting hp).symm⟩
  | yields hp hs hk => exact ⟨hc, fun _ => output_of_same rfl (unsent_of_waiting hp).symm⟩
  | @forwards m q ha hm =>
      refine ⟨hc, fun _ => ?_⟩
      refine (output_of_starts ha.phase (by rfl) (by rfl)).trans ?_
      simp only [lines, said, Deed.said, List.flatMap_cons, List.flatMap_nil, List.append_nil]
  | @serves r f o hl hn ho =>
      refine ⟨hc, fun _ => ?_⟩
      -- `said` spells out the messages of an outcome
      have hsaid : (Deed.served source p c.session r).said = o.messages r.id := by
        rw [Deed.said, ho, Outcome.messages]
        cases o.reply with
        | ok reply => rfl
        | error fault => rfl
      refine (output_of_starts hl.phase (by rfl) (by rfl)).trans ?_
      rw [lines, said, List.flatMap_singleton, hsaid]
  | @refuses limit f a hl hn hv =>
      refine ⟨hc, fun _ => ?_⟩
      refine (output_of_starts hl.phase (by rfl) (by rfl)).trans ?_
      simp only [lines, said, Deed.said, List.flatMap_cons, List.flatMap_nil, List.append_nil]
      rfl
  | @drops fault f a hl hn hf hv =>
      have hsaid : (Deed.noted fault .allowed).said = [] := by
        cases fault with
        | tooLarge limit => exact absurd rfl (hf limit)
        | _ => rfl
      refine ⟨hc, fun _ => ?_⟩
      rw [lines, said, List.flatMap_singleton, hsaid]
      exact output_of_same rfl rfl
  | @bans fault f a hl hn hv =>
      have hsaid : said [.noted fault .banned, .ended .banned] = [] := by
        cases fault with
        | _ => rfl
      refine ⟨hc, fun _ => ?_⟩
      rw [lines, hsaid]
      exact output_of_same rfl (unsent_of_waiting hl.phase).symm
  | hangsUp hl hn he => exact ⟨hc, fun _ => output_of_same rfl (unsent_of_waiting hl.phase).symm⟩
  | idles hl hn he hd => exact ⟨hc, fun _ => output_of_same rfl (unsent_of_waiting hl.phase).symm⟩
  | waits hl hn he hd => exact ⟨hc, fun _ => output_of_same rfl rfl⟩

/-! ## What is heard -/

/-- The line that a deed sees to. -/
def Deed.heard? : Deed → Option (Inbound Request)
  | .served _ _ _ r => some (.message r)
  | .noted fault _ => some (.faulty fault)
  | _ => none

def heard (log : List Deed) : List (Inbound Request) := log.filterMap Deed.heard?

theorem heard_append (log ds : List Deed) : heard (log ++ ds) = heard log ++ heard ds :=
  List.filterMap_append

/-- Whether its miner sends no more. -/
def inputOver (c : Connection) : Bool := c.client.finished || c.client.gone

/-- The longest line a pool takes. -/
abbrev limit (p : Pool) : Nat := p.settings.mining.maxRequestSize

/-- What a framer owes to a pool if some bytes and then no others arrive. -/
abbrev owed (p : Pool) (f : Framer) (rest : Bytes) : List (Inbound Request) :=
  Framer.owed (limit p) Request.read? f rest

/-- The next line is the first one owed. If there is none, none can be told yet or none is owed at all. -/
theorem nextLine_honest {item : Option (Inbound Request)} {f : Framer} (hs : c.framer.Sound (limit p))
    (hn : c.nextLine p = (item, f)) :
    f.Sound (limit p)
      ∧ f.buffer <:+ c.framer.buffer
      ∧ (∀ rest, (c.inputOver = true → rest = []) →
          owed p c.framer rest = item.toList ++ owed p f rest)
      ∧ (item = none → if c.inputOver then f = .fresh else f.Dry (limit p)) := by
  unfold nextLine at hn
  dsimp only at hn
  by_cases ho : c.inputOver = true
  · have hfg : (c.client.finished || c.client.gone) = true := ho
    rw [if_pos hfg] at hn
    obtain ⟨h₁, h₂, h₃⟩ := Framer.nextAtEnd_honest Request.read? hs
    have h₄ := Framer.buffer_nextAtEnd (limit p) Request.read? c.framer
    rw [hn] at h₁ h₂ h₃ h₄
    refine ⟨h₁, h₄, fun rest hrest => ?_, fun hnone => ?_⟩
    · rw [hrest ho]
      exact h₂
    · rw [if_pos ho]
      exact h₃ hnone
  · have hfg : ¬ (c.client.finished || c.client.gone) = true := ho
    rw [if_neg hfg] at hn
    obtain ⟨h₁, h₂, h₃⟩ := Framer.next_honest Request.read? hs
    have h₄ := Framer.buffer_next (limit p) Request.read? c.framer
    rw [hn] at h₁ h₂ h₃ h₄
    refine ⟨h₁, h₄, fun rest _ => h₂ rest, fun hnone => ?_⟩
    rw [if_neg ho]
    exact h₃ hnone

/-- **A turn sees to the first line that is owed, or to none.** -/
theorem heard_turn (h : Takes source now p c ds t) (hs : c.framer.Sound (limit p)) :
    t.connection.framer.Sound (limit p)
      ∧ t.connection.framer.buffer <:+ c.framer.buffer
      ∧ ∀ rest, (c.inputOver = true → rest = []) →
          owed p c.framer rest = heard ds ++ owed p t.connection.framer rest := by
  -- whoever looks for a line does so by `nextLine`, whatever comes of it
  have hlooks : ∀ {item : Option (Inbound Request)} {f : Framer}, c.nextLine p = (item, f) →
      f.Sound (limit p) ∧ f.buffer <:+ c.framer.buffer
        ∧ ∀ rest, (c.inputOver = true → rest = []) →
            owed p c.framer rest = item.toList ++ owed p f rest := by
    intro item f hn
    obtain ⟨h₁, h₂, h₃, _⟩ := nextLine_honest hs hn
    exact ⟨h₁, h₂, h₃⟩
  cases h with
  | serves hl hn ho => exact hlooks hn
  | refuses hl hn hv => exact hlooks hn
  | drops hl hn hf hv => exact hlooks hn
  | bans hl hn hv => exact hlooks hn
  | hangsUp hl hn he => exact hlooks hn
  | idles hl hn he hd => exact hlooks hn
  | waits hl hn he hd => exact hlooks hn
  -- no other turn looks for a line
  | _ => exact ⟨hs, List.suffix_refl _, fun rest _ => rfl⟩

/-! ## What was taken from the queue -/

/-- The messages that were taken from the queue, in order. -/
def forwarded (log : List Deed) : List Message :=
  log.filterMap fun
    | .forwarded m => some m
    | _ => none

theorem forwarded_append (log ds : List Deed) : forwarded (log ++ ds) = forwarded log ++ forwarded ds :=
  List.filterMap_append

/-- A connection that need not close is registered. -/
theorem registered_of_attends (h : c.Attends p) : ∃ e, p.roster.get? c.id = some e := by
  have hk := h.mustClose
  rw [Roster.mustClose] at hk
  cases he : p.roster.get? c.id with
  | none => rw [he] at hk; exact absurd hk (by simp)
  | some e => exact ⟨e, rfl⟩

/-- A connection that is over is registered no more. -/
theorem get?_close (p : Pool) (c : Connection) (fault : Option Fault) (handed : Option Share) :
    (c.close p fault handed).pool.roster.get? c.id = none :=
  Roster.get?_leave_self p.roster c.id

theorem get?_banPeer (now : Instant) (p : Pool) (c : Connection) :
    (c.banPeer now p).pool.roster.get? c.id = none :=
  get?_close (p.banPeer now c.peer.ip).2 c none none

/-- The entry of a connection whose queue is as it was. -/
theorem queue_of_same {e' : Entry} (he : p.roster.get? c.id = some e') :
    ∃ e, p.roster.get? c.id = some e
      ∧ e.outbox.waiting = [] ++ e'.outbox.waiting
      ∧ e.outbox.isOpen = e'.outbox.isOpen :=
  ⟨e', he, rfl, rfl⟩

/-- **A turn takes from the queue the messages it forwards, and changes no more of it.** -/
theorem queue_turn (h : Takes source now p c ds t) {e' : Entry}
    (he : (t.pool p).roster.get? c.id = some e') :
    ∃ e, p.roster.get? c.id = some e
      ∧ e.outbox.waiting = forwarded ds ++ e'.outbox.waiting
      ∧ e.outbox.isOpen = e'.outbox.isOpen := by
  -- a connection that is over has no entry
  have hclosed : ∀ {r : Roster}, r.get? c.id = none → r.get? c.id = some e' → False := by
    intro r h₁ h₂
    rw [h₁] at h₂
    exact absurd h₂ (by simp)
  cases h with
  | stays hp => exact queue_of_same he
  | broken hp hg => exact (hclosed (get?_close p c _ none) he).elim
  | writes hp hg hw hr => exact queue_of_same he
  | wrote hp hg hw => exact queue_of_same he
  | reports hp hg hw hv => exact queue_of_same he
  | condemned hp hg hw hv => exact (hclosed (get?_banPeer now _ _) he).elim
  | stops hp hs => exact (hclosed (get?_close p c none none) he).elim
  | yields hp hs hk => exact (hclosed (get?_close p c none none) he).elim
  | @forwards m q ha hm =>
      obtain ⟨e, hreg⟩ := registered_of_attends ha
      obtain ⟨rest, hw, hq⟩ := Roster.take_message p.roster c.id hreg hm
      have hsome : some { e with outbox := { e.outbox with waiting := rest } } = some e' :=
        hq.symm.trans he
      injection hsome with hsome
      subst hsome
      exact ⟨e, hreg, hw, rfl⟩
  | @serves r f o hl hn ho =>
      have hrooms := Pool.sameRooms_answer source p c.session r
      rw [ho] at hrooms
      have hpub : (p.roster.get? c.id).map (fun e => { e with snapshot := o.session.snapshot c.peer })
          = some e' := by
        rw [← hrooms.roster, ← Roster.get?_change_self]
        exact he
      obtain ⟨e, hreg, hsnap⟩ := Option.map_eq_some_iff.mp hpub
      subst hsnap
      exact ⟨e, hreg, rfl, rfl⟩
  | refuses hl hn hv => exact queue_of_same he
  | drops hl hn hf hv => exact queue_of_same he
  | bans hl hn hv => exact (hclosed (get?_banPeer now _ _) he).elim
  | hangsUp hl hn hover => exact (hclosed (get?_close p _ none none) he).elim
  | idles hl hn hover hd => exact (hclosed (get?_close p _ none none) he).elim
  | waits hl hn hover hd => exact queue_of_same he

/-- Whoever forwards a message is still registered. -/
theorem registered_of_forwarded (h : Takes source now p c ds t) (hf : forwarded ds ≠ []) :
    ∃ e, (t.pool p).roster.get? c.id = some e := by
  cases h with
  | @forwards m q ha hm =>
      obtain ⟨e, hreg⟩ := registered_of_attends ha
      obtain ⟨rest, _, hq⟩ := Roster.take_message p.roster c.id hreg hm
      exact ⟨_, hq⟩
  | _ => exact absurd rfl hf

end Connection
end MiningPool

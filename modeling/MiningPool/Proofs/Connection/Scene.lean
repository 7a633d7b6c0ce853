import Mathlib.Logic.Relation
import MiningPool.Proofs.Connection.Elsewhere
import MiningPool.Proofs.Connection.Order

/-!
# A connection and what happened to it

A `Scene` is a connection in its pool together with its past: the bytes its miner sent, the messages others
queued for it, and its own deeds. Its turns come at any time and from any work source, and anything may happen
in between: bytes arrive in any pieces, the miner stops sending or goes away or is slow to read, and others do
what they like with the pool, as long as it is `Elsewhere`.

`Faithful` says that the deeds are true to all that the scene holds. Every step preserves it, and a turn does
so because each part of it was shown of one turn before.
-/

namespace MiningPool

open Json Net Wire Connection

/-- A connection in its pool, and what happened to it. -/
structure Scene where
  pool : Pool
  connection : Connection
  /-- All bytes that its miner sent. -/
  stream : Bytes
  /-- All messages that others queued for it. -/
  queued : List Message
  log : List Deed

namespace Scene

/-! ## How a scene goes on -/

/-- A connection has just been let in and registered. -/
def start (p : Pool) (now : Instant) (id : Nat) (peer : Socket) (room : Option Nat) : Scene where
  pool := p.register id peer
  connection := .fresh p now id peer room
  stream := []
  queued := []
  log := []

/-- The scene after a turn of its connection. -/
def turn (source : Source) (now : Instant) (s : Scene) : Scene :=
  let t := s.connection.turn source now s.pool
  { s with
    pool := t.pool s.pool
    connection := t.connection
    log := s.log ++ deeds source now s.pool s.connection }

def arrive (bs : Bytes) (s : Scene) : Scene :=
  { s with
    connection := { s.connection with framer := s.connection.framer.feed bs }
    stream := s.stream ++ bs }

/-- What may happen next. -/
inductive Step : Scene → Scene → Prop
  | turn {s : Scene} (source : Source) (now : Instant) : Step s (s.turn source now)
  /-- Bytes arrive from its miner. -/
  | arrives {s : Scene} (bs : Bytes) (h : s.connection.inputOver = false) : Step s (s.arrive bs)
  /-- Its miner sends no more. -/
  | finishes {s : Scene} :
      Step s { s with
        connection := { s.connection with client := { s.connection.client with finished := true } } }
  /-- Its miner is there no more. -/
  | vanishes {s : Scene} :
      Step s { s with connection := { s.connection with client := { s.connection.client with gone := true } } }
  /-- Its miner takes what is on the way, and there is room again. -/
  | reads {s : Scene} (room : Option Nat) :
      Step s { s with
        connection := { s.connection with client := { s.connection.client.takeAll with room := room } } }
  /-- It is told that the pool shuts down. -/
  | stops {s : Scene} : Step s { s with connection := { s.connection with stopping := true } }
  /-- It is ended from outside. -/
  | cut {s : Scene} (h : s.connection.isOpen = true) :
      Step s { s with
        pool := (s.connection.close s.pool none none).pool
        connection := (s.connection.close s.pool none none).connection
        log := s.log ++ [.ended .cutOff] }
  /-- Others act. -/
  | meanwhile {s : Scene} {p : Pool} {ms : List Message} (h : Elsewhere s.connection.id s.pool p ms) :
      Step s { s with pool := p, queued := s.queued ++ ms }

/-- What can come of a scene. -/
def Reachable : Scene → Scene → Prop := Relation.ReflTransGen Step

/-- The lines of a stream, as a pool reads them. -/
abbrev itemsOf (p : Pool) (stream : Bytes) : List (Inbound Request) := items (limit p) Request.read? stream

/-! ## What every step preserves -/

/-- The deeds of a scene are true to all that it holds. -/
structure Faithful (first : Session) (s : Scene) : Prop where
  client : s.connection.client.Sound
  written : Finished s.log → s.connection.output = lines s.log
  framer : s.connection.framer.Sound (limit s.pool)
  suffix : s.connection.framer.buffer <:+ s.stream
  heard : ∀ rest, (s.connection.inputOver = true → rest = []) →
    itemsOf s.pool (s.stream ++ rest) = heard s.log ++ owed s.pool s.connection.framer rest
  hungUp : .ended .hungUp ∈ s.log → s.connection.inputOver = true
    ∧ Connection.heard s.log = itemsOf s.pool s.stream
  queue : ∀ e, s.pool.roster.get? s.connection.id = some e →
    forwarded s.log ++ e.outbox.waiting = s.queued ∧ e.outbox.isOpen = true
  taken : forwarded s.log <+: s.queued
  inOrder : InOrder .nothing s.log
  due : dueAfter .nothing s.log = dueIn s.connection.phase
  continues : Continues first s.log
  session : s.connection.session = sessionAfter first s.log

theorem faithful_start (p : Pool) (now : Instant) (id : Nat) (peer : Socket) (room : Option Nat) :
    Faithful (p.session id) (start p now id peer room) where
  client := fun _ => rfl
  written := fun _ => rfl
  framer := Framer.sound_fresh _
  suffix := List.suffix_refl _
  heard := fun rest _ => (Framer.owed_fresh _ Request.read? rest).symm
  hungUp := fun h => absurd h List.not_mem_nil
  queue := by
    intro e he
    have hnew := Roster.get?_register_self p.roster id
      (.fresh peer Roster.outboxCapacity ((p.session id).snapshot peer))
    have hsome := hnew.symm.trans he
    injection hsome with hsome
    subst hsome
    exact ⟨rfl, rfl⟩
  taken := List.prefix_refl _
  inOrder := trivial
  due := rfl
  continues := trivial
  session := rfl

variable {first : Session} {s s' : Scene}

/-- A connection whose log has come to an end is closed. -/
theorem closed_of_ended (h : Faithful first s) {why : Ending} (hw : .ended why ∈ s.log) :
    ∃ fault, s.connection.phase = .closed fault := by
  obtain ⟨earlier, later, heq⟩ := List.append_of_mem hw
  have horder := h.inOrder
  have hdue := h.due
  rw [heq] at horder hdue
  rw [eq_nil_of_ended horder, dueAfter_append] at hdue
  have hsilence : dueIn s.connection.phase = .silence := hdue.symm
  cases hp : s.connection.phase with
  | closed fault => exact ⟨fault, rfl⟩
  | waiting => rw [hp] at hsilence; exact absurd hsilence (by simp [dueIn])
  | writing left afterwards =>
      rw [hp] at hsilence
      cases afterwards <;> exact absurd hsilence (by simp [dueIn])

theorem limit_eq {p q : Pool} (h : q.settings = p.settings) : limit q = limit p := by
  rw [limit, limit, h]

section Turn

variable {source : Source} {now : Instant} {ds : List Deed} {t : Turn}

/-- Whoever hangs up owes no line any more. -/
theorem owed_of_hungUp {p : Pool} {c : Connection} (h : Takes source now p c ds t)
    (hs : c.framer.Sound (limit p)) (hm : .ended .hungUp ∈ ds) :
    c.inputOver = true ∧ owed p t.connection.framer [] = [] := by
  cases h with
  | @hangsUp f hl hn he =>
      obtain ⟨_, _, _, hnone⟩ := nextLine_honest hs hn
      have hover : c.inputOver = true := he
      have hfresh := hnone rfl
      rw [if_pos hover] at hfresh
      subst hfresh
      exact ⟨hover, rfl⟩
  | _ => exact absurd hm (by simp)

theorem eq_nil_of_closed (h : Faithful first s) (htakes : Takes source now s.pool s.connection ds t)
    {why : Ending} (hw : .ended why ∈ s.log) : ds = [] := by
  obtain ⟨fault, hp⟩ := closed_of_ended h hw
  obtain ⟨horder, _⟩ := inOrder_turn htakes
  rw [hp] at horder
  cases ds with
  | nil => rfl
  | cons d ds => exact horder.1.elim

/-- The line that a turn sees to is the next one of the stream. -/
theorem heard_of_takes (h : Faithful first s) (htakes : Takes source now s.pool s.connection ds t) :
    ∀ rest, (s.connection.inputOver = true → rest = []) →
      itemsOf s.pool (s.stream ++ rest)
        = heard (s.log ++ ds) ++ owed s.pool t.connection.framer rest := by
  intro rest hrest
  obtain ⟨_, _, hheard⟩ := heard_turn htakes h.framer
  rw [h.heard rest hrest, hheard rest hrest, heard_append, List.append_assoc]

/-- The message that a turn forwards is the next one of those that were queued. -/
theorem queue_of_takes (h : Faithful first s) (htakes : Takes source now s.pool s.connection ds t)
    {e : Entry} (he : (t.pool s.pool).roster.get? s.connection.id = some e) :
    forwarded (s.log ++ ds) ++ e.outbox.waiting = s.queued ∧ e.outbox.isOpen = true := by
  obtain ⟨e₀, hreg, hw, hopen⟩ := queue_turn htakes he
  -- what it forwards was at the front of its queue
  obtain ⟨hall, hopen₀⟩ := h.queue e₀ hreg
  rw [forwarded_append, List.append_assoc, ← hw, ← hopen]
  exact ⟨hall, hopen₀⟩

/-- **A turn keeps the deeds true.** -/
theorem faithful_of_takes (htakes : Takes source now s.pool s.connection ds t) (h : Faithful first s) :
    Faithful first
      { s with pool := t.pool s.pool, connection := t.connection, log := s.log ++ ds } := by
  have hkept := kept_turn htakes
  have hlimit : limit (t.pool s.pool) = limit s.pool := limit_eq hkept.settings
  have hover : t.connection.inputOver = s.connection.inputOver := by
    rw [inputOver, inputOver, hkept.miner.finished, hkept.miner.gone]
  obtain ⟨hclient, hout⟩ := output_turn htakes h.client
  obtain ⟨hframer, hsuffix, _⟩ := heard_turn htakes h.framer
  obtain ⟨horder, hdue⟩ := inOrder_turn htakes
  obtain ⟨hcontinues, hsession⟩ := session_turn htakes
  constructor
  case client => exact hclient
  case written =>
    intro hb
    obtain ⟨hold, hnew⟩ := finished_append.mp hb
    rw [lines_append, ← h.written hold]
    exact hout hnew
  case framer => rw [hlimit]; exact hframer
  case suffix => exact hsuffix.trans h.suffix
  case heard =>
    intro rest hrest
    rw [hover] at hrest
    rw [itemsOf, owed, hlimit]
    exact heard_of_takes h htakes rest hrest
  case hungUp =>
    intro hm
    rw [hover, itemsOf, hlimit]
    rcases List.mem_append.mp hm with hold | hnew
    · -- it was over before, so nothing was done
      rw [eq_nil_of_closed h htakes hold, List.append_nil]
      exact h.hungUp hold
    · -- it is over now, and nothing is owed any more
      obtain ⟨ho, hnone⟩ := owed_of_hungUp htakes h.framer hnew
      have hend := heard_of_takes h htakes [] (fun _ => rfl)
      rw [hnone, List.append_nil, List.append_nil] at hend
      exact ⟨ho, hend.symm⟩
  case queue =>
    intro e he
    rw [hkept.id] at he
    exact queue_of_takes h htakes he
  case taken =>
    by_cases hf : forwarded ds = []
    · rw [forwarded_append, hf, List.append_nil]
      exact h.taken
    · obtain ⟨e, he⟩ := registered_of_forwarded htakes hf
      exact ⟨e.outbox.waiting, (queue_of_takes h htakes he).1⟩
  case inOrder =>
    refine inOrder_append.mpr ⟨h.inOrder, ?_⟩
    rw [h.due]
    exact horder
  case due => rw [dueAfter_append, h.due]; exact hdue
  case continues =>
    refine continues_append.mpr ⟨h.continues, ?_⟩
    rw [← h.session]
    exact hcontinues
  case session => rw [sessionAfter_append, ← h.session]; exact hsession

end Turn

/-- Being cut off keeps the deeds true, though something may be left unwritten. -/
theorem faithful_of_cut (h : Faithful first s) (hopen : s.connection.isOpen = true) :
    Faithful first { s with
      pool := (s.connection.close s.pool none none).pool
      connection := (s.connection.close s.pool none none).connection
      log := s.log ++ [.ended .cutOff] } := by
  have hheard : heard (s.log ++ [.ended .cutOff]) = heard s.log := by
    rw [heard_append]
    exact List.append_nil _
  have hforwarded : forwarded (s.log ++ [.ended .cutOff]) = forwarded s.log := by
    rw [forwarded_append]
    exact List.append_nil _
  constructor
  case client => exact h.client
  case written =>
    intro hf
    exact absurd ((finished_append.mp hf).2 .cutOff (List.mem_singleton.mpr rfl)) (by decide)
  case framer => exact h.framer
  case suffix => exact h.suffix
  case heard => rw [hheard]; exact h.heard
  case hungUp =>
    intro hm
    rw [hheard]
    rcases List.mem_append.mp hm with hold | hnew
    · exact h.hungUp hold
    · exact absurd (List.mem_singleton.mp hnew) (by simp)
  case queue =>
    intro e he
    have hsome : (s.connection.close s.pool none none).pool.roster.get? s.connection.id = some e := he
    rw [get?_close s.pool s.connection none none] at hsome
    exact absurd hsome (by simp)
  case taken => rw [hforwarded]; exact h.taken
  case inOrder =>
    refine inOrder_append.mpr ⟨h.inOrder, ?_⟩
    rw [h.due]
    cases hp : s.connection.phase with
    | waiting => exact admits_nothing (by simp) (by simp)
    | writing left afterwards =>
        cases afterwards with
        | nothing => exact admits_nothing (by simp) (by simp)
        | report accepted => exact ⟨.inr ⟨.cutOff, rfl, rfl⟩, trivial⟩
    | closed fault => rw [isOpen, hp] at hopen; exact absurd hopen (by simp)
  case due => rw [dueAfter_append]; rfl
  case continues => exact continues_append.mpr ⟨h.continues, by simp, trivial⟩
  case session => rw [sessionAfter_append]; exact h.session

/-- **Every step keeps the deeds true.** -/
theorem faithful_step (h : Faithful first s) (hstep : Step s s') : Faithful first s' := by
  cases hstep with
  | turn source now =>
      exact faithful_of_takes (turn_takes source now s.pool s.connection) h
  | arrives bs hopen =>
      refine { h with framer := ?_, suffix := ?_, heard := ?_, hungUp := ?_ }
      · exact Framer.sound_feed h.framer bs
      · obtain ⟨before, hb⟩ := h.suffix
        refine ⟨before, ?_⟩
        show before ++ (s.connection.framer.buffer ++ bs) = s.stream ++ bs
        rw [← List.append_assoc, hb]
      · intro rest _
        -- the new bytes were among those that might arrive
        have hrest := h.heard (bs ++ rest) (fun ho => absurd (hopen.symm.trans ho) (by simp))
        rw [← List.append_assoc, owed, ← Framer.owed_feed] at hrest
        exact hrest
      · intro hm
        exact absurd (hopen.symm.trans (h.hungUp hm).1) (by simp)
  | finishes =>
      refine { h with heard := ?_, hungUp := ?_ }
      · exact fun rest hrest => h.heard rest (fun _ => hrest rfl)
      · exact fun hm => ⟨rfl, (h.hungUp hm).2⟩
  | vanishes =>
      refine { h with heard := ?_, hungUp := ?_ }
      · exact fun rest hrest => h.heard rest (fun _ => hrest (Bool.or_true _))
      · exact fun hm => ⟨Bool.or_true _, (h.hungUp hm).2⟩
  | reads room =>
      refine { h with client := fun _ => rfl, written := ?_ }
      intro hb
      rw [← h.written hb]
      show s.connection.client.received ++ s.connection.client.underway ++ [] ++ s.connection.unsent = _
      rw [List.append_nil]
      rfl
  | stops => exact { h with }
  | cut hopen => exact faithful_of_cut h hopen
  | @meanwhile p ms hothers =>
      have hlimit : limit p = limit s.pool := limit_eq hothers.settings
      refine { h with framer := ?_, heard := ?_, hungUp := ?_, queue := ?_, taken := ?_ }
      · show Framer.Sound (limit p) _
        rw [hlimit]
        exact h.framer
      · show ∀ rest, _ → items (limit p) _ _ = _ ++ Framer.owed (limit p) _ _ _
        rw [hlimit]
        exact h.heard
      · show _ → _ ∧ _ = items (limit p) _ _
        rw [hlimit]
        exact h.hungUp
      · intro e' he
        obtain ⟨e, hreg, hw, hopen⟩ := hothers.adds e' he
        obtain ⟨hqueued, hopen₀⟩ := h.queue e hreg
        refine ⟨?_, hopen.trans hopen₀⟩
        show forwarded s.log ++ e'.outbox.waiting = s.queued ++ ms
        rw [hw, ← List.append_assoc, hqueued]
      · exact h.taken.trans (List.prefix_append _ _)

theorem faithful_reachable {p : Pool} {now : Instant} {id : Nat} {peer : Socket} {room : Option Nat}
    (h : Reachable (start p now id peer room) s) : Faithful (p.session id) s := by
  induction h with
  | refl => exact faithful_start p now id peer room
  | tail _ hstep ih => exact faithful_step ih hstep

end Scene
end MiningPool

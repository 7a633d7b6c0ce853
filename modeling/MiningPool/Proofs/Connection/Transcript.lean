import Mathlib.Logic.Function.Iterate
import MiningPool.Proofs.Connection.Patience
import MiningPool.Proofs.Connection.Scene
import MiningPool.Proofs.Wire.Lines

/-!
# The transcript of a connection

What a miner and the other tasks can rely on, whatever happens and in whatever order. The deeds of a
connection are one list. Read for what it says it is what was written, read for what it hears it is the lines
of the miner, and read for what it forwards it is the queue, each from the first on and in order. The list
also says which answer belongs to which line, and that a ban comes last.
-/

namespace MiningPool

open Json Net Wire Connection

namespace Scene

variable {first : Session} {s : Scene}

/-! ## What can be relied on -/

/-- A connection can do nothing now. -/
def Waits (source : Source) (now : Instant) (s : Scene) : Prop :=
  ∃ c, s.connection.turn source now s.pool = .waits c

/-- A connection has nothing to do and is not even writing. -/
def AtRest (s : Scene) : Prop := s.connection.phase = .waiting ∧ ∃ source now, s.Waits source now

/-- What the deeds of a connection have to do with the lines of its miner, with its queue, and with what is
written to its miner. -/
structure Transcript (first : Session) (s : Scene) : Prop where
  /-- Every message is one whole line. -/
  whole : ∀ m ∈ said s.log, IsLine m.bytes
  /-- The messages of the deeds and no others are written, in order, unless a write failed or was cut off. -/
  written : Finished s.log →
    s.connection.client.received ++ s.connection.client.underway ++ s.connection.unsent
      = (said s.log).flatMap Message.bytes
  /-- The lines seen to are the first ones of the stream, in order, whatever else may arrive. -/
  heard : ∀ rest, (s.connection.inputOver = true → rest = []) →
    Connection.heard s.log <+: itemsOf s.pool (s.stream ++ rest)
  /-- A request is carried out for the session that those before it left. -/
  served : ∀ earlier source p session r later,
    s.log = earlier ++ .served source p session r :: later → session = sessionAfter first earlier
  /-- The messages taken from the queue are the first ones that were queued, in order. -/
  forwarded : Connection.forwarded s.log <+: s.queued
  /-- All the others still wait there. -/
  waiting : ∀ e, s.pool.roster.get? s.connection.id = some e →
    Connection.forwarded s.log ++ e.outbox.waiting = s.queued
  /-- A connection with nothing to do has written all that was queued and has seen to all lines but one that
  has not ended. -/
  rested : s.AtRest →
    (Connection.forwarded s.log = s.queued)
      ∧ ∃ tail, tail <:+ s.stream ∧ lineFeed ∉ tail ∧ tail.length ≤ limit s.pool
        ∧ (itemsOf s.pool s.stream = Connection.heard s.log
          ∨ itemsOf s.pool s.stream
            = Connection.heard s.log ++ (readLine Request.read? tail).toList)
  /-- A connection that is left to itself can do nothing more after so many turns. -/
  settles : ∀ source now, ∃ n < patience s.pool s.connection,
    Waits source now ((turn source now)^[n] s)
  /-- When a miner has hung up all its lines have been seen to, the last one as well. -/
  hungUp : .ended .hungUp ∈ s.log → Connection.heard s.log = itemsOf s.pool s.stream
  /-- A connection is over when a deed says so, and then has nothing left to write. -/
  closed : (s.connection.isOpen = false ↔ ∃ why, .ended why ∈ s.log)
    ∧ (s.connection.isOpen = false → s.connection.unsent = [])
  /-- Nothing is done after the end. -/
  last : ∀ earlier why later, s.log = earlier ++ .ended why :: later → later = []
  /-- A line that admission would have the address banned for is the last one. -/
  noted : ∀ earlier fault later, s.log = earlier ++ .noted fault .banned :: later →
    later = [.ended .banned]
  /-- A share is reported right after the request it came in was answered, and if admission would have the
  address banned for it, it is the last one. -/
  reported : ∀ earlier accepted verdict later,
    s.log = earlier ++ .reported accepted verdict :: later →
      (∃ log source p session r, earlier = log ++ [.served source p session r]
        ∧ shareBetween session (p.answer source session r).session = .report accepted)
      ∧ (verdict = .banned → later = [.ended .banned])
  /-- Nothing else leads to a ban. -/
  banned : ∀ earlier later, s.log = earlier ++ .ended .banned :: later →
    (∃ log fault, earlier = log ++ [.noted fault .banned])
      ∨ ∃ log accepted, earlier = log ++ [.reported accepted .banned]

/-- A connection at rest has no message that waits and only an unended line. -/
theorem rested_of_faithful (h : Faithful first s) (hrest : s.AtRest) :
    forwarded s.log = s.queued
      ∧ ∃ tail, tail <:+ s.stream ∧ lineFeed ∉ tail ∧ tail.length ≤ limit s.pool
        ∧ (itemsOf s.pool s.stream = heard s.log
          ∨ itemsOf s.pool s.stream = heard s.log ++ (readLine Request.read? tail).toList) := by
  obtain ⟨hphase, source, now, c', hwaits⟩ := hrest
  have htakes := turn_takes source now s.pool s.connection
  rw [hwaits] at htakes
  generalize deeds source now s.pool s.connection = ds at htakes
  cases htakes with
  | stays hp => rw [hphase] at hp; exact absurd hp (by simp)
  | writes hp hg hw hr => rw [hphase] at hp; exact absurd hp (by simp)
  | @waits f hl hn he hd =>
      constructor
      · obtain ⟨e, hreg⟩ := registered_of_attends hl.toAttends
        obtain ⟨hqueued, hopen⟩ := h.queue e hreg
        rw [Roster.waiting_eq_nil s.pool.roster _ hreg hopen hl.take, List.append_nil] at hqueued
        exact hqueued
      · obtain ⟨_, hsuffix, howed, hdry⟩ := nextLine_honest h.framer hn
        have hopen : ¬ s.connection.inputOver = true := by
          rw [Bool.not_eq_true]
          exact he
        have hf := hdry rfl
        rw [if_neg hopen] at hf
        refine ⟨f.buffer, hsuffix.trans h.suffix, hf.unended, hf.length_le, ?_⟩
        -- nothing more can be told of the stream, so one unended line at most is left
        have hall := h.heard [] (fun _ => rfl)
        rw [List.append_nil, howed [] (fun _ => rfl), owed, Framer.owed_of_dry hf] at hall
        split at hall
        · rw [List.append_nil, Option.toList_none, List.append_nil] at hall
          exact .inl hall
        · exact .inr hall

/-- A connection that is left to itself soon can do nothing more. -/
theorem waits_of_effort_lt (source : Source) (now : Instant) :
    ∀ (n : Nat) (s : Scene), s.connection.effort s.pool < n →
      ∃ k < n, Waits source now ((turn source now)^[k] s) := by
  intro n
  induction n with
  | zero => intro s hn; exact absurd hn (Nat.not_lt_zero _)
  | succ n ih =>
      intro s hn
      have htakes := turn_takes source now s.pool s.connection
      cases ht : s.connection.turn source now s.pool with
      | waits c => exact ⟨0, Nat.succ_pos n, c, ht⟩
      | acts progress =>
          rw [ht] at htakes
          have hlt := effort_lt_of_acts htakes
          have hless : (s.turn source now).connection.effort (s.turn source now).pool < n := by
            rw [turn, ht]
            exact Nat.lt_of_lt_of_le hlt (Nat.le_of_lt_succ hn)
          obtain ⟨k, hk, hwaits⟩ := ih (s.turn source now) hless
          exact ⟨k + 1, Nat.succ_lt_succ hk, hwaits⟩

/-- A connection is over just when its log has come to an end. -/
theorem isOpen_of_faithful (h : Faithful first s) :
    s.connection.isOpen = false ↔ ∃ why, .ended why ∈ s.log := by
  constructor
  · intro hclosed
    have hdue := h.due
    cases hp : s.connection.phase with
    | waiting => rw [isOpen, hp] at hclosed; exact absurd hclosed (by simp)
    | writing left afterwards => rw [isOpen, hp] at hclosed; exact absurd hclosed (by simp)
    | closed fault =>
        rw [hp] at hdue
        obtain ⟨log, d, hlog, hd⟩ := dueAfter_ne (by simp [dueIn]) hdue
        obtain ⟨why, rfl⟩ := ended_of_due hd
        exact ⟨why, by rw [hlog]; simp⟩
  · rintro ⟨why, hw⟩
    obtain ⟨fault, hp⟩ := closed_of_ended h hw
    rw [isOpen, hp]

/-- True deeds make a transcript. -/
theorem transcript_of_faithful (h : Faithful first s) : Transcript first s := by
  -- no turn ends with a ban still due
  have hsafe : dueAfter .nothing s.log ≠ .ban := by
    rw [h.due]
    cases s.connection.phase with
    | waiting => simp [dueIn]
    | writing left afterwards => cases afterwards <;> simp [dueIn]
    | closed fault => simp [dueIn]
  constructor
  case whole => exact fun m _ => isLine_bytes m
  case written => exact h.written
  case heard =>
    intro rest hrest
    rw [h.heard rest hrest]
    exact List.prefix_append _ _
  case served =>
    intro earlier source q session r later hlog
    have hc := h.continues
    rw [hlog] at hc
    exact session_of_served hc
  case forwarded => exact h.taken
  case waiting => exact fun e he => (h.queue e he).1
  case rested => exact rested_of_faithful h
  case settles =>
    exact fun source now => waits_of_effort_lt source now _ s (effort_lt_patience s.pool s.connection)
  case hungUp => exact fun hm => (h.hungUp hm).2
  case closed =>
    refine ⟨isOpen_of_faithful h, fun hclosed => ?_⟩
    obtain ⟨why, hw⟩ := (isOpen_of_faithful h).mp hclosed
    obtain ⟨fault, hp⟩ := closed_of_ended h hw
    exact unsent_of_closed hp
  case last =>
    intro earlier why later hlog
    exact eq_nil_of_ended (hlog ▸ h.inOrder)
  case noted =>
    intro earlier fault later hlog
    exact eq_banned_of_due (hlog ▸ h.inOrder) rfl (hlog ▸ hsafe)
  case reported =>
    intro earlier accepted verdict later hlog
    refine ⟨served_of_reported rfl (hlog ▸ h.inOrder), fun hv => ?_⟩
    subst hv
    exact eq_banned_of_due (hlog ▸ h.inOrder) rfl (hlog ▸ hsafe)
  case banned =>
    intro earlier later hlog
    exact noted_or_reported_of_banned (hlog ▸ h.inOrder)

/--
**The transcript of a connection.**

Whatever bytes its miner sends and in whatever pieces, whatever others queue for it and do to the pool in
between, and whenever it takes its turns: what is written are the lines of its deeds; these see to the lines of
the miner and forward the queue, both in order and without a gap; and a ban comes last.
-/
theorem transcript {p : Pool} {now : Instant} {id : Nat} {peer : Socket} {room : Option Nat}
    (hreach : Reachable (start p now id peer room) s) : Transcript (p.session id) s :=
  transcript_of_faithful (faithful_reachable hreach)

theorem reachable_turns (source : Source) (now : Instant) :
    ∀ (n : Nat) (s : Scene), Reachable s ((turn source now)^[n] s) := by
  intro n
  induction n with
  | zero => exact fun s => .refl
  | succ n ih => exact fun s => (ih (s.turn source now)).head (.turn source now)

/-- A miner logs in, and what it sends next is larger than the limit. While its answer and its job have still to be
written, others queue a message for it. It gets the answer with the job, then the message, and then it is told that its
line was too large. -/
theorem transcript_of_a_login :
    let settings : Settings :=
      { Settings.standard with mining := { Settings.Mining.standard with maxRequestSize := 64 } }
    let source : Source := ⟨fun _ => .ok default, fun _ => .ok true⟩
    let login : Request := ⟨.ofNat 7, Method.authorize, .array [.string "wallet.rig"]⟩
    let line : Bytes := Utf8.encodeText "[7,\"mining.authorize\",[\"wallet.rig\"]]" ++ [lineFeed]
    let m : Message := .notification (.difficulty 500)
    let p := Pool.fresh settings
    let asked := ((start p 0 1 default none).arrive (line ++ List.replicate 65 0x78)).turn source 0
    let told := { asked with
      pool := { asked.pool with roster := (asked.pool.roster.sendTo 1 m).2 }
      queued := asked.queued ++ [m] }
    let s := (turn source 0)^[5] told
    Transcript (p.session 1) s
      ∧ (forwarded told.log = [] ∧ told.connection.client.received = [])
      ∧ heard s.log = [.message login, .faulty (.tooLarge 64)]
      ∧ forwarded s.log = [m]
      ∧ s.connection.client.received
        = [.response ⟨.ofNat 7, .bool true, none⟩, .notification (Job.of 1 default).notification, m,
            refusal 64].flatMap Message.bytes := by
  intro settings source login line m p asked told s
  have hasked : Reachable (start p 0 1 default none) asked :=
    (Relation.ReflTransGen.single (.arrives _ rfl)).tail (.turn source 0)
  -- the message is taken, for its queue has room
  have htaken : (asked.pool.roster.sendTo 1 m).1 = true := by decide +kernel
  have hid : asked.connection.id = 1 := by decide +kernel
  have hpush : Elsewhere 1 asked.pool told.pool _ := elsewhere_push 1 m
  rw [if_pos ⟨rfl, htaken⟩, ← hid] at hpush
  have htold : Step asked told := .meanwhile hpush
  have hreach : Reachable (start p 0 1 default none) s := (hasked.tail htold).trans (reachable_turns source 0 5 told)
  exact ⟨transcript hreach, by decide +kernel, by decide +kernel, by decide +kernel, by decide +kernel⟩

end Scene
end MiningPool

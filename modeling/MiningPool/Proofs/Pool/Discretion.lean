import MiningPool.Pool.Delivery

/-!
# What a work source says when it fails

A fault of the work source tells why there is no work or no verdict. Nothing of that goes any further: a round or a
login only asks whether there is work, and a miner only learns that its share could not be submitted. To `hush` an
answer is to put one and the same fault in the place of any other. All that comes of a source comes of the hushed one
as well, so two sources whose answers differ in their faults alone cannot be told apart.
-/

namespace MiningPool

open Net Wire

/-- An answer with nothing said of why it failed. -/
def hush {α : Type} : Except Fault α → Except Fault α
  | .ok a => .ok a
  | .error _ => .error (.workSource "")

theorem hush_eq_of_toOption_eq {α : Type} {x y : Except Fault α} (h : x.toOption = y.toOption) : hush x = hush y := by
  cases x with
  | ok a =>
      cases y with
      | ok b => exact congrArg hush (congrArg Except.ok (Option.some.inj h))
      | error e => exact absurd h (Option.some_ne_none a)
  | error e =>
      cases y with
      | ok b => exact absurd h.symm (Option.some_ne_none b)
      | error f => rfl

namespace Source

/-- Two sources give the same work and the same verdicts. Where one fails so does the other, in its own way. -/
structure Alike (S T : Source) : Prop where
  fetch : ∀ seq, (S.fetch seq).toOption = (T.fetch seq).toOption
  judge : ∀ x, (S.judge x).toOption = (T.judge x).toOption

/-- The source that never says why it fails. -/
def hushed (S : Source) : Source := ⟨fun seq => hush (S.fetch seq), fun x => hush (S.judge x)⟩

theorem hushed_eq_of_alike {S T : Source} (h : S.Alike T) : S.hushed = T.hushed := by
  rw [hushed, hushed, Source.mk.injEq]
  exact ⟨funext fun seq => hush_eq_of_toOption_eq (h.fetch seq), funext fun x => hush_eq_of_toOption_eq (h.judge x)⟩

end Source

/-! ## Jobs -/

namespace Ledger

theorem mintForSession_hushed (S : Source) (l : Ledger) :
    l.mintForSession S.hushed = (hush (l.mintForSession S).1, (l.mintForSession S).2) := by
  simp only [mintForSession, Source.hushed]
  cases S.fetch l.draw.1 with
  | ok t => rfl
  | error e => rfl

theorem mint_hushed (S : Source) (l : Ledger) : l.mint S.hushed = (hush (l.mint S).1, (l.mint S).2) := by
  rw [mint, mint, mintForSession_hushed]
  rcases l.mintForSession S with ⟨made, l'⟩
  cases made with
  | ok j => rfl
  | error e => rfl

end Ledger

namespace Pool

variable (S : Source) (p : Pool)

theorem mint_hushed : p.mint S.hushed = (hush (p.mint S).1, (p.mint S).2) := by
  rw [mint, mint, Ledger.mint_hushed]

/-- A round asks whether there is work, and not why there is none. -/
theorem tick_hushed : p.tick S.hushed = p.tick S := by
  rw [tick, tick, mint_hushed]
  split
  · rfl
  · rcases p.mint S with ⟨made, q⟩
    cases made with
    | ok job => rfl
    | error e => rfl

/-- So does a login. -/
theorem jobForLogin_hushed : p.jobForLogin S.hushed = p.jobForLogin S := by
  rw [jobForLogin, jobForLogin, Ledger.mintForSession_hushed]
  rcases p.ledger.mintForSession S with ⟨made, l⟩
  cases made with
  | ok j => rfl
  | error e => rfl

end Pool

/-! ## Answers -/

/-- Two outcomes that no miner can tell apart. They may differ in the fault that the log is told of. -/
structure Outcome.Alike (o o' : Outcome) : Prop where
  messages : ∀ id, o.messages id = o'.messages id
  session : o.session = o'.session
  pool : o.pool = o'.pool
  handed : o.handed = o'.handed

theorem Outcome.Alike.refl (o : Outcome) : o.Alike o := ⟨fun _ => rfl, rfl, rfl, rfl⟩

namespace Pool

variable (S : Source) (p : Pool) (s : Session)

/-- A share that could not be submitted is counted and answered the same, whatever went wrong. -/
theorem submit_hushed (x : Submission) : (p.submit S.hushed s x).Alike (p.submit S s x) := by
  rw [submit, submit]
  split
  · exact .refl _
  · simp only [verdict, Source.hushed]
    rcases S.judge (share s x) with e | accepted
    · exact ⟨fun _ => rfl, rfl, rfl, rfl⟩
    · exact .refl _

theorem answer_hushed (r : Request) : (p.answer S.hushed s r).Alike (p.answer S s r) := by
  rw [answer, answer]
  split
  · rename_i c _
    cases c with
    | authorize username address worker =>
        rw [route, route, authorize, authorize, jobForLogin_hushed]
        exact .refl _
    | submit x => exact submit_hushed S _ s x
    | _ => exact .refl _
  · exact .refl _

end Pool

/-! ## Jobs on their way -/

namespace Minting

/-- Calls that failed say nothing of why. -/
def hushed (m : Minting) : Minting := { m with ended := m.ended.map fun e => (e.1, hush e.2) }

theorem lookup_hushed (m : Minting) (number : Nat) :
    m.hushed.ended.lookup number = (m.ended.lookup number).map hush := by
  rw [hushed]
  generalize m.ended = ended
  induction ended with
  | nil => rfl
  | cons e rest ih =>
      rw [List.map_cons, List.lookup_cons, List.lookup_cons, ih]
      split
      · rfl
      · rfl

theorem receive_hushed (m : Minting) (seq : Nat) (work : Except Fault Template) :
    m.hushed.receive seq (hush work) = (m.receive seq work).hushed := by
  rw [receive, receive]
  have hcalls : m.hushed.calls = m.calls := rfl
  rw [hcalls]
  cases m.calls.find? fun c => c.seq == seq && c.stage == .fetching with
  | none => rfl
  | some c =>
      cases work with
      | ok t => rfl
      | error e => simp [hush, hushed]

theorem advance_hushed (m : Minting) (seq : Nat) : m.hushed.advance seq = (m.advance seq).hushed := by
  rw [advance, advance]
  have hcalls : m.hushed.calls = m.calls := rfl
  rw [hcalls]
  cases m.calls.find? fun c => c.seq == seq with
  | none => rfl
  | some c =>
      rcases c with ⟨number, purpose, drawn, stage⟩
      cases stage with
      | fetching => rfl
      | storing j => rfl
      | showing j =>
          cases purpose with
          | everyone => rfl
          | session => simp [hush, hushed]
      | remembering j => simp [hush, hushed]

end Minting

namespace Delivery

/-- Jobs on their way, with nothing said of why others were not made. -/
def hushed (d : Delivery) : Delivery := { d with minting := d.minting.hushed }

/-- A move that brings work, or the failure to get some, with nothing said of why. -/
def Move.hushed : Move → Move
  | .receive seq work => .receive seq (hush work)
  | move => move

theorem gather_hushed (d : Delivery) : d.hushed.gather = d.gather.hushed := by
  rcases d with ⟨m, r, round, logins, lines⟩
  rw [gather, gather]
  rcases round with _ | ⟨number⟩ | ⟨job, ids⟩
  · rfl
  · dsimp only [hushed]
    rw [m.lookup_hushed]
    cases m.ended.lookup number with
    | none => rfl
    | some outcome =>
        cases outcome with
        | ok job => rfl
        | error e => rfl
  · rfl

theorem resolve_hushed (d : Delivery) (id : Nat) : d.hushed.resolve id = (d.resolve id).hushed := by
  rw [resolve, resolve]
  have hlogins : d.hushed.logins id = d.logins id := rfl
  rw [hlogins]
  rcases d.logins id with _ | ⟨number⟩ | ⟨job⟩
  · rfl
  · dsimp only [hushed]
    rw [d.minting.lookup_hushed]
    cases d.minting.ended.lookup number with
    | none => rfl
    | some outcome =>
        cases outcome with
        | ok job => rfl
        | error e => rfl
  · rfl

theorem beginRound_hushed (d : Delivery) : d.hushed.beginRound = d.beginRound.hushed := by
  rw [beginRound, beginRound, apply_ite hushed]
  rfl

theorem beginLogin_hushed (d : Delivery) (id : Nat) : d.hushed.beginLogin id = (d.beginLogin id).hushed := by
  rw [beginLogin, beginLogin, apply_ite hushed]
  rfl

theorem offer_hushed (d : Delivery) : d.hushed.offer = d.offer.hushed := by
  rcases d with ⟨m, r, round, logins, lines⟩
  rcases round with _ | ⟨number⟩ | ⟨job, _ | ⟨id, ids⟩⟩ <;> rfl

theorem forward_hushed (d : Delivery) (id : Nat) : d.hushed.forward id = (d.forward id).hushed := by
  rw [forward, forward, apply_ite hushed]
  refine if_congr Iff.rfl ?_ rfl
  have hroster : d.hushed.roster = d.roster := rfl
  rw [hroster]
  rcases d.roster.take id with ⟨taken, r⟩
  cases taken with
  | message m => rfl
  | _ => rfl

theorem answer_hushed (d : Delivery) (id : Nat) : d.hushed.answer id = (d.answer id).hushed := by
  rw [answer, answer]
  have hlogins : d.hushed.logins id = d.logins id := rfl
  rw [hlogins]
  rcases d.logins id with _ | ⟨number⟩ | ⟨_ | ⟨job⟩⟩ <;> rfl

/-- **Every step takes a hushed delivery to the hushed one it would have led to.** -/
theorem step_hushed (d : Delivery) (move : Move) : d.hushed.step move.hushed = (d.step move).hushed := by
  cases move with
  | gather => exact gather_hushed d
  | resolve id => exact resolve_hushed d id
  | receive seq work => exact congrArg (fun m => { d with minting := m }) (d.minting.receive_hushed seq work)
  | advance seq => exact congrArg (fun m => { d with minting := m }) (d.minting.advance_hushed seq)
  | beginRound => exact beginRound_hushed d
  | offer => exact offer_hushed d
  | beginLogin id => exact beginLogin_hushed d id
  | forward id => exact forward_hushed d id
  | answer id => exact answer_hushed d id
  | _ => rfl

theorem run_hushed (d : Delivery) (moves : List Move) :
    d.hushed.run (moves.map Move.hushed) = (d.run moves).hushed := by
  induction moves generalizing d with
  | nil => rfl
  | cons move moves ih =>
      rw [List.map_cons, run, run, List.foldl_cons, List.foldl_cons, step_hushed]
      exact ih (d.step move)

end Delivery
end MiningPool

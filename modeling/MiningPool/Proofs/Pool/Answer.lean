import MiningPool.Pool.Route

/-!
# What a request changes

A request touches its own session and, of the pool, the ledger of jobs, the tally and the meters. The ledger
only changes when a miner logs in, and only a login makes a session authorized or gives it a job.
-/

namespace MiningPool

open Wire

namespace Pool

variable (source : Source) (p : Pool) (s : Session)

theorem answer_ok {r : Request} {c : Command} (h : Command.ofRequest r = .ok c) :
    p.answer source s r = p.route source s c := by
  rw [answer, h]

theorem answer_error {r : Request} {fault : Fault} (h : Command.ofRequest r = .error fault) :
    p.answer source s r = ⟨.error fault, s, p, none⟩ := by
  rw [answer, h]

/-! ## Shares -/

/-- A share that meets an objection is counted as rejected and goes no further. -/
theorem submit_of_objection {x : Submission} {fault : Fault} (h : p.objection s x.jobId = some fault) :
    p.submit source s x
      = ⟨.error fault, s.recordShare false,
          { p.count (.share false) with tally := p.tally.share false }, none⟩ := by
  rw [submit, h]
  rfl

/-- A share that meets none is handed to the work source. -/
theorem submit_handed {x : Submission} (h : p.objection s x.jobId = none) :
    (p.submit source s x).handed = some (share s x) := by
  rw [submit, h]
  dsimp only
  split <;> rfl

/-- Whatever comes of a share, it is counted once, for the session and for the pool. -/
theorem submit_counted (x : Submission) : ∃ accepted : Bool,
    (p.submit source s x).session = s.recordShare accepted
      ∧ (p.submit source s x).pool
          = { p.count (.share accepted) with tally := p.tally.share accepted } := by
  rw [submit]
  split
  · exact ⟨false, rfl, rfl⟩
  · dsimp only
    split
    · exact ⟨true, rfl, rfl⟩
    · exact ⟨false, rfl, rfl⟩

/-! ## Logins -/

/-- The job of a login does not depend on what was counted before. -/
theorem jobForLogin_count (h : Happening) :
    ((p.count h).jobForLogin source).1 = (p.jobForLogin source).1
      ∧ ((p.count h).jobForLogin source).2.ledger = (p.jobForLogin source).2.ledger := by
  unfold jobForLogin count
  dsimp only
  cases (p.ledger.mintForSession source).1 with
  | ok j => exact ⟨rfl, rfl⟩
  | error e => exact ⟨rfl, rfl⟩

theorem jobForLogin_ok {j : Job} {l : Ledger} (h : p.ledger.mintForSession source = (.ok j, l)) :
    p.jobForLogin source = (some j, { p with ledger := l }) := by
  rw [jobForLogin, h]

theorem jobForLogin_error {e : Fault} {l : Ledger} (h : p.ledger.mintForSession source = (.error e, l)) :
    p.jobForLogin source = (l.current, ({ p with ledger := l } : Pool).count .fetchFailure) := by
  rw [jobForLogin, h]

/-! ## Any request -/

/-- Two pools that differ in no more than the ledger, the tally and the meters. -/
structure SameRooms (p q : Pool) : Prop where
  settings : p.settings = q.settings
  roster : p.roster = q.roster
  admission : p.admission = q.admission
  lastSession : p.lastSession = q.lastSession
  seats : p.seats = q.seats

theorem sameRooms_jobForLogin : SameRooms (p.jobForLogin source).2 p := by
  unfold jobForLogin
  dsimp only
  split
  · exact ⟨rfl, rfl, rfl, rfl, rfl⟩
  · exact ⟨rfl, rfl, rfl, rfl, rfl⟩

theorem sameRooms_submit (x : Submission) : SameRooms (p.submit source s x).pool p := by
  obtain ⟨accepted, _, hpool⟩ := submit_counted source p s x
  rw [hpool]
  exact ⟨rfl, rfl, rfl, rfl, rfl⟩

/-- **A request leaves the settings, the roster, admission, ids and seats alone.** -/
theorem sameRooms_answer (r : Request) : SameRooms (p.answer source s r).pool p := by
  cases hc : Command.ofRequest r with
  | error fault => rw [answer_error source p s hc]; exact ⟨rfl, rfl, rfl, rfl, rfl⟩
  | ok c =>
      rw [answer_ok source p s hc]
      cases c with
      | subscribe software => exact ⟨rfl, rfl, rfl, rfl, rfl⟩
      | authorize username address worker =>
          have h := sameRooms_jobForLogin source (p.count (.request Method.authorize))
          exact ⟨h.settings, h.roster, h.admission, h.lastSession, h.seats⟩
      | submit x =>
          have h := sameRooms_submit source (p.count (.request Method.submit)) s x
          exact ⟨h.settings, h.roster, h.admission, h.lastSession, h.seats⟩
      | ping => exact ⟨rfl, rfl, rfl, rfl, rfl⟩
      | extranonceSubscribe => exact ⟨rfl, rfl, rfl, rfl, rfl⟩
      | unknown method => exact ⟨rfl, rfl, rfl, rfl, rfl⟩

/-- A login makes the session authorized and gives it the job that is pushed, if one is. -/
theorem answer_login {r : Request} {username address worker : String}
    (h : Command.ofRequest r = .ok (.authorize username address worker)) :
    (p.answer source s r).session.authorized = true
      ∧ (p.answer source s r).session.assigned = ((p.jobForLogin source).1 <|> s.assigned)
      ∧ (p.answer source s r).pool.ledger = (p.jobForLogin source).2.ledger
      ∧ (p.answer source s r).reply
          = .ok ⟨.bool true, (p.jobForLogin source).1.toList.map Job.notification⟩ := by
  obtain ⟨hjob, hledger⟩ := jobForLogin_count source p (.request Method.authorize)
  rw [answer_ok source p s h, ← hjob, ← hledger]
  exact ⟨rfl, rfl, rfl, rfl⟩

/-- **No other request makes a session authorized, gives it a job or touches the ledger.** -/
theorem answer_other {r : Request}
    (h : ∀ username address worker, Command.ofRequest r ≠ .ok (.authorize username address worker)) :
    (p.answer source s r).session.authorized = s.authorized
      ∧ (p.answer source s r).session.assigned = s.assigned
      ∧ (p.answer source s r).pool.ledger = p.ledger := by
  cases hc : Command.ofRequest r with
  | error fault => rw [answer_error source p s hc]; exact ⟨rfl, rfl, rfl⟩
  | ok c =>
      rw [answer_ok source p s hc]
      cases c with
      | subscribe software => exact ⟨rfl, rfl, rfl⟩
      | authorize username address worker => exact absurd hc (h username address worker)
      | submit x =>
          obtain ⟨accepted, hsession, hpool⟩ :=
            submit_counted source (p.count (.request Method.submit)) s x
          show (submit source (p.count (.request Method.submit)) s x).session.authorized = _
            ∧ (submit source (p.count (.request Method.submit)) s x).session.assigned = _
            ∧ (submit source (p.count (.request Method.submit)) s x).pool.ledger = _
          rw [hsession, hpool, Session.recordShare]
          split
          · exact ⟨rfl, rfl, rfl⟩
          · exact ⟨rfl, rfl, rfl⟩
      | ping => exact ⟨rfl, rfl, rfl⟩
      | extranonceSubscribe => exact ⟨rfl, rfl, rfl⟩
      | unknown method => exact ⟨rfl, rfl, rfl⟩

end Pool
end MiningPool

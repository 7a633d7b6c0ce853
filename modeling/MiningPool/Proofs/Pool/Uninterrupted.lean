import MiningPool.Proofs.Pool.JobOrder

/-!
# Calls, rounds and logins without interruption

Step by step is how jobs are made and brought to miners when many things go on at once. If nothing comes between
the steps of a call, what comes of it is what the ledger does in one go. So a round without interruption is a
`Pool.tick`, and what a login without interruption writes are the pushes of `Pool.authorize`.
-/

namespace MiningPool

open Net Wire

/-! ## Calls -/

/-- The job of a purpose, made in one go. -/
def Ledger.mintFor (source : Source) (l : Ledger) : Purpose → Except Fault Job × Ledger
  | .everyone => l.mint source
  | .session => l.mintForSession source

namespace Minting

/-- With one more call under way. -/
def atWork (m : Minting) (c : Call) : Minting := { m with calls := m.calls ++ [c] }

section AtWork

variable {m : Minting} {c : Call}

theorem find?_atWork {p : Call → Bool} (hapart : ∀ d ∈ m.calls, d.seq ≠ c.seq)
    (hseq : ∀ d, p d = true → d.seq = c.seq) (hc : p c = true) : (m.atWork c).calls.find? p = some c := by
  have hnone : m.calls.find? p = none := List.find?_eq_none.mpr fun d hd hp => hapart d hd (hseq d hp)
  rw [atWork, List.find?_append, hnone, Option.none_or, List.find?_cons_of_pos hc]

theorem moved_atWork (hapart : ∀ d ∈ m.calls, d.seq ≠ c.seq) (l : Ledger) (s : Stage) :
    (m.atWork c).moved c.seq l s = atWork { m with ledger := l } { c with stage := s } := by
  have hothers : m.calls.map (fun d => if d.seq = c.seq then { d with stage := s } else d) = m.calls := by
    refine (List.map_congr_left fun d hd => ?_).trans (List.map_id _)
    exact if_neg (hapart d hd)
  rw [moved, atWork, atWork, List.map_append, hothers, List.map_singleton, if_pos rfl]

theorem left_atWork (hapart : ∀ d ∈ m.calls, d.seq ≠ c.seq) (l : Ledger) (outcome : Except Fault Job) :
    (m.atWork c).left l c outcome = { m with ledger := l, ended := m.ended ++ [(c.number, outcome)] } := by
  have hothers : m.calls.filter (·.seq != c.seq) = m.calls :=
    List.filter_eq_self.mpr fun d hd => bne_iff_ne.mpr (hapart d hd)
  rw [left, atWork, List.filter_append, hothers, List.filter_cons_of_neg (by simp), List.filter_nil,
    List.append_nil]

/-- The work of a call under way comes in, or its fetch fails. -/
theorem receive_atWork (hapart : ∀ d ∈ m.calls, d.seq ≠ c.seq) (hs : c.stage = .fetching)
    (work : Except Fault Template) :
    (m.atWork c).receive c.seq work =
      match work with
      | .error e => { m with ended := m.ended ++ [(c.number, .error e)] }
      | .ok t => m.atWork { c with stage := .storing (Job.of c.seq t) } := by
  have hfind : (m.atWork c).calls.find? (fun d => d.seq == c.seq && d.stage == .fetching) = some c := by
    refine find?_atWork hapart (fun d hd => ?_) ?_
    · exact beq_iff_eq.mp (Bool.and_eq_true_iff.mp hd).1
    · rw [hs]
      simp
  rw [receive, hfind]
  cases work with
  | error e => exact left_atWork hapart m.ledger (.error e)
  | ok t => exact moved_atWork hapart m.ledger _

/-- A call under way takes its next step. -/
theorem advance_atWork (hapart : ∀ d ∈ m.calls, d.seq ≠ c.seq) :
    (m.atWork c).advance c.seq =
      match c.stage, c.purpose with
      | .fetching, _ => m.atWork c
      | .storing j, _ => atWork { m with ledger := m.ledger.store j } { c with stage := .showing j }
      | .showing j, .everyone => atWork { m with ledger := m.ledger.gauge j } { c with stage := .remembering j }
      | .showing j, .session => { m with ledger := m.ledger.gauge j, ended := m.ended ++ [(c.number, .ok j)] }
      | .remembering j, _ => { m with ledger := m.ledger.remember j, ended := m.ended ++ [(c.number, .ok j)] } := by
  have hfind : (m.atWork c).calls.find? (fun d => d.seq == c.seq) = some c :=
    find?_atWork hapart (fun d hd => beq_iff_eq.mp hd) (beq_iff_eq.mpr rfl)
  rw [advance, hfind]
  obtain ⟨number, purpose, seq, stage⟩ := c
  cases stage with
  | fetching => rfl
  | storing j => exact moved_atWork hapart _ _
  | showing j =>
      cases purpose with
      | everyone => exact moved_atWork hapart _ _
      | session => exact left_atWork hapart _ (.ok j)
  | remembering j => exact left_atWork hapart _ (.ok j)

/-- A number that no call has drawn changes nothing. -/
theorem advance_apart {seq : Nat} (hapart : ∀ d ∈ m.calls, d.seq ≠ seq) : m.advance seq = m := by
  have hfind : m.calls.find? (fun d => d.seq == seq) = none :=
    List.find?_eq_none.mpr fun d hd hp => hapart d hd (beq_iff_eq.mp hp)
  rw [advance, hfind]

/-- A call that has got its work goes on to its end. -/
theorem advances_atWork {number seq : Nat} {j : Job} (hapart : ∀ d ∈ m.calls, d.seq ≠ seq) (purpose : Purpose) :
    (((m.atWork ⟨number, purpose, seq, .storing j⟩).advance seq).advance seq).advance seq =
      { m with
        ledger := match purpose with
          | .everyone => ((m.ledger.store j).gauge j).remember j
          | .session => (m.ledger.store j).gauge j
        ended := m.ended ++ [(number, .ok j)] } := by
  let stored : Minting := { m with ledger := m.ledger.store j }
  let shown : Minting := { m with ledger := (m.ledger.store j).gauge j }
  have hfirst : (m.atWork ⟨number, purpose, seq, .storing j⟩).advance seq
      = stored.atWork ⟨number, purpose, seq, .showing j⟩ :=
    advance_atWork (c := ⟨number, purpose, seq, .storing j⟩) hapart
  rw [hfirst]
  cases purpose with
  | everyone =>
      have hsecond : (stored.atWork ⟨number, .everyone, seq, .showing j⟩).advance seq
          = shown.atWork ⟨number, .everyone, seq, .remembering j⟩ :=
        advance_atWork (m := stored) (c := ⟨number, .everyone, seq, .showing j⟩) hapart
      rw [hsecond]
      exact advance_atWork (m := shown) (c := ⟨number, .everyone, seq, .remembering j⟩) hapart
  | session =>
      have hsecond : (stored.atWork ⟨number, .session, seq, .showing j⟩).advance seq
          = { shown with ended := m.ended ++ [(number, .ok j)] } :=
        advance_atWork (m := stored) (c := ⟨number, .session, seq, .showing j⟩) hapart
      rw [hsecond]
      exact advance_apart (m := { shown with ended := m.ended ++ [(number, .ok j)] }) hapart

theorem complete_apart {seq : Nat} (hapart : ∀ d ∈ m.calls, d.seq ≠ seq) (work : Except Fault Template) :
    m.complete seq work = m := by
  have hfind : m.calls.find? (fun d => d.seq == seq && d.stage == .fetching) = none :=
    List.find?_eq_none.mpr fun d hd hp => hapart d hd (beq_iff_eq.mp (Bool.and_eq_true_iff.mp hp).1)
  have hreceive : m.receive seq work = m := by rw [receive, hfind]
  rw [complete, hreceive, advance_apart hapart, advance_apart hapart, advance_apart hapart]

end AtWork

variable {m : Minting}

theorem Orderly.apart_next (h : Orderly m) : ∀ c ∈ m.calls, c.seq ≠ m.started + 1 := by
  intro c hc
  have := (h.numbered c hc).2
  omega

/-- The outcome of a call that is the last to have ended. -/
theorem Orderly.lookup_next (h : Orderly m) (outcome : Except Fault Job) :
    (m.ended ++ [(m.started + 1, outcome)]).lookup (m.started + 1) = some outcome := by
  have hnone : m.ended.lookup (m.started + 1) = none := by
    refine List.lookup_eq_none_iff.mpr fun e he => ?_
    have := h.ended_le e he
    rw [bne_iff_ne]
    omega
  rw [List.lookup_append, hnone, Option.none_or, List.lookup_cons_self]

/-- **A call that goes on to its end without interruption does what the ledger does in one go.** -/
theorem complete_start (h : Orderly m) (source : Source) (purpose : Purpose) :
    (m.start purpose).complete (m.started + 1) (source.fetch (m.started + 1)) =
      { m with
        ledger := (m.ledger.mintFor source purpose).2
        started := m.started + 1
        ended := m.ended ++ [(m.started + 1, (m.ledger.mintFor source purpose).1)] } := by
  have hseq : m.ledger.lastSeq + 1 = m.started + 1 := congrArg (· + 1) h.counted
  let m₁ : Minting := { m with ledger := m.ledger.draw.2, started := m.started + 1 }
  have hapart : ∀ d ∈ m₁.calls, d.seq ≠ m.started + 1 := h.apart_next
  have hstart : m.start purpose = m₁.atWork ⟨m.started + 1, purpose, m.ledger.lastSeq + 1, .fetching⟩ := rfl
  have hmint : m.ledger.mintForSession source =
      match source.fetch (m.ledger.lastSeq + 1) with
      | .error e => (.error e, m.ledger.draw.2)
      | .ok t =>
        let j := Job.of (m.ledger.lastSeq + 1) t
        (.ok j, (m.ledger.draw.2.store j).gauge j) := rfl
  rw [hseq] at hstart hmint
  rw [complete, hstart]
  cases hwork : source.fetch (m.started + 1) with
  | error e =>
      let failed : Minting := { m₁ with ended := m.ended ++ [(m.started + 1, .error e)] }
      have hreceive : (m₁.atWork ⟨m.started + 1, purpose, m.started + 1, .fetching⟩).receive (m.started + 1)
          (.error e) = failed :=
        receive_atWork (c := ⟨m.started + 1, purpose, m.started + 1, .fetching⟩) hapart rfl (.error e)
      -- the call is over, and moves of its number change nothing
      have hstay : failed.advance (m.started + 1) = failed := advance_apart hapart
      have hfor : m.ledger.mintFor source purpose = (.error e, m.ledger.draw.2) := by
        rw [hwork] at hmint
        cases purpose with
        | everyone => rw [Ledger.mintFor, Ledger.mint, hmint]
        | session => exact hmint
      rw [hreceive, hstay, hstay, hstay, hfor]
  | ok t =>
      have hreceive : (m₁.atWork ⟨m.started + 1, purpose, m.started + 1, .fetching⟩).receive (m.started + 1)
          (.ok t) = m₁.atWork ⟨m.started + 1, purpose, m.started + 1, .storing (Job.of (m.started + 1) t)⟩ :=
        receive_atWork (c := ⟨m.started + 1, purpose, m.started + 1, .fetching⟩) hapart rfl (.ok t)
      rw [hreceive, advances_atWork hapart]
      rw [hwork] at hmint
      cases purpose with
      | everyone => rw [Ledger.mintFor, Ledger.mint, hmint]
      | session => rw [Ledger.mintFor, hmint]

end Minting

/-! ## Rounds -/

/-- What a tick does to the ledger and to the roster, if anyone is connected. -/
theorem Pool.tick_made (source : Source) {p : Pool} (hsize : p.roster.size ≠ 0) :
    (p.tick source).2.ledger = (p.ledger.mint source).2
      ∧ (p.tick source).2.roster =
        match (p.ledger.mint source).1 with
        | .error _ => p.roster
        | .ok job => (p.roster.broadcast (.notification job.notification)).2 := by
  rw [tick, if_neg hsize, mint]
  rcases p.ledger.mint source with ⟨made, l⟩
  cases made with
  | error e => exact ⟨rfl, rfl⟩
  | ok job => exact ⟨rfl, rfl⟩

namespace Delivery

variable {d : Delivery}

theorem run_append (d : Delivery) (xs ys : List Move) : d.run (xs ++ ys) = (d.run xs).run ys :=
  List.foldl_append

/-- The moves that take the call of a number to its end. -/
def callMoves (source : Source) (number : Nat) : List Move :=
  [.receive number (source.fetch number), .advance number, .advance number, .advance number]

theorem run_callMoves (d : Delivery) (source : Source) (number : Nat) :
    d.run (callMoves source number)
      = { d with minting := d.minting.complete number (source.fetch number) } := rfl

/-- A job is offered to some connections, one after the other, and the round is over. -/
theorem run_offers (job : Job) (ids : List Nat) : ∀ (d : Delivery) (report : DeliveryReport),
    d.round = some (.offering job ids) →
      d.run (List.replicate (ids.length + 1) .offer) =
        { d with
          roster := (Roster.offerAll (.notification job.notification) ids (report, d.roster)).2
          round := none } := by
  induction ids with
  | nil =>
      intro d report hround
      show d.offer = _
      rw [offer, hround]
      rfl
  | cons id ids ih =>
      intro d report hround
      have hoffer : d.offer = { d with
          roster := (d.roster.offer id (.notification job.notification)).2
          round := some (.offering job ids) } := by
        rw [offer, hround]
      show d.offer.run (List.replicate (ids.length + 1) .offer) = _
      rw [hoffer]
      exact ih _ _ rfl

/-- Without a round nothing is offered. -/
theorem run_offers_idle (hround : d.round = none) (n : Nat) : d.run (List.replicate n .offer) = d := by
  have hoffer : d.offer = d := by rw [offer, hround]
  induction n with
  | zero => rfl
  | succ n ih =>
      show d.offer.run (List.replicate n .offer) = d
      rw [hoffer]
      exact ih

/-- A round with nothing between its steps. -/
def roundMoves (d : Delivery) (source : Source) : List Move :=
  .beginRound :: callMoves source (d.minting.started + 1)
    ++ .gather :: List.replicate (d.roster.ids.length + 1) .offer

/-- **A round without interruption is a tick of the pool.** -/
theorem round_eq_tick (h : d.minting.Orderly) (hround : d.round = none) (source : Source) {p : Pool}
    (hledger : p.ledger = d.minting.ledger) (hroster : p.roster = d.roster) :
    (d.run (d.roundMoves source)).minting.ledger = (p.tick source).2.ledger
      ∧ (d.run (d.roundMoves source)).roster = (p.tick source).2.roster
      ∧ (d.run (d.roundMoves source)).round = none := by
  let number := d.minting.started + 1
  let offers : List Move := List.replicate (d.roster.ids.length + 1) .offer
  have hrun : d.run (d.roundMoves source) = ((d.beginRound.run (callMoves source number)).gather).run offers := by
    rw [roundMoves, run_append]
    rfl
  rw [hrun]
  by_cases hsize : d.roster.size = 0
  · -- no one is connected, and nothing is drawn
    have hbegin : d.beginRound = d := by rw [beginRound, hround, hsize]; rfl
    have htick : (p.tick source).2 = p := by rw [Pool.tick, hroster, if_pos hsize]
    have hcall : d.run (callMoves source number) = d := by
      rw [run_callMoves, Minting.complete_apart h.apart_next]
    have hgather : d.gather = d := by rw [gather, hround]
    rw [hbegin, hcall, hgather, run_offers_idle hround, htick]
    exact ⟨hledger.symm, hroster.symm, hround⟩
  · let m : Minting := { d.minting with
      ledger := (d.minting.ledger.mint source).2
      started := number
      ended := d.minting.ended ++ [(number, (d.minting.ledger.mint source).1)] }
    have hbegin : d.beginRound =
        { d with minting := d.minting.start .everyone, round := some (.asking number) } := by
      rw [beginRound, if_pos]
      rw [hround, Option.isNone_none, Bool.true_and, bne_iff_ne]
      exact hsize
    have hcall : d.beginRound.run (callMoves source number)
        = { d with minting := m, round := some (.asking number) } := by
      rw [hbegin, run_callMoves]
      dsimp only
      rw [Minting.complete_start h source .everyone]
      rfl
    have hlookup : m.ended.lookup number = some (d.minting.ledger.mint source).1 := h.lookup_next _
    obtain ⟨htick, hsent⟩ := Pool.tick_made source (p := p) (by rw [hroster]; exact hsize)
    rw [hledger] at htick hsent
    rw [hcall, htick, hsent, hroster]
    cases hmade : (d.minting.ledger.mint source).1 with
    | error e =>
        have hgather : ({ d with minting := m, round := some (.asking number) } : Delivery).gather
            = { d with minting := m, round := none } := by
          rw [gather]
          dsimp only
          rw [hlookup, hmade]
        rw [hgather, run_offers_idle rfl]
        exact ⟨rfl, rfl, rfl⟩
    | ok job =>
        have hgather : ({ d with minting := m, round := some (.asking number) } : Delivery).gather
            = { d with minting := m, round := some (.offering job d.roster.ids) } := by
          rw [gather]
          dsimp only
          rw [hlookup, hmade]
        rw [hgather, run_offers job d.roster.ids _ .nothing rfl]
        exact ⟨rfl, rfl, rfl⟩

/-! ## Logins -/

/-- A login with nothing between its steps, up to its answer. -/
def loginMoves (d : Delivery) (source : Source) (id : Nat) : List Move :=
  .beginLogin id :: callMoves source (d.minting.started + 1) ++ [.resolve id]

/-- A login without interruption gets the job that the pool has for a login. -/
theorem login_eq_jobForLogin (h : d.minting.Orderly) {id : Nat} (hfree : d.isFree id = true) (source : Source)
    {p : Pool} (hledger : p.ledger = d.minting.ledger) :
    (d.run (d.loginMoves source id)).minting.ledger = (p.jobForLogin source).2.ledger
      ∧ (d.run (d.loginMoves source id)).logins id = some (.holding (p.jobForLogin source).1) := by
  let number := d.minting.started + 1
  let m : Minting := { d.minting with
    ledger := (d.minting.ledger.mintForSession source).2
    started := number
    ended := d.minting.ended ++ [(number, (d.minting.ledger.mintForSession source).1)] }
  let asking : Delivery :=
    { d with minting := m, logins := Function.update d.logins id (some (.asking number)) }
  have hrun : d.run (d.loginMoves source id) = asking.resolve id := by
    have hbegin : d.beginLogin id =
        { d with
          minting := d.minting.start .session
          logins := Function.update d.logins id (some (.asking number)) } := by
      rw [beginLogin, if_pos hfree]
    have hcall : (d.beginLogin id).run (callMoves source number) = asking := by
      rw [hbegin, run_callMoves]
      dsimp only
      rw [Minting.complete_start h source .session]
      rfl
    rw [loginMoves, run_append]
    exact congrArg (·.resolve id) hcall
  have hasking : asking.logins id = some (.asking number) := Function.update_self _ _ _
  have hlookup : m.ended.lookup number = some (d.minting.ledger.mintForSession source).1 := h.lookup_next _
  rw [hrun, Pool.jobForLogin, hledger]
  rcases hmint : d.minting.ledger.mintForSession source with ⟨made, l⟩
  rw [hmint] at hlookup
  have hm : m.ledger = l := congrArg Prod.snd hmint
  cases made with
  | error e =>
      have hresolve : asking.resolve id
          = { asking with logins := Function.update asking.logins id (some (.holding m.ledger.current)) } := by
        rw [resolve, hasking]
        dsimp only
        rw [hlookup]
      rw [hresolve, hm]
      exact ⟨rfl, Function.update_self _ _ _⟩
  | ok job =>
      have hresolve : asking.resolve id
          = { asking with logins := Function.update asking.logins id (some (.holding (some job))) } := by
        rw [resolve, hasking]
        dsimp only
        rw [hlookup]
      rw [hresolve]
      exact ⟨hm, Function.update_self _ _ _⟩

/-- Up to its answer a login writes nothing. -/
theorem lines_loginMoves (d : Delivery) (source : Source) (id : Nat) :
    (d.run (d.loginMoves source id)).lines = d.lines := by
  let d₁ := (d.beginLogin id).run (callMoves source (d.minting.started + 1))
  have hbegin : (d.beginLogin id).lines = d.lines := by
    unfold beginLogin
    split
    · rfl
    · rfl
  have hresolve : (d₁.resolve id).lines = d₁.lines := by
    unfold resolve
    split
    · split
      · rfl
      · rfl
      · rfl
    · rfl
  rw [loginMoves, run_append]
  exact hresolve.trans hbegin

/-- **A login without interruption leaves the ledger as the command does, and writes its pushes.** -/
theorem login_eq_authorize (h : d.minting.Orderly) {id : Nat} (hfree : d.isFree id = true) (source : Source)
    {p : Pool} (hledger : p.ledger = d.minting.ledger) (s : Session) (address worker : String) :
    ∃ pushes, (p.authorize source s address worker).reply = .ok ⟨.bool true, pushes⟩
      ∧ (d.run (d.loginMoves source id ++ [.answer id])).minting.ledger
          = (p.authorize source s address worker).pool.ledger
      ∧ ((d.run (d.loginMoves source id ++ [.answer id])).lines id).map (·.message)
          = (d.lines id).map (·.message) ++ pushes.map .notification := by
  obtain ⟨hsame, hholds⟩ := login_eq_jobForLogin h hfree source hledger
  have hlines := congrFun (lines_loginMoves d source id) id
  refine ⟨(p.jobForLogin source).1.toList.map Job.notification, rfl, ?_⟩
  rw [run_append]
  show ((d.run (d.loginMoves source id)).answer id).minting.ledger = (p.jobForLogin source).2.ledger ∧
    (((d.run (d.loginMoves source id)).answer id).lines id).map _ = _
  rw [answer, hholds]
  cases (p.jobForLogin source).1 with
  | none =>
      refine ⟨hsame, ?_⟩
      show ((d.run (d.loginMoves source id)).lines id).map _ = _
      rw [hlines]
      exact (List.append_nil _).symm
  | some job =>
      refine ⟨hsame, ?_⟩
      dsimp only [write]
      rw [Function.update_self, List.map_append, hlines]
      rfl

end Delivery
end MiningPool

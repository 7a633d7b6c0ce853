import MiningPool.Proofs.Pool.Uninterrupted
import MiningPool.Proofs.Roster.Broadcast

/-!
# One round, all or nothing

A round does nothing at all if no one is connected. If the work of its job cannot be had, a number is used up and the
failure is counted, and that is all. Otherwise the job is announced: it is newer than all jobs before it, it is
remembered, and its notification is offered to everyone, once.

This is so in every pool that is `Attained`: the ledger is what any calls have made of it, those still under way among
them, and on the roster stand any entries, whether their queues are open, full or closed.
-/

namespace MiningPool

open Net Wire

/-! ## Pools that rounds are held in -/

/-- No call changes the difficulty. -/
theorem Minting.difficulty_run (difficulty history : Nat) (moves : List Move) :
    ((fresh (.fresh difficulty history)).run moves).ledger.difficulty = difficulty := by
  refine run_keeps (P := fun m => m.ledger.difficulty = difficulty) (fun hp hch => ?_) moves rfl
  cases hch with
  | stored hc hs => rw [moved, Ledger.store_eq]; exact hp
  | _ => exact hp

/-- The ledger of a pool is what some calls have made of it, however far each has come, and the roster is in order. -/
structure Pool.Attained (moves : List Minting.Move) (p : Pool) : Prop where
  sorted : p.roster.Sorted
  ledger : p.ledger = ((Minting.fresh
    (.fresh p.settings.mining.initialDifficulty p.settings.mining.jobHistory)).run moves).ledger

namespace Pool.Attained

variable {moves : List Minting.Move} {p : Pool}

theorem fresh (settings : Settings) : Attained [] (.fresh settings) := ⟨Roster.sorted_empty, rfl⟩

/-- Whatever leaves the settings and the ledger alone, and the ids in order. -/
theorem congr {q : Pool} (h : p.Attained moves) (hsorted : q.roster.Sorted) (hsettings : q.settings = p.settings)
    (hledger : q.ledger = p.ledger) : q.Attained moves :=
  ⟨hsorted, by rw [hledger, hsettings]; exact h.ledger⟩

theorem difficulty (h : p.Attained moves) : p.ledger.difficulty = p.settings.mining.initialDifficulty := by
  rw [h.ledger, Minting.difficulty_run]

/-- No call has drawn a number that is still to come. -/
theorem lt_of_drawn (h : p.Attained moves) {n : Nat}
    (hn : n ∈ (Minting.fresh
      (.fresh p.settings.mining.initialDifficulty p.settings.mining.jobHistory)).draws moves) :
    n < p.ledger.lastSeq + 1 := by
  obtain ⟨k, hlast, hdraws⟩ := Minting.draws_eq moves
    (Minting.fresh (.fresh p.settings.mining.initialDifficulty p.settings.mining.jobHistory))
  rw [hdraws, List.mem_range'_1] at hn
  rw [h.ledger, hlast]
  omega

/-- **A job that is made in one go is made by a call**, so a pool in which one is made is attained as well. -/
theorem made (h : p.Attained moves) (source : Source) (purpose : Purpose) {q : Pool}
    (hsorted : q.roster.Sorted) (hsettings : q.settings = p.settings)
    (hledger : q.ledger = (p.ledger.mintFor source purpose).2) : ∃ more, q.Attained (moves ++ more) := by
  let m := (Minting.fresh (.fresh p.settings.mining.initialDifficulty p.settings.mining.jobHistory)).run moves
  have hm : m.Orderly := Minting.orderly_run _ _ moves
  let n := m.started + 1
  refine ⟨[.start purpose, .receive n (source.fetch n), .advance n, .advance n, .advance n], hsorted, ?_⟩
  have hcomplete := congrArg Minting.ledger (Minting.complete_start hm source purpose)
  rw [hledger, h.ledger, hsettings, Minting.run_append]
  exact hcomplete.symm

end Pool.Attained

namespace Pool

variable {source : Source} {p : Pool}

/-! ## What a round comes to -/

theorem tick_idle (source : Source) (hsize : p.roster.size = 0) : p.tick source = (.idle, p) := by
  rw [tick, if_pos hsize]

theorem tick_skipped (hsize : p.roster.size ≠ 0) {e : Fault} (he : source.fetch (p.ledger.lastSeq + 1) = .error e) :
    p.tick source
      = (.skipped, { p.count .fetchFailure with ledger := { p.ledger with lastSeq := p.ledger.lastSeq + 1 } }) := by
  rw [tick, if_neg hsize, mint, Ledger.mint, Ledger.mintForSession_of_error he]
  rfl

/-- What a round does to a pool that announces a job. -/
structure Announces (job : Job) (report : DeliveryReport) (p q : Pool) : Prop where
  known : q.ledger.isKnown job.id = true
  /-- It is counted, as one more job for everyone. -/
  tally : q.tally = { p.tally with jobs := p.tally.jobs + 1 }
  meters : q.meters = p.meters.count .jobBroadcast
  delivers : Roster.Delivers (.notification job.notification) p.roster report q.roster
  rest : q = { p with ledger := q.ledger, roster := q.roster, tally := q.tally, meters := q.meters }

theorem tick_delivered (hsorted : p.roster.Sorted) (hsize : p.roster.size ≠ 0) {t : Template}
    (ht : source.fetch (p.ledger.lastSeq + 1) = .ok t) :
    ∃ report, (p.tick source).1 = .delivered (jobId (p.ledger.lastSeq + 1)) report
      ∧ Announces (Job.of (p.ledger.lastSeq + 1) t) report p (p.tick source).2 := by
  rw [tick, if_neg hsize, mint, Ledger.mint, Ledger.mintForSession_of_ok ht]
  exact ⟨_, rfl, Ledger.isKnown_remember _ _, rfl, rfl, Roster.delivers_broadcast hsorted _, rfl⟩

/--
**A round does all of it or nothing.**

Whatever calls are under way and whoever is connected, with queues that are open, full or closed: a round is idle just
if no one is connected, and then nothing is drawn and nothing changes. It is skipped just if someone is and the work of
the next number cannot be had; then that number is used up and the failure counted, and nothing else changes. Otherwise
it announces a job that is newer than all whose numbers were drawn before, to each connection once.
-/
theorem round_all_or_nothing {moves : List Minting.Move} (h : p.Attained moves) (source : Source) :
    let n := p.ledger.lastSeq + 1
    let drawn := (Minting.fresh
      (.fresh p.settings.mining.initialDifficulty p.settings.mining.jobHistory)).draws moves
    ((p.tick source).1 = .idle ↔ p.roster.size = 0)
      ∧ ((p.tick source).1 = .idle → (p.tick source).2 = p)
      ∧ ((p.tick source).1 = .skipped ↔ p.roster.size ≠ 0 ∧ ∃ e, source.fetch n = .error e)
      ∧ ((p.tick source).1 = .skipped →
          (p.tick source).2 = { p.count .fetchFailure with ledger := { p.ledger with lastSeq := n } })
      ∧ ∀ t, p.roster.size ≠ 0 → source.fetch n = .ok t →
          ∃ report, (p.tick source).1 = .delivered (Job.of n t).id report
            ∧ (∀ k ∈ drawn, k < (Job.of n t).seq)
            ∧ Announces (Job.of n t) report p (p.tick source).2 := by
  intro n drawn
  by_cases hsize : p.roster.size = 0
  · have hidle := tick_idle source hsize
    rw [hidle]
    exact ⟨by simp [hsize], fun _ => rfl, by simp [hsize], by simp, fun t hne => absurd hsize hne⟩
  cases hwork : source.fetch n with
  | error e =>
      have hskipped := tick_skipped hsize hwork
      rw [hskipped]
      refine ⟨by simp [hsize], by simp, ?_, fun _ => rfl, fun t _ ht => absurd ht (by simp)⟩
      exact iff_of_true rfl ⟨hsize, e, rfl⟩
  | ok t =>
      obtain ⟨report, hround, hannounces⟩ := tick_delivered h.sorted hsize hwork
      rw [hround]
      refine ⟨by simp [hsize], by simp, by simp, by simp, fun t' _ ht => ?_⟩
      obtain rfl : t = t' := Except.ok.inj ht
      exact ⟨report, rfl, fun k hk => h.lt_of_drawn hk, hannounces⟩

/-- Three are connected, each with a queue for one message: an empty one, one with a message in it, and one whose reader
is gone. The first number was drawn for a login that still waits for its work. -/
def mixedCompany : Pool :=
  let entry (waiting : List Message) (isOpen : Bool) : Entry :=
    { Entry.fresh ⟨.v4 1, 50001⟩ 1 default with outbox := ⟨1, waiting, isOpen⟩ }
  { Pool.fresh .standard with
    roster := ⟨[(1, entry [] true), (2, entry [.notification (.difficulty 500)] true), (4, entry [] false)], []⟩
    ledger := { (Pool.fresh .standard).ledger with lastSeq := 1 } }

theorem round_all_or_nothing_mixed_company :
    let source : Source := ⟨fun seq => if seq = 2 then .ok default else .error .unauthorized, fun _ => .ok true⟩
    mixedCompany.Attained [.start .session]
      ∧ (mixedCompany.tick source).1 = .delivered "job_000002" ⟨1, 1, 1⟩
      ∧ (mixedCompany.tick source).2.roster.get? 2 = mixedCompany.roster.get? 2
      ∧ (mixedCompany.tick source).2.roster.get? 4 = none := by
  intro source
  have hattained : mixedCompany.Attained [.start .session] :=
    ⟨show mixedCompany.roster.ids.Pairwise (· < ·) by decide, rfl⟩
  obtain ⟨⟨taken, full, closed⟩, hround, -, hannounces⟩ :=
    (round_all_or_nothing hattained source).2.2.2.2 default (by decide) rfl
  have hdelivers := hannounces.delivers
  have htaken : taken = 1 := hdelivers.delivered.trans (by decide)
  have hfull : full = 1 := hdelivers.skipped.trans (by decide)
  have hclosed : closed = 1 := hdelivers.removed.trans (by decide)
  subst htaken hfull hclosed
  exact ⟨hattained, hround.trans (by decide), (hdelivers.full rfl rfl (by decide)).trans rfl, hdelivers.closed rfl rfl⟩

end Pool
end MiningPool

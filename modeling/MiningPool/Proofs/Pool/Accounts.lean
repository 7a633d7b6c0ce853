import Mathlib.Algebra.BigOperators.Group.List.Basic
import Mathlib.Algebra.GroupWithZero.Nat
import MiningPool.Proofs.Connection.Shares
import MiningPool.Proofs.Connection.Elsewhere

/-!
# The accounts of the pool

Shares, jobs and those who came are counted twice, in the tally and in the meters, and a share a third time in its
session. `Accrues` says by how much the accounts grow, on both sides alike. A request that submits a share adds one
share of one kind, a round that delivers a job adds one job, and nothing else adds anything: not any other request,
not a turn without one, and not what others do with the pool.
-/

namespace MiningPool

open Net Wire

/-! ## Counters -/

/-- How many shares of a kind were counted. -/
def Tally.shares (t : Tally) (accepted : Bool) : Nat := if accepted then t.accepted else t.rejected

theorem Tally.shares_share (t : Tally) (a accepted : Bool) :
    (t.share a).shares accepted = t.shares accepted + if a = accepted then 1 else 0 := by
  cases a with
  | true => cases accepted <;> rfl
  | false => cases accepted <;> rfl

namespace Meters

variable (m : Meters) {h k : Happening}

theorem of_count_self (h : Happening) : (m.count h).of h = m.of h + 1 := by
  rw [of, count, Keyed.get?_update_self]
  rfl

theorem of_count_of_ne (hne : k ≠ h) : (m.count h).of k = m.of k := by
  rw [of, count, Keyed.get?_update_of_ne _ hne]
  rfl

theorem of_count (h k : Happening) : (m.count h).of k = m.of k + if h = k then 1 else 0 := by
  by_cases hk : h = k
  · rw [if_pos hk, ← hk, of_count_self]
  · rw [if_neg hk, of_count_of_ne m (Ne.symm hk), Nat.add_zero]

end Meters

/-- Every reason there is. -/
def Refusal.all : List Refusal := [.banned, .tooManyConnections, .full, .noSessionId]

/-- How often someone was refused, for whatever reason. -/
def Meters.refusals (m : Meters) : Nat := (Refusal.all.map fun why => m.of (.refused why)).sum

theorem Meters.refusals_refused (m : Meters) (why : Refusal) :
    (m.count (.refused why)).refusals = m.refusals + 1 := by
  have hof : ∀ k, (m.count (.refused why)).of (.refused k) = m.of (.refused k) + if why = k then 1 else 0 := by
    intro k
    have hcount := m.of_count (.refused why) (.refused k)
    simp only [Happening.refused.injEq] at hcount
    exact hcount
  -- no reason is missing in the list, and none is there twice
  have hone : (Refusal.all.map fun k => if why = k then 1 else 0).sum = 1 := by cases why <;> rfl
  rw [refusals, List.map_congr_left fun k _ => hof k, List.sum_map_add, hone, refusals]

theorem Meters.refusals_congr {m n : Meters} (h : ∀ why, n.of (.refused why) = m.of (.refused why)) :
    n.refusals = m.refusals := congrArg List.sum (List.map_congr_left fun why _ => h why)

theorem Meters.refusals_of_ne (m : Meters) {h : Happening} (hne : ∀ why, .refused why ≠ h) :
    (m.count h).refusals = m.refusals := refusals_congr fun why => m.of_count_of_ne (hne why)

/-- Whether the accounts have an entry for something that is counted. -/
def Happening.isAccounted : Happening → Bool
  | .received | .refused _ | .jobBroadcast | .share _ => true
  | .peerBanned | .malformedLine | .fetchFailure | .request _ => false

/-- Whether a round had a job for everyone. -/
def Round.isDelivered : Round → Bool
  | .idle | .skipped => false
  | .delivered _ _ => true

namespace Pool

/-! ## What accrues -/

/-- There are so many more shares of each kind and so many more jobs, and no one has come to the door. -/
structure Accrues (shares : Bool → Nat) (jobs : Nat) (p q : Pool) : Prop where
  tallied : ∀ accepted, q.tally.shares accepted = p.tally.shares accepted + shares accepted
  metered : ∀ accepted, q.meters.of (.share accepted) = p.meters.of (.share accepted) + shares accepted
  broadcast : q.tally.jobs = p.tally.jobs + jobs
  broadcastMetered : q.meters.of .jobBroadcast = p.meters.of .jobBroadcast + jobs
  connections : q.tally.connections = p.tally.connections
  received : q.meters.of .received = p.meters.of .received
  refusals : q.meters.refusals = p.meters.refusals

/-- The accounts stay as they are. -/
abbrev SameAccounts (p q : Pool) : Prop := Accrues (fun _ => 0) 0 p q

/-- One share of a kind, and none of the other. -/
def oneShare (a accepted : Bool) : Nat := if a = accepted then 1 else 0

variable {p q r : Pool} {shares : Bool → Nat} {jobs : Nat} {source : Source} {now : Instant}

/-- Nothing accrues where neither the tally nor a counter changes. -/
theorem sameAccounts_of_eq (ht : q.tally = p.tally) (hm : q.meters.counts = p.meters.counts) :
    SameAccounts p q := by
  have hof : ∀ h, q.meters.of h = p.meters.of h := fun h => by rw [Meters.of, Meters.of, hm]
  exact ⟨fun a => by rw [ht]; rfl, fun a => hof _, by rw [ht]; rfl, hof _, by rw [ht], hof _,
    Meters.refusals_congr fun why => hof _⟩

/-- What accrues after the accounts have stayed as they were. -/
theorem Accrues.before (hq : Accrues shares jobs q r) (h : SameAccounts p q) : Accrues shares jobs p r where
  tallied := fun a => by rw [hq.tallied, h.tallied, Nat.add_zero]
  metered := fun a => by rw [hq.metered, h.metered, Nat.add_zero]
  broadcast := by rw [hq.broadcast, h.broadcast, Nat.add_zero]
  broadcastMetered := by rw [hq.broadcastMetered, h.broadcastMetered, Nat.add_zero]
  connections := hq.connections.trans h.connections
  received := hq.received.trans h.received
  refusals := hq.refusals.trans h.refusals

/-- What has accrued before the accounts stay as they are. -/
theorem Accrues.after (hp : Accrues shares jobs p q) (h : SameAccounts q r) : Accrues shares jobs p r where
  tallied := fun a => (h.tallied a).trans (hp.tallied a)
  metered := fun a => (h.metered a).trans (hp.metered a)
  broadcast := h.broadcast.trans hp.broadcast
  broadcastMetered := h.broadcastMetered.trans hp.broadcastMetered
  connections := h.connections.trans hp.connections
  received := h.received.trans hp.received
  refusals := h.refusals.trans hp.refusals

/-- Anything may be counted that the accounts have no entry for. -/
theorem sameAccounts_count (p : Pool) {h : Happening} (hh : h.isAccounted = false) :
    SameAccounts p (p.count h) := by
  have hof : ∀ k : Happening, k.isAccounted = true → (p.count h).meters.of k = p.meters.of k := by
    intro k hk
    exact Meters.of_count_of_ne p.meters fun heq => by rw [heq, hh] at hk; exact absurd hk (by simp)
  exact ⟨fun _ => rfl, fun _ => hof _ rfl, rfl, hof _ rfl, rfl, hof _ rfl,
    Meters.refusals_congr fun _ => hof _ rfl⟩

/-! ## Requests -/

/-- A share that is counted is counted on both sides. -/
theorem accrues_share (p : Pool) (a : Bool) :
    Accrues (oneShare a) 0 p { p.count (.share a) with tally := p.tally.share a } where
  tallied := Tally.shares_share p.tally a
  metered := by
    intro accepted
    have hcount := Meters.of_count p.meters (.share a) (.share accepted)
    simp only [Happening.share.injEq] at hcount
    exact hcount
  broadcast := by cases a <;> rfl
  broadcastMetered := Meters.of_count_of_ne p.meters (by simp)
  connections := by cases a <;> rfl
  received := Meters.of_count_of_ne p.meters (by simp)
  refusals := Meters.refusals_of_ne p.meters (by simp)

/-- What comes of a submitted share: it is counted once, on all sides alike, and handed on at most once, by the
lenient policy always. It counts as accepted just if it was handed on and the work source said so. -/
structure Judged (source : Source) (p : Pool) (s : Session) (x : Share) (accepted : Bool) (o : Outcome) : Prop where
  session : o.session = s.recordShare accepted
  pool : Accrues (oneShare accepted) 0 p o.pool
  handed : o.handed = none ∨ o.handed = some x
  lenient : p.settings.mining.submitPolicy = .lenient → o.handed = some x
  accepted : accepted = true ↔ o.handed = some x ∧ source.judge x = .ok true

theorem judged_submit (source : Source) (p : Pool) (s : Session) (x : Submission) :
    ∃ accepted, Judged source p s (share s x) accepted (p.submit source s x) := by
  cases hobjection : p.objection s x.jobId with
  | some fault =>
      rw [submit_of_objection source p s hobjection]
      refine ⟨false, rfl, accrues_share p false, Or.inl rfl, fun hlenient => ?_, by simp⟩
      rw [objection, hlenient] at hobjection
      exact absurd hobjection (by simp)
  | none =>
      rw [submit, hobjection]
      dsimp only
      rw [verdict]
      cases hjudge : source.judge (share s x) with
      | error fault => exact ⟨false, rfl, accrues_share p false, Or.inr rfl, fun _ => rfl, by simp [hjudge]⟩
      | ok yes =>
          cases yes with
          | false => exact ⟨false, rfl, accrues_share p false, Or.inr rfl, fun _ => rfl, by simp [hjudge]⟩
          | true => exact ⟨true, rfl, accrues_share p true, Or.inr rfl, fun _ => rfl, by simp [hjudge]⟩

theorem sameAccounts_jobForLogin (source : Source) (p : Pool) : SameAccounts p (p.jobForLogin source).2 := by
  unfold jobForLogin
  dsimp only
  split
  · exact sameAccounts_of_eq rfl rfl
  · exact (sameAccounts_count _ (h := .fetchFailure) rfl).before (sameAccounts_of_eq rfl rfl)

variable {s : Session} {request : Request}

/-- **A request that submits a share adds one share of one kind.** -/
theorem judged_answer (source : Source) (p : Pool) (s : Session) {x : Submission}
    (h : Command.ofRequest request = .ok (.submit x)) :
    ∃ accepted, Judged source p s (share s x) accepted (p.answer source s request) := by
  obtain ⟨accepted, hjudged⟩ := judged_submit source (p.count (.request Method.submit)) s x
  rw [answer_ok source p s h]
  have hcounted := sameAccounts_count p (h := .request Method.submit) rfl
  exact ⟨accepted, { hjudged with pool := hjudged.pool.before hcounted }⟩

/-- **Any other request adds none and hands none on.** -/
theorem unjudged_answer (source : Source) (p : Pool) (s : Session)
    (h : ∀ x, Command.ofRequest request ≠ .ok (.submit x)) :
    (∀ accepted, (p.answer source s request).session.shares accepted = s.shares accepted)
      ∧ SameAccounts p (p.answer source s request).pool ∧ (p.answer source s request).handed = none := by
  cases hc : Command.ofRequest request with
  | error fault =>
      rw [answer_error source p s hc]
      exact ⟨fun _ => rfl, sameAccounts_of_eq rfl rfl, rfl⟩
  | ok c =>
      rw [answer_ok source p s hc]
      have hcounted := sameAccounts_count p (h := .request c.name) rfl
      cases c with
      | submit x => exact absurd hc (h x)
      | authorize username address worker =>
          exact ⟨fun _ => rfl, (sameAccounts_jobForLogin source _).before hcounted, rfl⟩
      | _ => exact ⟨fun _ => rfl, hcounted, rfl⟩

/-! ## What others do -/

theorem sameAccounts_banPeer (now : Instant) (p : Pool) (ip : Ip) : SameAccounts p (p.banPeer now ip).2 := by
  unfold banPeer
  split
  · exact sameAccounts_of_eq rfl rfl
  · exact (sameAccounts_count p (h := .peerBanned) rfl).after (sameAccounts_of_eq rfl rfl)

theorem sameAccounts_leave (p : Pool) (id : Nat) (ip : Ip) : SameAccounts p (p.leave id ip) :=
  sameAccounts_of_eq rfl rfl

/-- **A round that delivers a job adds one, and any other round adds nothing.** -/
theorem accrues_tick (source : Source) (p : Pool) :
    Accrues (fun _ => 0) (if (p.tick source).1.isDelivered then 1 else 0) p (p.tick source).2 := by
  unfold tick
  split
  · exact sameAccounts_of_eq rfl rfl
  · have hminted : SameAccounts p (p.mint source).2 := sameAccounts_of_eq rfl rfl
    rcases hmint : p.mint source with ⟨made, q⟩
    rw [hmint] at hminted
    cases made with
    | error fault => exact (sameAccounts_count q (h := .fetchFailure) rfl).before hminted
    | ok job =>
        refine Accrues.before ?_ hminted
        exact ⟨fun _ => rfl, fun _ => Meters.of_count_of_ne q.meters (by simp), rfl,
          Meters.of_count_self q.meters .jobBroadcast, rfl, Meters.of_count_of_ne q.meters (by simp),
          Meters.refusals_of_ne q.meters (by simp)⟩

/-- What others may do with the pool that is neither a round nor letting someone in. -/
inductive Aside (now : Instant) (p : Pool) : Pool → Prop
  | pushed (id : Nat) (m : Message) : Aside now p { p with roster := (p.roster.sendTo id m).2 }
  | killed (id : Nat) : Aside now p { p with roster := (p.roster.kill id).2 }
  | banned (ip : Ip) : Aside now p (p.banPeer now ip).2
  | asked (ip : Ip) : Aside now p { p with admission := (p.admission.isBanned now ip).2 }
  | swept : Aside now p (p.sweep now).2
  | minted (source : Source) : Aside now p (p.mint source).2
  | skipped (last : Nat) : Aside now p (p.skipSessions last)

theorem Aside.meanwhile (h : Aside now p q) : Meanwhile now p q := by
  cases h with
  | pushed id m => exact .pushed id m
  | killed id => exact .killed id
  | banned ip => exact .banned ip
  | asked ip => exact .asked ip
  | swept => exact .swept
  | minted source => exact .minted source
  | skipped last => exact .skipped last

theorem sameAccounts_aside (h : Aside now p q) : SameAccounts p q := by
  cases h with
  | banned ip => exact sameAccounts_banPeer now p ip
  | _ => exact sameAccounts_of_eq rfl rfl

/-! ## At the door -/

/-- Whoever is let in is counted by the tally, and whoever is refused is not. -/
theorem enter_counts {ip : Ip} {limit : Option Nat} {answer : Except Refusal Nat}
    (h : p.enter now ip limit = (answer, q)) :
    q.meters = p.meters ∧ q.tally = match answer with
      | .ok _ => p.tally.connection
      | .error _ => p.tally := by
  cases answer with
  | ok id =>
      obtain ⟨_, _, _, _, rfl⟩ := enter_seat h
      exact ⟨rfl, rfl⟩
  | error why =>
      rcases enter_no_seat h with ⟨_, rfl⟩ | ⟨_, rfl⟩
      · exact ⟨rfl, rfl⟩
      · exact ⟨rfl, rfl⟩

end Pool
end MiningPool

import MiningPool.Proofs.World.Postings
import MiningPool.Proofs.World.Shares

/-!
# The accounts agree

What the tally, the meters, the sessions and the work source know of shares, jobs and connections is the same. The
proof follows the postings: each adds to all sides what it adds to one. Of the turns, only those in which a request
is carried out add anything (`serves_or_rests`), and what they add is what `judged_answer` says.
-/

namespace MiningPool

open Net Wire

/-! ## What a turn adds -/

namespace Connection

variable {source : Source} {now : Instant} {p : Pool} {c : Connection} {ds : List Deed} {t : Turn}

/-- A turn in which a request is carried out. -/
structure Serves (source : Source) (p : Pool) (c : Connection) (r : Request) (ds : List Deed) (t : Turn) : Prop where
  postings : ds.filterMap Deed.posting? = [.served source p c.session r]
  session : t.connection.session = (p.answer source c.session r).session
  handed : t.handed = (p.answer source c.session r).handed
  pool : (p.answer source c.session r).pool.SameAccounts (t.pool p)

/-- A turn in which none is. -/
structure Rests (p : Pool) (c : Connection) (ds : List Deed) (t : Turn) : Prop where
  postings : ds.filterMap Deed.posting? = []
  session : t.connection.session = c.session
  handed : t.handed = none
  pool : p.SameAccounts (t.pool p)

theorem sameAccounts_banned (now : Instant) (p : Pool) (c : Connection) :
    p.SameAccounts (c.banPeer now p).pool :=
  (Pool.sameAccounts_banPeer now p c.peer.ip).after (Pool.sameAccounts_leave _ c.id c.peer.ip)

theorem sameAccounts_complained (p : Pool) (a : Admission) :
    p.SameAccounts { p.count .malformedLine with admission := a } :=
  (Pool.sameAccounts_count p (h := .malformedLine) rfl).after (Pool.sameAccounts_of_eq rfl rfl)

/-- **A turn carries out a request, or leaves the accounts alone.** -/
theorem serves_or_rests (h : Takes source now p c ds t) : (∃ r, Serves source p c r ds t) ∨ Rests p c ds t := by
  cases h with
  | @serves r f o hl hn ho =>
      refine Or.inl ⟨r, rfl, by rw [ho]; rfl, by rw [ho]; rfl, ?_⟩
      rw [ho]
      exact Pool.sameAccounts_of_eq rfl rfl
  | @condemned left accepted client a hp hg hw hv =>
      have hreported : p.SameAccounts { p with admission := a } := Pool.sameAccounts_of_eq rfl rfl
      exact Or.inr ⟨rfl, rfl, rfl, (sameAccounts_banned now _ _).before hreported⟩
  | @bans fault f a hl hn hv =>
      exact Or.inr ⟨rfl, rfl, rfl, (sameAccounts_banned now _ _).before (sameAccounts_complained p a)⟩
  | @refuses limit f a hl hn hv => exact Or.inr ⟨rfl, rfl, rfl, sameAccounts_complained p a⟩
  | @drops fault f a hl hn hf hv => exact Or.inr ⟨rfl, rfl, rfl, sameAccounts_complained p a⟩
  | _ => exact Or.inr ⟨rfl, rfl, rfl, Pool.sameAccounts_of_eq rfl rfl⟩

end Connection

/-! ## What was posted -/

namespace Posting

/-- The share that was handed to the work source, if one was, and what the source said. -/
def call? : Posting → Option (Share × Except Fault Bool)
  | .served source p s r => (p.answer source s r).handed.map fun x => (x, source.judge x)
  | .round _ => none

/-- Whether a share was submitted. -/
def isSubmit : Posting → Bool
  | .served _ _ _ r =>
    match Command.ofRequest r with
    | .ok (.submit _) => true
    | _ => false
  | .round _ => false

/-- Whether a job was delivered. -/
def isDelivery : Posting → Bool
  | .served .. => false
  | .round r => r.isDelivered

end Posting

/-- What was asked of the work source, and what it said. -/
def callsOf (log : List Posting) : List (Share × Except Fault Bool) := log.filterMap Posting.call?

theorem callsOf_append (log more : List Posting) : callsOf (log ++ more) = callsOf log ++ callsOf more :=
  List.filterMap_append

theorem callsOf_singleton (e : Posting) : callsOf [e] = e.call?.toList := by
  rw [callsOf, List.filterMap_cons]
  cases e.call? <;> rfl

namespace World

open Connection

variable {w w' : World} {c c' : Connection} {source : Source} {log more : List Posting} {shares : Bool → Nat}
  {jobs : Nat}

/-! ## Balance -/

/-- How many shares of a kind all sessions have counted, past ones included. -/
def counts (w : World) (accepted : Bool) : Nat := (w.connections.map (·.session.shares accepted)).sum

/-- All sides agree, and with what was posted. -/
structure Balanced (log : List Posting) (w : World) : Prop where
  sessions : ∀ accepted, w.counts accepted = w.pool.tally.shares accepted
  metered : ∀ accepted, w.pool.meters.of (.share accepted) = w.pool.tally.shares accepted
  accepted : w.pool.tally.accepted = (callsOf log).countP (·.2 = .ok true)
  submits : w.pool.tally.accepted + w.pool.tally.rejected = log.countP Posting.isSubmit
  handed : w.handed = (callsOf log).map (·.1)
  jobs : w.pool.tally.jobs = log.countP Posting.isDelivery
  jobsMetered : w.pool.meters.of .jobBroadcast = w.pool.tally.jobs
  connections : w.pool.tally.connections = w.connections.length
  received : w.pool.meters.of .received = w.pool.tally.connections + w.pool.meters.refusals

theorem balanced_fresh (settings : Settings) (tasks : Bool) : Balanced [] (fresh settings tasks) where
  sessions := fun a => by cases a <;> rfl
  metered := fun a => by cases a <;> rfl
  accepted := rfl
  submits := rfl
  handed := rfl
  jobs := rfl
  jobsMetered := rfl
  connections := rfl
  received := rfl

/-- **All sides agree as before if each grows by what is posted.** -/
theorem Balanced.accrue (h : Balanced log w) (hpool : Pool.Accrues shares jobs w.pool w'.pool)
    (hcounts : ∀ accepted, w'.counts accepted = w.counts accepted + shares accepted)
    (hlength : w'.connections.length = w.connections.length)
    (hhanded : w'.handed = w.handed ++ (callsOf more).map (·.1))
    (haccepted : shares true = (callsOf more).countP (·.2 = .ok true))
    (hsubmits : shares true + shares false = more.countP Posting.isSubmit)
    (hjobs : jobs = more.countP Posting.isDelivery) : Balanced (log ++ more) w' where
  sessions := fun a => by rw [hcounts, h.sessions, hpool.tallied]
  metered := fun a => by rw [hpool.metered, h.metered, hpool.tallied]
  accepted := by
    have htallied : w'.pool.tally.accepted = w.pool.tally.accepted + shares true := hpool.tallied true
    rw [htallied, h.accepted, callsOf_append, List.countP_append, haccepted]
  submits := by
    have hyes : w'.pool.tally.accepted = w.pool.tally.accepted + shares true := hpool.tallied true
    have hno : w'.pool.tally.rejected = w.pool.tally.rejected + shares false := hpool.tallied false
    rw [List.countP_append, ← h.submits, ← hsubmits]
    omega
  handed := by rw [hhanded, h.handed, callsOf_append, List.map_append]
  jobs := by rw [hpool.broadcast, h.jobs, List.countP_append, hjobs]
  jobsMetered := by rw [hpool.broadcastMetered, h.jobsMetered, hpool.broadcast]
  connections := by rw [hpool.connections, h.connections, hlength]
  received := by rw [hpool.received, h.received, hpool.connections, hpool.refusals]

/-- Nothing is posted, and nothing changes. -/
theorem Balanced.same (h : Balanced log w) (hpool : w.pool.SameAccounts w'.pool)
    (hcounts : ∀ accepted, w'.counts accepted = w.counts accepted)
    (hlength : w'.connections.length = w.connections.length) (hhanded : w'.handed = w.handed) :
    Balanced (log ++ []) w' :=
  h.accrue hpool hcounts hlength (hhanded.trans (List.append_nil _).symm) rfl rfl rfl

/-! ## Turns -/

/-- If one connection is replaced, all together count more by what it counts more. -/
theorem counts_replace {accepted : Bool} {n : Nat} (hn : w.Numbered) (hc : c ∈ w.connections) (hid : c'.id = c.id)
    (hs : c'.session.shares accepted = c.session.shares accepted + n) :
    (w.replace c').counts accepted = w.counts accepted + n := by
  have heach : (w.replace c').connections.map (·.session.shares accepted)
      = w.connections.map fun d => d.session.shares accepted + if c.id = d.id then n else 0 := by
    rw [replace, List.map_map]
    refine List.map_congr_left fun d hd => ?_
    rw [Function.comp_apply, hid]
    by_cases h : d.id = c.id
    · rw [if_pos h, if_pos h.symm, hs, hn.eq_of_id hc hd h]
    · rw [if_neg h, if_neg (Ne.symm h), Nat.add_zero]
  rw [counts, heach, List.sum_map_add, sum_of_id hn.ascending, if_pos ⟨c, hc, rfl⟩, counts]

/-- What a request posts is what it adds. -/
structure Adds (source : Source) (p : Pool) (s : Session) (r : Request) (shares : Bool → Nat) : Prop where
  session : ∀ accepted, (p.answer source s r).session.shares accepted = s.shares accepted + shares accepted
  pool : p.Accrues shares 0 (p.answer source s r).pool
  accepted : shares true = (callsOf [.served source p s r]).countP (·.2 = .ok true)
  submits : shares true + shares false = [Posting.served source p s r].countP Posting.isSubmit

theorem adds_answer (source : Source) (p : Pool) (s : Session) (r : Request) :
    ∃ shares, Adds source p s r shares := by
  by_cases h : ∃ x, Command.ofRequest r = .ok (.submit x)
  · obtain ⟨x, hx⟩ := h
    obtain ⟨accepted, hjudged⟩ := Pool.judged_answer source p s hx
    refine ⟨Pool.oneShare accepted, ?_, hjudged.pool, ?_, ?_⟩
    · intro a
      rw [hjudged.session, Session.shares_recordShare]
      rfl
    · rw [callsOf_singleton, Posting.call?]
      have haccepted := hjudged.accepted
      rcases hjudged.handed with hnone | hsome
      · rw [hnone] at haccepted ⊢
        have hno : accepted = false := by simpa using haccepted
        rw [hno]
        rfl
      · rw [hsome] at haccepted ⊢
        simp only [true_and] at haccepted
        simp [Pool.oneShare, haccepted]
    · rw [List.countP_singleton, Posting.isSubmit, hx]
      cases accepted <;> rfl
  · have hother : ∀ x, Command.ofRequest r ≠ .ok (.submit x) := fun x hx => h ⟨x, hx⟩
    obtain ⟨hsession, hpool, hhanded⟩ := Pool.unjudged_answer source p s hother
    refine ⟨fun _ => 0, hsession, hpool, ?_, ?_⟩
    · rw [callsOf_singleton, Posting.call?, hhanded]
      rfl
    · rw [List.countP_singleton, Posting.isSubmit]
      split
      · rename_i x hx
        exact absurd hx (hother x)
      · rfl

theorem balanced_turn (hn : w.Numbered) (hc : c ∈ w.connections) (h : Balanced log w) :
    Balanced (log ++ (deeds source w.now w.pool c).filterMap Deed.posting?) (w.took (c.turn source w.now w.pool)) := by
  have htakes := turn_takes source w.now w.pool c
  have hid := (kept_turn htakes).id
  rcases serves_or_rests htakes with ⟨r, hserves⟩ | hrests
  · obtain ⟨shares, hadds⟩ := adds_answer source w.pool c.session r
    rw [hserves.postings]
    refine h.accrue (hadds.pool.after hserves.pool) (fun a => counts_replace hn hc hid ?_) (length_replace w _) ?_
      hadds.accepted hadds.submits rfl
    · rw [hserves.session, hadds.session]
    · show w.handed ++ _ = w.handed ++ _
      rw [hserves.handed, callsOf_singleton, Posting.call?]
      cases (w.pool.answer source c.session r).handed <;> rfl
  · rw [hrests.postings]
    refine h.same hrests.pool (fun a => counts_replace (n := 0) hn hc hid ?_) (length_replace w _) ?_
    · rw [hrests.session, Nat.add_zero]
    · show w.handed ++ _ = w.handed
      rw [hrests.handed]
      exact List.append_nil _

/-! ## At the door -/

/-- What happens at the door concerns neither shares nor jobs. -/
theorem Balanced.door (h : Balanced log w) (hshares : ∀ a, w'.pool.tally.shares a = w.pool.tally.shares a)
    (hjobs : w'.pool.tally.jobs = w.pool.tally.jobs)
    (hmeters : ∀ k : Happening, k ≠ .received → (∀ why, k ≠ .refused why) →
      w'.pool.meters.of k = w.pool.meters.of k)
    (hcounts : ∀ a, w'.counts a = w.counts a) (hhanded : w'.handed = w.handed)
    (hconnections : w'.pool.tally.connections = w'.connections.length)
    (hreceived : w'.pool.meters.of .received = w'.pool.tally.connections + w'.pool.meters.refusals) :
    Balanced log w' where
  sessions := fun a => by rw [hcounts, h.sessions, hshares]
  metered := fun a => by rw [hmeters _ (by simp) (by simp), h.metered, hshares]
  accepted := (hshares true).trans h.accepted
  submits := by
    have hyes : w'.pool.tally.accepted = w.pool.tally.accepted := hshares true
    have hno : w'.pool.tally.rejected = w.pool.tally.rejected := hshares false
    rw [hyes, hno, h.submits]
  handed := hhanded.trans h.handed
  jobs := hjobs.trans h.jobs
  jobsMetered := by rw [hmeters _ (by simp) (by simp), h.jobsMetered, hjobs]
  connections := hconnections
  received := hreceived

theorem balanced_refused {peer : Socket} {room : Option Nat} {why : Refusal} (h : Balanced log w)
    (hask : w.ask peer room = (.error why, w')) : Balanced log w' := by
  obtain ⟨q, henter, rfl⟩ := ask_error hask
  obtain ⟨hmeters, htally⟩ := Pool.enter_counts henter
  have htally : q.tally = w.pool.tally := htally
  refine h.door (fun a => ?_) ?_ (fun k hk hwhy => ?_) (fun _ => rfl) rfl ?_ ?_
  · exact congrArg (·.shares a) htally
  · exact congrArg (·.jobs) htally
  · show (q.meters.count (.refused why)).of k = _
    rw [Meters.of_count_of_ne _ (hwhy why), hmeters]
    exact Meters.of_count_of_ne _ hk
  · exact (congrArg (·.connections) htally).trans h.connections
  · show (q.meters.count (.refused why)).of .received = q.tally.connections + (q.meters.count (.refused why)).refusals
    rw [Meters.of_count_of_ne _ (by simp), Meters.refusals_refused, hmeters, htally]
    show (w.pool.meters.count .received).of .received
      = w.pool.tally.connections + ((w.pool.meters.count .received).refusals + 1)
    rw [Meters.of_count_self, Meters.refusals_of_ne _ (by simp), h.received, Nat.add_assoc]

theorem balanced_admitted {peer : Socket} {room : Option Nat} {id : Nat} (h : Balanced log w)
    (hask : w.ask peer room = (.ok id, w')) : Balanced log w' := by
  obtain ⟨q, henter, rfl⟩ := ask_ok hask
  obtain ⟨hmeters, htally⟩ := Pool.enter_counts henter
  have htally : q.tally = w.pool.tally.connection := htally
  refine h.door (fun a => ?_) ?_ (fun k hk hwhy => ?_) (fun a => ?_) rfl ?_ ?_
  · exact congrArg (·.shares a) htally
  · exact congrArg (·.jobs) htally
  · show q.meters.of k = _
    rw [hmeters]
    exact Meters.of_count_of_ne _ hk
  · -- a new session has counted nothing
    rw [counts, List.map_append, List.sum_append]
    cases a <;> rfl
  · show q.tally.connections = (w.connections ++ [_]).length
    rw [htally, List.length_append, ← h.connections]
    rfl
  · show q.meters.of .received = q.tally.connections + q.meters.refusals
    rw [hmeters, htally]
    show (w.pool.meters.count .received).of .received
      = w.pool.tally.connections + 1 + (w.pool.meters.count .received).refusals
    rw [Meters.of_count_self, Meters.refusals_of_ne _ (by simp), h.received, Nat.add_right_comm]

/-- **Whoever comes is counted as received, and then as let in or as refused.** -/
theorem balanced_ask (h : Balanced log w) (peer : Socket) (room : Option Nat) :
    Balanced log (w.ask peer room).2 := by
  rcases hask : w.ask peer room with ⟨answer, w'⟩
  cases answer with
  | error why => exact balanced_refused h hask
  | ok id => exact balanced_admitted h hask

/-! ## Runs -/

/-- **Whatever happens at once, all sides agree.** -/
theorem balanced_posts (hstep : Posts w more w') (hn : w.Numbered) (h : Balanced log w) :
    Balanced (log ++ more) w' := by
  cases hstep with
  | asks peer room =>
      rw [List.append_nil]
      exact balanced_ask h peer room
  | turn source hc => exact balanced_turn hn hc h
  | round source =>
      refine h.accrue (Pool.accrues_tick source w.pool) (fun _ => rfl) rfl (List.append_nil _).symm rfl rfl ?_
      rw [List.countP_singleton]
      rfl
  | touches framer client hc =>
      exact h.same (Pool.sameAccounts_of_eq rfl rfl) (fun _ => counts_replace (n := 0) hn hc rfl rfl)
        (length_replace w _) rfl
  | stops =>
      refine h.same (Pool.sameAccounts_of_eq rfl rfl) (fun a => ?_) (List.length_map _) rfl
      exact congrArg List.sum List.map_map
  | cuts hc hopen =>
      exact h.same (Pool.sameAccounts_leave _ _ _) (fun _ => counts_replace (n := 0) hn hc rfl rfl) (length_replace w _) rfl
  | aside haside => exact h.same (Pool.sameAccounts_aside haside) (fun _ => rfl) rfl rfl
  | passes r s hle => exact h.same (Pool.sameAccounts_of_eq rfl rfl) (fun _ => rfl) rfl rfl

theorem balanced_postings {settings : Settings} {tasks : Bool} (hlog : Postings (fresh settings tasks) log w) :
    Balanced log w := by
  have hboth : w.Numbered ∧ Balanced log w := by
    induction hlog with
    | refl => exact ⟨numbered_fresh settings tasks, balanced_fresh settings tasks⟩
    | tail _ hstep ih => exact ⟨numbered_posts hstep ih.1, balanced_posts hstep ih.1 ih.2⟩
  exact hboth.2

/--
**The accounts agree.**

Whatever happens and whatever the work source does, at every point the tally, the sessions and the meters have counted
the same shares, and as many were accepted as the work source has accepted; the tally and the meters have counted as
many jobs as there were rounds that delivered one; and whoever came was let in or refused. A request that submits a
share adds one share of one kind and hands it on at most once, and any other request adds none and hands none on.
-/
theorem accounts_agree {settings : Settings} {tasks : Bool} (hlog : Postings (fresh settings tasks) log w) :
    Balanced log w
      ∧ (∀ (source : Source) (p : Pool) (s : Session) (r : Request) (x : Submission),
          Command.ofRequest r = .ok (.submit x) →
          ∃ accepted, Pool.Judged source p s (Pool.share s x) accepted (p.answer source s r))
      ∧ ∀ (source : Source) (p : Pool) (s : Session) (r : Request),
          (∀ x, Command.ofRequest r ≠ .ok (.submit x)) →
          (∀ accepted, (p.answer source s r).session.shares accepted = s.shares accepted)
            ∧ p.SameAccounts (p.answer source s r).pool ∧ (p.answer source s r).handed = none :=
  ⟨balanced_postings hlog, fun source p s _ _ h => Pool.judged_answer source p s h,
    fun source p s _ h => Pool.unjudged_answer source p s h⟩

/-- With one seat, one miner is let in and another one refused. The first one submits two shares of which the work
source accepts one, and two rounds come to a job and to nothing. -/
theorem accounts_agree_one_of_each :
    let settings : Settings := { Settings.standard with
      maxClients := 1
      mining := { Settings.standard.mining with submitPolicy := .lenient } }
    let yes : Source := ⟨fun _ => .ok default, fun _ => .ok true⟩
    let no : Source := ⟨fun _ => .error .unauthorized, fun _ => .ok false⟩
    let w := (fresh settings false).run
      [(yes, .accept ⟨.v4 1, 50001⟩ none), (yes, .accept ⟨.v4 2, 50002⟩ none), (yes, .send 1 submitLine),
        (no, .send 1 submitLine), (yes, .tick), (no, .tick)]
    ∃ log, Postings (fresh settings false) log w ∧ Balanced log w
      ∧ (callsOf log).countP (·.2 = .ok true) = 1 ∧ log.countP Posting.isSubmit = 2
      ∧ log.countP Posting.isDelivery = 1 ∧ w.handed.length = 2 ∧ w.pool.meters.of .received = 2
      ∧ w.pool.tally.connections = 1 ∧ w.pool.meters.of (.refused .full) = 1 := by
  intro settings yes no w
  obtain ⟨log, hlog⟩ : Posted (fresh settings false) w := posted_run settings false _ (by simp)
  obtain ⟨hbalanced, _⟩ := accounts_agree hlog
  have htally : w.pool.tally = ⟨1, 1, 1, 1⟩ := by decide +kernel
  refine ⟨log, hlog, hbalanced, ?_, ?_, ?_, by decide +kernel, by decide +kernel, ?_, by decide +kernel⟩
  · rw [← hbalanced.accepted, htally]
  · exact hbalanced.submits.symm.trans (congrArg (fun t : Tally => t.accepted + t.rejected) htally)
  · rw [← hbalanced.jobs, htally]
  · rw [htally]

end World
end MiningPool

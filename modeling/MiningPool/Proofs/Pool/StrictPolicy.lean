import MiningPool.Proofs.Pool.Service

/-!
# Which shares reach the work source

Under the strict policy a share reaches the work source exactly if its miner has logged in and its job is
still good: the job is one of the last made for everyone, or it is the one the miner was last given at a
login, and not too many newer ones have been made for everyone since. Any other share is answered with a
fault, counted as rejected, and changes nothing else.

The pool decides this from the history of jobs and from what the session was last given (`Pool.knowsJob`).
`Accepts` says it in terms of all that happened before.
-/

namespace MiningPool

open Wire

namespace Service

/-- Whether a share of a session for a job is good, after some deeds, when `history` jobs are remembered. -/
def Accepts (history : Nat) (ds : List Deed) (id : Nat) (jobId : String) : Prop :=
  LoggedIn id ds
    ∧ (jobId ∈ ((minted ds).rtake history).map (·.id)
      ∨ ∃ j, (givenTo id ds).getLast? = some j ∧ j.id = jobId
          ∧ ((minted ds).filter (j.seq < ·.seq)).length < history)

variable {settings : Settings} {v : Service} {ds : List Deed} {source : Source}

theorem knowsJob_iff (h : Tracks settings v ds) (id : Nat) (jobId : String) :
    v.pool.knowsJob (v.sessions id) jobId = true
      ↔ jobId ∈ ((minted ds).rtake (max settings.mining.jobHistory 1)).map (·.id)
        ∨ ∃ j, (givenTo id ds).getLast? = some j ∧ j.id = jobId
            ∧ ((minted ds).filter (j.seq < ·.seq)).length < max settings.mining.jobHistory 1 := by
  rw [Pool.knowsJob, Bool.or_eq_true, Ledger.isKnown_iff h.remembers, h.assigned, h.capacity, or_comm]
  refine or_congr_right ?_
  cases (givenTo id ds).getLast? with
  | none => simp
  | some j =>
      rw [Option.any_some, Bool.and_eq_true, beq_iff_eq,
        Ledger.isLive_iff h.remembers h.capacity_pos h.growing, h.capacity]
      simp only [Option.some.injEq, exists_eq_left']

/-- **What the strict policy has against a share is decided by what happened before.** -/
theorem objection_cases (h : Tracks settings v ds) (hstrict : settings.mining.submitPolicy = .strict)
    (id : Nat) (jobId : String) :
    (¬ LoggedIn id ds ∧ v.pool.objection (v.sessions id) jobId = some .unauthorized)
      ∨ (LoggedIn id ds ∧ ¬ Accepts (max settings.mining.jobHistory 1) ds id jobId
          ∧ v.pool.objection (v.sessions id) jobId = some (.unknownJob jobId))
      ∨ (Accepts (max settings.mining.jobHistory 1) ds id jobId
          ∧ v.pool.objection (v.sessions id) jobId = none) := by
  have hpolicy : v.pool.settings.mining.submitPolicy = .strict := by rw [h.settings_eq, hstrict]
  rw [Pool.objection, hpolicy]
  dsimp only
  by_cases hin : LoggedIn id ds
  · rw [(h.authorized id).mpr hin]
    by_cases hknown : v.pool.knowsJob (v.sessions id) jobId = true
    · refine Or.inr (Or.inr ⟨⟨hin, (knowsJob_iff h id jobId).mp hknown⟩, ?_⟩)
      rw [hknown]
      rfl
    · refine Or.inr (Or.inl ⟨hin, fun hacc => hknown ((knowsJob_iff h id jobId).mpr hacc.2), ?_⟩)
      rw [Bool.not_eq_true] at hknown
      rw [hknown]
      rfl
  · refine Or.inl ⟨hin, ?_⟩
    have hauth : (v.sessions id).authorized = false := by
      rw [← Bool.not_eq_true]
      exact fun ha => hin ((h.authorized id).mp ha)
    rw [hauth]
    rfl

/-! ## The job of a login -/

/-- No job made before is newer than the one a login is given. -/
theorem jobs_le_given (h : Tracks settings v ds) {j : Job}
    (hj : (v.pool.jobForLogin source).1 = some j) : ∀ k ∈ jobs ds, k.seq ≤ j.seq := by
  intro k hk
  rcases Ledger.mintForSession_cases source v.pool.ledger with ⟨e, hmint⟩ | ⟨i, l, hmint, hmakes, _⟩
  · -- the current job is given once more, and that is the newest
    rw [Pool.jobForLogin_error source v.pool hmint] at hj
    have hnewest := h.newest
    rw [show v.pool.ledger.current = some j from hj] at hnewest
    exact hnewest.2 k hk
  · rw [Pool.jobForLogin_ok source v.pool hmint, Option.some.injEq] at hj
    rw [← hj, hmakes.seq]
    exact Nat.le_succ_of_le (h.drawn k hk)

/-- The job that a login is seen to push is the one it is given. -/
theorem given_of_push {id : Nat} {r : Request} {username address worker : String}
    (hr : Command.ofRequest r = .ok (.authorize username address worker)) {j : Job}
    (hpush : (v.pool.answer source (v.sessions id) r).reply = .ok ⟨.bool true, [j.notification]⟩) :
    ∃ i, (v.pool.jobForLogin source).1 = some i ∧ i.id = j.id := by
  obtain ⟨_, _, _, hreply⟩ := Pool.answer_login source v.pool (v.sessions id) hr
  rw [hreply, Except.ok.injEq, Reply.mk.injEq] at hpush
  cases hgiven : (v.pool.jobForLogin source).1 with
  | none => rw [hgiven] at hpush; exact absurd hpush.2 (by simp)
  | some i =>
      rw [hgiven, Option.toList_some, List.map_cons, List.map_nil, List.cons.injEq] at hpush
      -- the id is the first parameter of the push
      have hparams := congrArg Notification.params hpush.2.1
      simp only [Job.notification, Notification.of, List.cons.injEq, Json.Value.string.injEq] at hparams
      exact ⟨i, rfl, hparams.1⟩

/-- Acts in which a session makes no request give it nothing. -/
theorem givenTo_of_silent {id : Nat} (acts : List (Source × Act)) :
    ∀ v : Service, (∀ a ∈ acts, ∀ r, a.2 ≠ .request id r) → givenTo id (v.deeds acts) = [] := by
  induction acts with
  | nil => intro v _; rfl
  | cons a acts ih =>
      intro v hsilent
      rw [deeds, givenTo_append, ih _ (fun b hb => hsilent b (List.mem_cons_of_mem a hb)), List.append_nil]
      have ha := hsilent a List.mem_cons_self
      obtain ⟨src, act⟩ := a
      cases act with
      | mint =>
          simp only [deed?]
          split <;> rfl
      | request i r =>
          have hi : i ≠ id := fun he => ha r (by rw [he])
          simp only [deed?]
          split
          · simp only [givenTo, Option.toList_some, List.filterMap_cons, List.filterMap_nil, if_neg hi]
          · rfl

/-- **A job given at a login stays good for its session until enough newer ones are made for everyone.** -/
theorem accepts_given (h : Tracks settings v ds) {id history : Nat} {j : Job}
    (hj : (v.pool.jobForLogin source).1 = some j) {es : List Deed} (hsilent : givenTo id es = [])
    (hfew : (minted es).length < history) :
    Accepts history (ds ++ [.login id (some j)] ++ es) id j.id := by
  have hlogin : Deed.login id (some j) ∈ ds ++ [.login id (some j)] :=
    List.mem_append_right ds (List.mem_singleton.mpr rfl)
  refine ⟨⟨some j, List.mem_append_left _ hlogin⟩, Or.inr ⟨j, ?_, rfl, ?_⟩⟩
  · have hone : givenTo id [.login id (some j)] = [j] := by
      simp only [givenTo, List.filterMap_cons, List.filterMap_nil, if_true]
    rw [givenTo_append, hsilent, List.append_nil, givenTo_append, hone, List.getLast?_concat]
  · -- of the jobs made for everyone, only those made after the login can be newer
    have hold : (minted (ds ++ [.login id (some j)])).filter (j.seq < ·.seq) = [] := by
      rw [minted_append, show minted [.login id (some j)] = [] from rfl, List.append_nil,
        List.filter_eq_nil_iff]
      intro k hk
      rw [decide_eq_true_eq]
      exact Nat.not_lt.mpr (jobs_le_given h hj k (mem_jobs_of_mem_minted hk))
    rw [minted_append, List.filter_append, hold, List.nil_append]
    exact Nat.lt_of_le_of_lt (List.length_filter_le _ _) hfew

/-! ## Shares -/

/-- A good share reaches the work source. -/
theorem handed_of_accepts (h : Tracks settings v ds) (hstrict : settings.mining.submitPolicy = .strict)
    {id : Nat} {r : Request} {x : Submission} (hx : Command.ofRequest r = .ok (.submit x))
    (hacc : Accepts (max settings.mining.jobHistory 1) ds id x.jobId) :
    (v.pool.answer source (v.sessions id) r).handed = some (Pool.share (v.sessions id) x) := by
  rw [Pool.answer_ok source _ _ hx]
  refine Pool.submit_handed source _ _ ?_
  show v.pool.objection (v.sessions id) x.jobId = none
  rcases objection_cases h hstrict id x.jobId with ⟨hout, _⟩ | ⟨_, hbad, _⟩ | ⟨_, hnone⟩
  · exact absurd hacc.1 hout
  · exact absurd hacc hbad
  · exact hnone

/-- A share that is not good is answered with a fault, counted as rejected, and goes no further. -/
theorem answer_of_not_accepts (source : Source) (h : Tracks settings v ds)
    (hstrict : settings.mining.submitPolicy = .strict) {id : Nat} {r : Request} {x : Submission}
    (hx : Command.ofRequest r = .ok (.submit x))
    (hbad : ¬ Accepts (max settings.mining.jobHistory 1) ds id x.jobId) :
    ∃ fault, v.pool.answer source (v.sessions id) r
        = ⟨.error fault, (v.sessions id).recordShare false,
            { (v.pool.count (.request Method.submit)).count (.share false) with
              tally := v.pool.tally.share false }, none⟩
      ∧ (LoggedIn id ds → fault = .unknownJob x.jobId) ∧ (¬ LoggedIn id ds → fault = .unauthorized) := by
  have hsubmit : ∀ fault, v.pool.objection (v.sessions id) x.jobId = some fault →
      v.pool.answer source (v.sessions id) r
        = ⟨.error fault, (v.sessions id).recordShare false,
            { (v.pool.count (.request Method.submit)).count (.share false) with
              tally := v.pool.tally.share false }, none⟩ := by
    intro fault hobj
    rw [Pool.answer_ok source _ _ hx]
    exact Pool.submit_of_objection source (v.pool.count (.request Method.submit)) _ hobj
  rcases objection_cases h hstrict id x.jobId with ⟨hout, hobj⟩ | ⟨hin, _, hobj⟩ | ⟨hacc, _⟩
  · exact ⟨_, hsubmit _ hobj, fun hin => absurd hin hout, fun _ => rfl⟩
  · exact ⟨_, hsubmit _ hobj, fun _ => rfl, fun hout => absurd hin hout⟩
  · exact absurd hacc hbad

/--
**The strict policy, exactly.**

After any acts, a share reaches the work source if and only if it is good by `Accepts`. Otherwise it is
answered with `unauthorized` or `unknownJob`, counted as rejected for its session and for the pool, and
neither the jobs nor another session nor the work source notice. A job that was pushed at a login is good for
the session's next share, as long as fewer jobs have been made for everyone since than are remembered.
-/
theorem strict_policy_exact (settings : Settings) (hstrict : settings.mining.submitPolicy = .strict)
    (acts : List (Source × Act)) (source : Source) (id : Nat) (r : Request) (x : Submission)
    (hx : Command.ofRequest r = .ok (.submit x)) :
    let v := (fresh settings).run acts
    let ds := (fresh settings).deeds acts
    let history := max settings.mining.jobHistory 1
    let o := v.pool.answer source (v.sessions id) r
    (o.handed = some (Pool.share (v.sessions id) x) ↔ Accepts history ds id x.jobId)
      ∧ (¬ Accepts history ds id x.jobId →
          o.handed = none
          ∧ (¬ LoggedIn id ds → o.reply = .error .unauthorized)
          ∧ (LoggedIn id ds → o.reply = .error (.unknownJob x.jobId))
          ∧ o.session
              = { v.sessions id with invalidShares := (v.sessions id).invalidShares + 1 }
          ∧ o.pool.tally = { v.pool.tally with rejected := v.pool.tally.rejected + 1 }
          ∧ o.pool.ledger = v.pool.ledger
          ∧ ∀ other, other ≠ id →
              (v.step source (.request id r)).sessions other = v.sessions other)
      ∧ ∀ (login : Request) (username address worker : String) (src : Source) (j : Job)
          (others : List (Source × Act)),
          Command.ofRequest login = .ok (.authorize username address worker) →
          (v.pool.answer src (v.sessions id) login).reply = .ok ⟨.bool true, [j.notification]⟩ →
          (∀ a ∈ others, ∀ q, a.2 ≠ .request id q) →
          (minted ((v.step src (.request id login)).deeds others)).length < history →
          x.jobId = j.id →
          let w := (v.step src (.request id login)).run others
          (w.pool.answer source (w.sessions id) r).handed = some (Pool.share (w.sessions id) x) := by
  intro v ds history o
  have h : Tracks settings v ds := tracks_run settings acts
  refine ⟨⟨fun hhanded => ?_, handed_of_accepts h hstrict hx⟩, fun hbad => ?_, ?_⟩
  · by_contra hbad
    obtain ⟨fault, ho, _⟩ := answer_of_not_accepts source h hstrict hx hbad
    rw [show o = _ from ho] at hhanded
    exact absurd hhanded (by simp)
  · obtain ⟨fault, ho, hin, hout⟩ := answer_of_not_accepts source h hstrict hx hbad
    rw [show o = _ from ho]
    refine ⟨rfl, fun hn => by rw [hout hn], fun hl => by rw [hin hl], rfl, rfl, rfl, fun other hne => ?_⟩
    exact Function.update_of_ne hne _ _
  · intro login username address worker src j others hlogin hpush hsilent hfew hid w
    obtain ⟨i, hgiven, hsame⟩ := given_of_push hlogin hpush
    have hafter := tracks_login src h id hlogin
    rw [hgiven] at hafter
    refine handed_of_accepts (tracks_run_from others hafter) hstrict hx ?_
    rw [hid, ← hsame]
    exact accepts_given h hgiven (givenTo_of_silent others _ hsilent) hfew

/-- A miner that logs in first of all and then submits a share for the job it was pushed. -/
theorem strict_policy_exact_first_login :
    let settings : Settings :=
      { Settings.standard with mining := { Settings.Mining.standard with submitPolicy := .strict } }
    let source : Source := ⟨fun _ => .ok default, fun _ => .ok true⟩
    let login : Request := ⟨.null, Method.authorize, .array [.string "wallet.rig"]⟩
    let submit : Request :=
      ⟨.null, Method.submit, .array [.string "rig", .string "job_000001", .string "00", .string "ff"]⟩
    let x : Submission := ⟨"rig", "job_000001", "00", none, "ff"⟩
    let v := (fresh settings).step source (.request 1 login)
    settings.mining.submitPolicy = .strict
      ∧ Command.ofRequest submit = .ok (.submit x)
      ∧ (v.pool.answer source (v.sessions 1) submit).handed = some (Pool.share (v.sessions 1) x) := by
  intro settings source login submit x v
  have hx : Command.ofRequest submit = .ok (.submit x) := rfl
  refine ⟨rfl, hx, ?_⟩
  refine (strict_policy_exact settings rfl [] source 1 submit x hx).2.2 login "wallet.rig" "wallet" "rig"
    source (Job.of 1 default) [] ?_ ?_ ?_ ?_ ?_
  · decide
  · decide
  · exact fun a ha => absurd ha List.not_mem_nil
  · exact Nat.zero_lt_succ _
  · decide

end Service
end MiningPool

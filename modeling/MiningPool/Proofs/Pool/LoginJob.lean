import MiningPool.Proofs.Pool.StrictPolicy

/-!
# How long the job of a login is good

A session knows one job of its own, the one that its last login was answered with. So a job that was pushed at
a login stays good, while fewer newer jobs have been made for everyone than are remembered, exactly as long as
no later login of the session is answered with another job, be it a new one or the current one in place of
work that could not be had. Requests of any other kind, and the logins of others, make no difference. A job
that is remembered for everyone is good in any case.
-/

namespace MiningPool

open Wire

namespace Service

variable {settings : Settings} {v : Service} {ds es : List Deed} {source : Source} {id : Nat} {j : Job}

/-! ## Jobs of logins are the newest -/

theorem given_of_deed? {act : Act} {given : Option Job}
    (h : v.deed? source act = some (.login id given)) :
    (v.pool.jobForLogin source).1 = given
      ∧ ∃ r username address worker, act = .request id r
          ∧ Command.ofRequest r = .ok (.authorize username address worker) := by
  cases act with
  | mint =>
      rw [deed?] at h
      split at h
      · exact absurd h (by simp)
      · exact absurd h (by simp)
  | request i r =>
      rw [deed?] at h
      split at h
      · rename_i username address worker hr
        rw [Option.some.injEq, Deed.login.injEq] at h
        obtain ⟨rfl, hgiven⟩ := h
        exact ⟨hgiven, r, username, address, worker, rfl, hr⟩
      · exact absurd h (by simp)

/-- Whenever a login was given a job, none made before it was newer. -/
def NewestWhenGiven (ds : List Deed) : Prop :=
  ∀ before id k after, ds = before ++ .login id (some k) :: after → ∀ i ∈ jobs before, i.seq ≤ k.seq

theorem newestWhenGiven_nil : NewestWhenGiven [] :=
  fun _ _ _ _ h => absurd h.symm (by simp)

theorem newestWhenGiven_step (h : Tracks settings v ds) (hn : NewestWhenGiven ds) (source : Source)
    (act : Act) : NewestWhenGiven (ds ++ (v.deed? source act).toList) := by
  cases hdeed : v.deed? source act with
  | none =>
      rw [Option.toList_none, List.append_nil]
      exact hn
  | some d =>
      intro before i k after heq
      rcases List.eq_nil_or_concat after with rfl | ⟨later, x, rfl⟩
      · -- the login is the last thing that happened
        obtain ⟨rfl, hd⟩ := List.append_inj' heq rfl
        rw [Option.toList_some, List.singleton_inj] at hd
        rw [hd] at hdeed
        exact jobs_le_given h (given_of_deed? hdeed).1
      · rw [List.concat_eq_append, ← List.cons_append, ← List.append_assoc] at heq
        obtain ⟨hds, _⟩ := List.append_inj' heq rfl
        exact hn before i k later hds

theorem newestWhenGiven_run_from (acts : List (Source × Act)) :
    ∀ {v : Service} {ds : List Deed}, Tracks settings v ds → NewestWhenGiven ds →
      NewestWhenGiven (ds ++ v.deeds acts) := by
  induction acts with
  | nil => intro v ds _ hn; rw [deeds, List.append_nil]; exact hn
  | cons a acts ih =>
      intro v ds h hn
      rw [deeds, ← List.append_assoc]
      exact ih (tracks_step h a.1 a.2) (newestWhenGiven_step h hn a.1 a.2)

/-! ## The last job that was given -/

theorem login_of_mem_givenTo {k : Job} (h : k ∈ givenTo id ds) : .login id (some k) ∈ ds := by
  obtain ⟨d, hd, hk⟩ := List.mem_filterMap.mp h
  cases d with
  | minted i => exact absurd hk (by simp)
  | login i given =>
      dsimp only at hk
      split at hk
      · rename_i hi
        rw [← hi, ← hk]
        exact hd
      · exact absurd hk (by simp)

theorem getLast?_givenTo (ds es : List Deed) (id : Nat) (j : Job) :
    (givenTo id (ds ++ .login id (some j) :: es)).getLast? = some (((givenTo id es).getLast?).getD j) := by
  have hone : givenTo id (.login id (some j) :: es) = j :: givenTo id es := by
    simp only [givenTo, List.filterMap_cons, if_true]
  rw [givenTo_append, hone, List.getLast?_append, List.getLast?_cons, Option.some_or]

/-- **A job of a login is good as long as it is the last one given, or remembered for everyone.** -/
theorem accepts_login_job_iff {history : Nat} (hn : NewestWhenGiven (ds ++ .login id (some j) :: es))
    (hfew : ((minted (ds ++ .login id (some j) :: es)).filter (j.seq < ·.seq)).length < history) :
    Accepts history (ds ++ .login id (some j) :: es) id j.id
      ↔ (∀ k, (givenTo id es).getLast? = some k → k.id = j.id)
        ∨ j.id ∈ ((minted (ds ++ .login id (some j) :: es)).rtake history).map (·.id) := by
  have hin : LoggedIn id (ds ++ .login id (some j) :: es) :=
    ⟨some j, List.mem_append_right ds List.mem_cons_self⟩
  have hlast := getLast?_givenTo ds es id j
  constructor
  · rintro ⟨_, hknown | ⟨k, hk, hid, _⟩⟩
    · exact Or.inr hknown
    · refine Or.inl fun i hi => ?_
      rw [hlast, hi, Option.getD_some, Option.some.injEq] at hk
      rw [hk, hid]
  · rintro (hsame | hknown)
    · refine ⟨hin, Or.inr ?_⟩
      cases hes : (givenTo id es).getLast? with
      | none => exact ⟨j, by rw [hlast, hes, Option.getD_none], rfl, hfew⟩
      | some k =>
          refine ⟨k, by rw [hlast, hes, Option.getD_some], hsame k hes, ?_⟩
          -- what is newer than the later job is newer than this one
          obtain ⟨e₁, e₂, heq⟩ := List.append_of_mem (login_of_mem_givenTo (List.mem_of_getLast? hes))
          have hle : j.seq ≤ k.seq := by
            refine hn (ds ++ .login id (some j) :: e₁) id k e₂ ?_ j ?_
            · rw [heq, List.append_assoc, List.cons_append]
            · rw [jobs_append]
              exact List.mem_append_right _ List.mem_cons_self
          refine Nat.lt_of_le_of_lt (List.Sublist.length_le ?_) hfew
          refine List.monotone_filter_right _ fun i hi => ?_
          rw [decide_eq_true_eq] at hi ⊢
          omega
    · exact ⟨hin, Or.inl hknown⟩

/--
**The job of a login, and what becomes of it.**

A login that is given a job pushes it. As long as fewer newer jobs have been made for everyone than are
remembered, a share for it reaches the work source if and only if no later login of the session has put
another job in its place, or the job is itself one of those remembered for everyone. Otherwise the job is
unknown.
-/
theorem login_job_good_iff (settings : Settings) (hstrict : settings.mining.submitPolicy = .strict)
    (before after : List (Source × Act)) (source src : Source) (id : Nat) (login r : Request) (j : Job)
    (x : Submission)
    (hlogin : ((fresh settings).run before).deed? source (.request id login) = some (.login id (some j)))
    (hx : Command.ofRequest r = .ok (.submit x)) (hj : x.jobId = j.id) :
    let v := (fresh settings).run before
    let v' := v.step source (.request id login)
    let w := v'.run after
    let ds := (fresh settings).deeds before ++ .login id (some j) :: v'.deeds after
    let history := max settings.mining.jobHistory 1
    let good := (∀ k, (givenTo id (v'.deeds after)).getLast? = some k → k.id = j.id)
      ∨ j.id ∈ ((minted ds).rtake history).map (·.id)
    let o := w.pool.answer src (w.sessions id) r
    (v.pool.answer source (v.sessions id) login).reply = .ok ⟨.bool true, [j.notification]⟩
      ∧ (((minted ds).filter (j.seq < ·.seq)).length < history →
          (o.handed = some (Pool.share (w.sessions id) x) ↔ good)
          ∧ (¬ good → o.reply = .error (.unknownJob j.id))) := by
  intro v v' w ds history good o
  obtain ⟨hgiven, q, username, address, worker, hact, hq⟩ := given_of_deed? hlogin
  rw [Act.request.injEq] at hact
  obtain ⟨-, rfl⟩ := hact
  have h : Tracks settings v ((fresh settings).deeds before) := tracks_run settings before
  have h' := tracks_login source h id hq
  rw [hgiven] at h'
  have hall : (fresh settings).deeds before ++ [.login id (some j)] ++ v'.deeds after = ds :=
    List.append_cons _ _ _ |>.symm
  have htracks : Tracks settings w ds := hall ▸ tracks_run_from after h'
  have hnewest : NewestWhenGiven ds := by
    have hstep := newestWhenGiven_step h (newestWhenGiven_run_from before (tracks_fresh settings)
      newestWhenGiven_nil) source (.request id login)
    rw [hlogin, Option.toList_some] at hstep
    exact hall ▸ newestWhenGiven_run_from after h' hstep
  refine ⟨?_, fun hfew => ?_⟩
  · obtain ⟨_, _, _, hreply⟩ := Pool.answer_login source v.pool (v.sessions id) hq
    rw [hreply, hgiven]
    rfl
  · have hgood : Accepts history ds id x.jobId ↔ good := hj ▸ accepts_login_job_iff hnewest hfew
    have hbad : ¬ good → o.reply = .error (.unknownJob j.id) ∧ o.handed = none := by
      intro hnot
      obtain ⟨fault, ho, hin, _⟩ :=
        answer_of_not_accepts src htracks hstrict hx (fun hacc => hnot (hgood.mp hacc))
      have hlogged : LoggedIn id ds := ⟨some j, List.mem_append_right _ List.mem_cons_self⟩
      rw [show o = _ from ho, hin hlogged, hj]
      exact ⟨rfl, rfl⟩
    refine ⟨⟨fun hhanded => ?_, fun hyes => ?_⟩, fun hnot => (hbad hnot).1⟩
    · by_contra hnot
      rw [(hbad hnot).2] at hhanded
      exact absurd hhanded (by simp)
    · exact handed_of_accepts htracks hstrict hx (hgood.mpr hyes)

/-- A miner that logs in twice, the second time when there is no work, and then submits a share for its job. -/
theorem login_job_good_iff_fallback :
    let settings : Settings :=
      { Settings.standard with mining := { Settings.Mining.standard with submitPolicy := .strict } }
    let source : Source := ⟨fun _ => .ok default, fun _ => .ok true⟩
    let dry : Source := ⟨fun _ => .error .unauthorized, fun _ => .ok true⟩
    let login : Request := ⟨.null, Method.authorize, .array [.string "wallet.rig"]⟩
    let submit : Request :=
      ⟨.null, Method.submit, .array [.string "rig", .string "job_000001", .string "00", .string "ff"]⟩
    let x : Submission := ⟨"rig", "job_000001", "00", none, "ff"⟩
    let w := ((fresh settings).step source (.request 1 login)).step dry (.request 1 login)
    settings.mining.submitPolicy = .strict
      ∧ (fresh settings).deed? source (.request 1 login) = some (.login 1 (some (Job.of 1 default)))
      ∧ Command.ofRequest submit = .ok (.submit x)
      ∧ (w.pool.answer source (w.sessions 1) submit).handed = some (Pool.share (w.sessions 1) x) := by
  intro settings source dry login submit x w
  have hx : Command.ofRequest submit = .ok (.submit x) := rfl
  refine ⟨rfl, rfl, hx, ?_⟩
  have h := login_job_good_iff settings rfl [] [(dry, .request 1 login)] source source 1 login submit
    (Job.of 1 default) x rfl hx (by decide)
  refine ((h.2 (by decide)).1).mpr (Or.inl fun k hk => ?_)
  obtain rfl : Job.of 1 default = k := Option.some.inj hk
  rfl

/-- The job of a login can be forgotten with no newer one made for everyone: a second login forgets it. -/
theorem login_job_forgotten :
    ¬ ∀ (settings : Settings) (before after : List (Source × Act)) (source src : Source) (id : Nat)
        (login r : Request) (j : Job) (x : Submission), settings.mining.submitPolicy = .strict →
        ((fresh settings).run before).deed? source (.request id login) = some (.login id (some j)) →
        Command.ofRequest r = .ok (.submit x) → x.jobId = j.id →
        let v := (fresh settings).run before
        let v' := v.step source (.request id login)
        let w := v'.run after
        let ds := (fresh settings).deeds before ++ .login id (some j) :: v'.deeds after
        ((minted ds).filter (j.seq < ·.seq)).length < max settings.mining.jobHistory 1 →
        (w.pool.answer src (w.sessions id) r).reply ≠ .error (.unknownJob j.id) := by
  intro h
  let source : Source := ⟨fun _ => .ok default, fun _ => .ok true⟩
  let login : Request := ⟨.null, Method.authorize, .array [.string "wallet.rig"]⟩
  let submit : Request :=
    ⟨.null, Method.submit, .array [.string "rig", .string "job_000001", .string "00", .string "ff"]⟩
  refine h { Settings.standard with mining := { Settings.Mining.standard with submitPolicy := .strict } }
    [] [(source, .request 1 login)] source source 1 login submit (Job.of 1 default)
    ⟨"rig", "job_000001", "00", none, "ff"⟩ rfl rfl rfl (by decide) (by decide) ?_
  decide

end Service
end MiningPool

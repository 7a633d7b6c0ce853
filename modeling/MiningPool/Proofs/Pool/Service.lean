import Mathlib.Logic.Function.Basic
import MiningPool.Pool.Broadcast
import MiningPool.Proofs.Pool.Answer
import MiningPool.Proofs.Work.Ledger

/-!
# Requests and rounds, one at a time

A `Service` is the pool with the sessions of all its miners and nothing of their connections: requests reach
it one after the other, and in between jobs are made for everyone. Each act comes with the work source as it
is at that time.

What the ledger and the sessions remember is a digest of what happened. `Deed` is what happened in full: each
job that was made for everyone, and each login with the job it was answered with. `Tracks` says that the
digest is true to it, and `tracks_run` that it always is.
-/

namespace MiningPool

open Wire

/-- The pool with the session of every id. -/
structure Service where
  pool : Pool
  sessions : Nat → Session

namespace Service

/-- Something the service is asked for. -/
inductive Act where
  /-- The miner of a session makes a request. -/
  | request (id : Nat) (r : Request)
  | mint

def fresh (settings : Settings) : Service := ⟨.fresh settings, (Pool.fresh settings).session⟩

def step (v : Service) (source : Source) : Act → Service
  | .request id r =>
    let o := v.pool.answer source (v.sessions id) r
    ⟨o.pool, Function.update v.sessions id o.session⟩
  | .mint => { v with pool := (v.pool.mint source).2 }

def run (v : Service) (acts : List (Source × Act)) : Service := acts.foldl (fun v a => v.step a.1 a.2) v

/-! ## What happened -/

/-- Something that happened to the jobs. -/
inductive Deed where
  /-- A job was made for everyone. -/
  | minted (j : Job)
  /-- A miner logged in and got a job, if there was one. -/
  | login (id : Nat) (given : Option Job)
  deriving DecidableEq, Repr

/-- What one act does to the jobs. -/
def deed? (v : Service) (source : Source) : Act → Option Deed
  | .request id r =>
    match Command.ofRequest r with
    | .ok (.authorize ..) => some (.login id (v.pool.jobForLogin source).1)
    | _ => none
  | .mint =>
    match (v.pool.mint source).1 with
    | .ok j => some (.minted j)
    | .error _ => none

/-- What some acts do to the jobs, in order. -/
def deeds (v : Service) : List (Source × Act) → List Deed
  | [] => []
  | a :: acts => (v.deed? a.1 a.2).toList ++ (v.step a.1 a.2).deeds acts

/-- The jobs made for everyone, in order. -/
def minted (ds : List Deed) : List Job :=
  ds.filterMap fun
    | .minted j => some j
    | .login .. => none

/-- The jobs that logins of a session were answered with, in order. -/
def givenTo (id : Nat) (ds : List Deed) : List Job :=
  ds.filterMap fun
    | .minted _ => none
    | .login i given => if i = id then given else none

/-- All jobs made for everyone or given to someone. -/
def jobs (ds : List Deed) : List Job :=
  ds.filterMap fun
    | .minted j => some j
    | .login _ given => given

/-- Whether a session has logged in. -/
def LoggedIn (id : Nat) (ds : List Deed) : Prop := ∃ given, .login id given ∈ ds

theorem minted_append (ds es : List Deed) : minted (ds ++ es) = minted ds ++ minted es :=
  List.filterMap_append

theorem givenTo_append (id : Nat) (ds es : List Deed) :
    givenTo id (ds ++ es) = givenTo id ds ++ givenTo id es := List.filterMap_append

theorem jobs_append (ds es : List Deed) : jobs (ds ++ es) = jobs ds ++ jobs es :=
  List.filterMap_append

theorem mem_jobs_of_mem_minted {ds : List Deed} {j : Job} (h : j ∈ minted ds) : j ∈ jobs ds := by
  obtain ⟨d, hd, hj⟩ := List.mem_filterMap.mp h
  refine List.mem_filterMap.mpr ⟨d, hd, ?_⟩
  cases d with
  | minted k => exact hj
  | login i given => exact absurd hj (by simp)

theorem loggedIn_append (id : Nat) (ds es : List Deed) :
    LoggedIn id (ds ++ es) ↔ LoggedIn id ds ∨ LoggedIn id es := by
  simp only [LoggedIn, List.mem_append, exists_or]

/-! ## The pool remembers what happened -/

/-- The pool and the sessions are true to what happened. -/
structure Tracks (settings : Settings) (v : Service) (ds : List Deed) : Prop where
  settings_eq : v.pool.settings = settings
  capacity : v.pool.ledger.capacity = max settings.mining.jobHistory 1
  /-- No job has a number that was not drawn yet. -/
  drawn : ∀ j ∈ jobs ds, j.seq ≤ v.pool.ledger.lastSeq
  newest : IsNewest v.pool.ledger.current (jobs ds)
  growing : (minted ds).Pairwise (·.seq < ·.seq)
  remembers : v.pool.ledger.Remembers (minted ds)
  authorized : ∀ id, (v.sessions id).authorized = true ↔ LoggedIn id ds
  assigned : ∀ id, (v.sessions id).assigned = (givenTo id ds).getLast?

theorem Tracks.capacity_pos {settings : Settings} {v : Service} {ds : List Deed}
    (h : Tracks settings v ds) : 0 < v.pool.ledger.capacity := by
  rw [h.capacity]; omega

theorem tracks_fresh (settings : Settings) : Tracks settings (fresh settings) [] where
  settings_eq := rfl
  capacity := rfl
  drawn := fun _ hj => absurd hj List.not_mem_nil
  newest := rfl
  growing := List.Pairwise.nil
  remembers := Ledger.remembers_fresh _ _
  authorized := fun _ =>
    ⟨fun h => absurd h Bool.false_ne_true, fun ⟨_, h⟩ => absurd h List.not_mem_nil⟩
  assigned := fun _ => rfl

variable {settings : Settings} {v : Service} {ds : List Deed} {source : Source}

/-- A draw that leads to no job only uses up a number. -/
theorem Tracks.draw (h : Tracks settings v ds) {p : Pool} (hsettings : p.settings = v.pool.settings)
    (hledger : p.ledger = { v.pool.ledger with lastSeq := v.pool.ledger.lastSeq + 1 }) :
    Tracks settings { v with pool := p } ds where
  settings_eq := hsettings.trans h.settings_eq
  capacity := by rw [hledger]; exact h.capacity
  drawn := fun j hj => by rw [hledger]; exact Nat.le_succ_of_le (h.drawn j hj)
  newest := by rw [hledger]; exact h.newest
  growing := h.growing
  remembers := by rw [hledger]; exact h.remembers
  authorized := h.authorized
  assigned := h.assigned

/-- The number of a job that was just made is greater than those before it, and not greater than the last
one drawn. -/
theorem Tracks.drawn_makes (h : Tracks settings v ds) {j : Job} {l : Ledger}
    (hmakes : v.pool.ledger.Makes j l) {k : Job} (hk : k = j ∨ k ∈ jobs ds) : k.seq ≤ l.lastSeq := by
  rw [hmakes.lastSeq]
  rcases hk with rfl | hk
  · exact Nat.le_of_eq hmakes.seq
  · exact Nat.le_succ_of_le (h.drawn k hk)

theorem tracks_mint (h : Tracks settings v ds) :
    Tracks settings (v.step source .mint) (ds ++ (v.deed? source .mint).toList) := by
  rcases Ledger.mint_cases source v.pool.ledger with ⟨e, hmint⟩ | ⟨j, l, hmint, hmakes, hrem⟩
  · have hdeed : v.deed? source .mint = none := by simp only [deed?, Pool.mint, hmint]
    rw [hdeed, Option.toList_none, List.append_nil]
    refine h.draw rfl ?_
    show (v.pool.ledger.mint source).2 = _
    rw [hmint]
  · have hdeed : v.deed? source .mint = some (.minted j) := by simp only [deed?, Pool.mint, hmint]
    have hstep : v.step source .mint = { v with pool := { v.pool with ledger := l } } := by
      simp only [step, Pool.mint, hmint]
    -- the new job is the last one of everything that is remembered
    have hjobs : jobs (ds ++ [.minted j]) = jobs ds ++ [j] := jobs_append ds [.minted j]
    have hminted : minted (ds ++ [.minted j]) = minted ds ++ [j] := minted_append ds [.minted j]
    have hmem : ∀ k, k ∈ jobs ds ++ [j] ↔ k = j ∨ k ∈ jobs ds := fun k => by
      rw [List.mem_append, List.mem_singleton, or_comm]
    rw [hdeed, hstep, Option.toList_some]
    refine ⟨h.settings_eq, hmakes.capacity.trans h.capacity, ?_, ?_, ?_, ?_, fun id => ?_, fun id => ?_⟩
    · rw [hjobs]
      exact fun k hk => h.drawn_makes hmakes ((hmem k).mp hk)
    · rw [hjobs]
      exact hmakes.newest h.newest hmem
    · rw [hminted, List.pairwise_append]
      refine ⟨h.growing, List.pairwise_singleton _ _, fun k hk i hi => ?_⟩
      rw [List.mem_singleton.mp hi, hmakes.seq]
      exact Nat.lt_succ_of_le (h.drawn k (mem_jobs_of_mem_minted hk))
    · rw [hminted]
      exact hrem _ h.capacity_pos h.remembers
    · rw [loggedIn_append]
      refine (h.authorized id).trans ⟨Or.inl, ?_⟩
      rintro (hin | ⟨given, hg⟩)
      · exact hin
      · exact absurd (List.mem_singleton.mp hg) (by simp)
    · rw [givenTo_append, show givenTo id [.minted j] = [] from rfl, List.append_nil]
      exact h.assigned id

/-- What the deeds of a login say of each session. -/
theorem Tracks.login (h : Tracks settings v ds) {id : Nat} {given : Option Job} {s : Session}
    (hauth : s.authorized = true) (hassigned : s.assigned = (given <|> (v.sessions id).assigned)) (i : Nat) :
    ((Function.update v.sessions id s i).authorized = true ↔ LoggedIn i (ds ++ [.login id given]))
      ∧ (Function.update v.sessions id s i).assigned
          = (givenTo i (ds ++ [.login id given])).getLast? := by
  rw [loggedIn_append, givenTo_append]
  by_cases hi : i = id
  · subst hi
    rw [Function.update_self, hauth, hassigned, h.assigned]
    refine ⟨⟨fun _ => Or.inr ⟨given, List.mem_singleton.mpr rfl⟩, fun _ => rfl⟩, ?_⟩
    have hone : givenTo i [.login i given] = given.toList := by
      simp only [givenTo, List.filterMap_cons, List.filterMap_nil, if_true]
      cases given with
      | none => rfl
      | some j => rfl
    rw [hone, List.getLast?_append]
    cases given with
    | none => rfl
    | some j => rfl
  · rw [Function.update_of_ne hi, h.assigned]
    have hnone : givenTo i [.login id given] = [] := by
      simp only [givenTo, List.filterMap_cons, List.filterMap_nil, if_neg (Ne.symm hi)]
    rw [hnone, List.append_nil]
    refine ⟨(h.authorized i).trans ⟨Or.inl, ?_⟩, rfl⟩
    rintro (hin | ⟨g, hg⟩)
    · exact hin
    · rw [List.mem_singleton, Deed.login.injEq] at hg
      exact absurd hg.1 hi

theorem tracks_login (source : Source) (h : Tracks settings v ds) (id : Nat) {r : Request}
    {username address worker : String} (hr : Command.ofRequest r = .ok (.authorize username address worker)) :
    Tracks settings (v.step source (.request id r))
      (ds ++ [.login id (v.pool.jobForLogin source).1]) := by
  have hrooms := Pool.sameRooms_answer source v.pool (v.sessions id) r
  obtain ⟨hauth, hassigned, hledger, _⟩ := Pool.answer_login source v.pool (v.sessions id) hr
  have hlogin := fun i => h.login hauth hassigned i
  have hminted : ∀ given, minted (ds ++ [.login id given]) = minted ds := fun given => by
    rw [minted_append]; exact List.append_nil _
  have hjobs : ∀ given k, k ∈ jobs (ds ++ [.login id given]) ↔ given = some k ∨ k ∈ jobs ds := by
    intro given k
    rw [jobs_append, List.mem_append, or_comm, jobs, List.mem_filterMap]
    simp only [List.mem_singleton, exists_eq_left]
  rcases Ledger.mintForSession_cases source v.pool.ledger with
    ⟨e, hmint⟩ | ⟨j, l, hmint, hmakes, hrecent⟩
  · -- the current job is given once more
    rw [Pool.jobForLogin_error source v.pool hmint] at hledger hlogin ⊢
    -- a job given again is no new one
    have hgiven : ∀ k, k ∈ jobs (ds ++ [.login id v.pool.ledger.current]) ↔ k ∈ jobs ds := by
      intro k
      rw [hjobs]
      refine ⟨?_, Or.inr⟩
      rintro (hk | hk)
      · have hnewest := h.newest
        rw [hk] at hnewest
        exact hnewest.1
      · exact hk
    have hstep : (v.step source (.request id r)).pool.ledger
        = { v.pool.ledger with lastSeq := v.pool.ledger.lastSeq + 1 } := hledger
    refine ⟨hrooms.settings.trans h.settings_eq, ?_, ?_, ?_, ?_, ?_, fun i => (hlogin i).1,
      fun i => (hlogin i).2⟩
    · rw [hstep]; exact h.capacity
    · rw [hstep]
      exact fun k hk => Nat.le_succ_of_le (h.drawn k ((hgiven k).mp hk))
    · rw [hstep]
      exact h.newest.congr hgiven
    · rw [hminted]; exact h.growing
    · rw [hminted, hstep]
      exact h.remembers.congr rfl rfl
  · -- a job of its own, newer than all before it
    rw [Pool.jobForLogin_ok source v.pool hmint] at hledger hlogin ⊢
    have hgiven : ∀ k, k ∈ jobs (ds ++ [.login id (some j)]) ↔ k = j ∨ k ∈ jobs ds := by
      intro k
      rw [hjobs, Option.some.injEq, eq_comm]
    have hstep : (v.step source (.request id r)).pool.ledger = l := hledger
    refine ⟨hrooms.settings.trans h.settings_eq, ?_, ?_, ?_, ?_, ?_, fun i => (hlogin i).1,
      fun i => (hlogin i).2⟩
    · rw [hstep, hmakes.capacity]; exact h.capacity
    · rw [hstep]
      exact fun k hk => h.drawn_makes hmakes ((hgiven k).mp hk)
    · rw [hstep]
      exact hmakes.newest h.newest hgiven
    · rw [hminted]; exact h.growing
    · rw [hminted, hstep]
      exact h.remembers.congr hrecent hmakes.capacity

theorem tracks_other (h : Tracks settings v ds) (id : Nat) {r : Request}
    (hr : ∀ username address worker, Command.ofRequest r ≠ .ok (.authorize username address worker)) :
    Tracks settings (v.step source (.request id r)) ds := by
  have hrooms := Pool.sameRooms_answer source v.pool (v.sessions id) r
  obtain ⟨hauth, hassigned, hledger⟩ := Pool.answer_other source v.pool (v.sessions id) hr
  have hstep : (v.step source (.request id r)).pool.ledger = v.pool.ledger := hledger
  have hsame : ∀ i, ((v.step source (.request id r)).sessions i).authorized = (v.sessions i).authorized
      ∧ ((v.step source (.request id r)).sessions i).assigned = (v.sessions i).assigned := by
    intro i
    show (Function.update v.sessions id _ i).authorized = _ ∧ (Function.update v.sessions id _ i).assigned = _
    by_cases hi : i = id
    · subst hi
      rw [Function.update_self]
      exact ⟨hauth, hassigned⟩
    · rw [Function.update_of_ne hi]
      exact ⟨rfl, rfl⟩
  refine ⟨hrooms.settings.trans h.settings_eq, ?_, ?_, ?_, h.growing, ?_, fun i => ?_, fun i => ?_⟩
  · rw [hstep]; exact h.capacity
  · rw [hstep]; exact h.drawn
  · rw [hstep]; exact h.newest
  · rw [hstep]; exact h.remembers
  · rw [(hsame i).1]; exact h.authorized i
  · rw [(hsame i).2]; exact h.assigned i

/-- **What the pool and the sessions remember stays true to what happened.** -/
theorem tracks_step (h : Tracks settings v ds) (source : Source) (a : Act) :
    Tracks settings (v.step source a) (ds ++ (v.deed? source a).toList) := by
  cases a with
  | mint => exact tracks_mint h
  | request id r =>
      -- only a login does anything to the jobs
      by_cases hr : ∃ username address worker,
          Command.ofRequest r = .ok (.authorize username address worker)
      · obtain ⟨username, address, worker, hr⟩ := hr
        have hdeed : v.deed? source (.request id r) = some (.login id (v.pool.jobForLogin source).1) := by
          simp only [deed?, hr]
        rw [hdeed]
        exact tracks_login source h id hr
      · have hother : ∀ username address worker,
            Command.ofRequest r ≠ .ok (.authorize username address worker) :=
          fun username address worker he => hr ⟨username, address, worker, he⟩
        have hdeed : v.deed? source (.request id r) = none := by
          rw [deed?]
          split
          · rename_i he; exact absurd he (hother _ _ _)
          · rfl
        rw [hdeed, Option.toList_none, List.append_nil]
        exact tracks_other h id hother

theorem tracks_run_from (acts : List (Source × Act)) :
    ∀ {v : Service} {ds : List Deed}, Tracks settings v ds →
      Tracks settings (v.run acts) (ds ++ v.deeds acts) := by
  induction acts with
  | nil => intro v ds h; rw [deeds, List.append_nil]; exact h
  | cons a acts ih =>
      intro v ds h
      rw [deeds, ← List.append_assoc]
      exact ih (tracks_step h a.1 a.2)

/-- **What the pool and the sessions remember is true to what happened, after any acts.** -/
theorem tracks_run (settings : Settings) (acts : List (Source × Act)) :
    Tracks settings ((fresh settings).run acts) ((fresh settings).deeds acts) :=
  tracks_run_from acts (tracks_fresh settings)

end Service
end MiningPool

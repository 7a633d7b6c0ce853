import Mathlib.Data.List.Nodup
import MiningPool.Proofs.Work.Interleaving
import MiningPool.Proofs.Work.Ledger

/-!
# Many calls at once

However the calls that make jobs overlap, numbers are drawn one after the other, no id is given out twice, and
the current job is the newest of those stored so far. A call whose fetch fails leaves nothing behind but the
number it has drawn.

A call counts as successful from the moment its job is stored: `made` are the jobs of all such calls, and
`returned` those of the calls that have ended. The two are the same whenever no call is between storing its
job and returning it.
-/

namespace MiningPool

/-- The job a call has got its work for. -/
def Stage.job? : Stage → Option Job
  | .fetching => none
  | .storing j | .showing j | .remembering j => some j

/-- The job a call has stored. -/
def Stage.stored? : Stage → Option Job
  | .fetching | .storing _ => none
  | .showing j | .remembering j => some j

namespace Minting

/-- The jobs of the calls that ended well. -/
def returned (m : Minting) : List Job := m.ended.filterMap fun e => e.2.toOption

/-- The jobs that have got as far as a stage tells, those of the calls that ended well among them. -/
def jobsBy (f : Stage → Option Job) (m : Minting) : List Job := m.returned ++ m.calls.filterMap fun c => f c.stage

/-- The jobs stored so far. -/
def made (m : Minting) : List Job := m.jobsBy Stage.stored?

theorem mem_returned {m : Minting} {j : Job} : j ∈ m.returned ↔ ∃ n, (n, .ok j) ∈ m.ended := by
  simp only [returned, List.mem_filterMap]
  constructor
  · rintro ⟨⟨n, outcome⟩, he, hj⟩
    cases outcome with
    | error e => exact absurd hj (by simp [Except.toOption])
    | ok k =>
        refine ⟨n, ?_⟩
        rw [← show k = j from Option.some.inj hj]
        exact he
  · rintro ⟨n, he⟩
    exact ⟨(n, .ok j), he, rfl⟩

theorem mem_jobsBy {m : Minting} {f : Stage → Option Job} {j : Job} :
    j ∈ m.jobsBy f ↔ (∃ n, (n, .ok j) ∈ m.ended) ∨ ∃ c ∈ m.calls, f c.stage = some j := by
  rw [jobsBy, List.mem_append, mem_returned, List.mem_filterMap]

theorem mem_made {m : Minting} {j : Job} :
    j ∈ m.made ↔ (∃ n, (n, .ok j) ∈ m.ended) ∨ ∃ c ∈ m.calls, c.stage.stored? = some j :=
  mem_jobsBy (f := Stage.stored?)

/-! ## What every move keeps -/

/-- What holds of the calls and the ledger at any time. -/
structure Orderly (m : Minting) : Prop where
  counted : m.ledger.lastSeq = m.started
  numbered : ∀ c ∈ m.calls, c.number = c.seq ∧ c.seq ≤ m.started
  ended_le : ∀ e ∈ m.ended, e.1 ≤ m.started
  /-- No two calls under way have drawn the same number. -/
  distinct : (m.calls.map (·.seq)).Nodup
  /-- No call ends twice. -/
  ended_distinct : (m.ended.map (·.1)).Nodup
  /-- No call goes on after its end. -/
  apart : ∀ c ∈ m.calls, ∀ e ∈ m.ended, c.seq ≠ e.1
  /-- A call makes the job of its own number. -/
  called : ∀ c ∈ m.calls, ∀ j, c.stage.job? = some j → j.seq = c.seq ∧ j.id = jobId c.seq
  given : ∀ n j, (n, .ok j) ∈ m.ended → j.seq = n ∧ j.id = jobId n
  newest : IsNewest m.ledger.current m.made

theorem orderly_fresh (difficulty history : Nat) : Orderly (fresh (.fresh difficulty history)) where
  counted := rfl
  numbered := fun _ hc => absurd hc List.not_mem_nil
  ended_le := fun _ he => absurd he List.not_mem_nil
  distinct := List.nodup_nil
  ended_distinct := List.nodup_nil
  apart := fun _ hc => absurd hc List.not_mem_nil
  called := fun _ hc => absurd hc List.not_mem_nil
  given := fun _ _ he => absurd he List.not_mem_nil
  newest := rfl

variable {m m' : Minting}

/-- The number of a call under way stands for the call. -/
theorem Orderly.eq_of_seq_eq (h : Orderly m) {c d : Call} (hc : c ∈ m.calls) (hd : d ∈ m.calls)
    (hseq : c.seq = d.seq) : c = d :=
  List.inj_on_of_nodup_map h.distinct hc hd hseq

theorem job?_of_stored? {s : Stage} {j : Job} (h : s.stored? = some j) : s.job? = some j := by
  cases s with
  | fetching => exact absurd h (by simp [Stage.stored?])
  | storing k => exact absurd h (by simp [Stage.stored?])
  | showing k => exact h
  | remembering k => exact h

/-! ## Where jobs come from -/

/-- A call that gets to another stage brings in the job that has got far enough by then. -/
theorem mem_jobsBy_moved {f : Stage → Option Job} (h : Orderly m) {c : Call} (hc : c ∈ m.calls) (l : Ledger)
    (s : Stage) (j : Job) (hkeeps : ∀ k, f c.stage = some k → f s = some k) :
    j ∈ (m.moved c.seq l s).jobsBy f ↔ f s = some j ∨ j ∈ m.jobsBy f := by
  rw [mem_jobsBy, mem_jobsBy]
  constructor
  · rintro (hret | ⟨d, hd, hj⟩)
    · exact Or.inr (Or.inl hret)
    · rcases mem_calls_moved.mp hd with ⟨hd, _⟩ | ⟨_, _, _, rfl⟩
      · exact Or.inr (Or.inr ⟨d, hd, hj⟩)
      · exact Or.inl hj
  · rintro (hj | hret | ⟨d, hd, hj⟩)
    · exact Or.inr ⟨{ c with stage := s }, mem_calls_moved.mpr (Or.inr ⟨c, hc, rfl, rfl⟩), hj⟩
    · exact Or.inl hret
    · by_cases hseq : d.seq = c.seq
      -- a call of the same number is the call itself
      · rw [h.eq_of_seq_eq hd hc hseq] at hj
        exact Or.inr ⟨{ c with stage := s }, mem_calls_moved.mpr (Or.inr ⟨c, hc, rfl, rfl⟩),
          hkeeps j hj⟩
      · exact Or.inr ⟨d, mem_calls_moved.mpr (Or.inl ⟨hd, hseq⟩), hj⟩

/-- A call that ends brings in the job it returns, and takes no other with it. -/
theorem mem_jobsBy_left {f : Stage → Option Job} (h : Orderly m) {c : Call} (hc : c ∈ m.calls) (l : Ledger)
    (outcome : Except Fault Job) (j : Job) (hkeeps : ∀ k, f c.stage = some k → outcome = .ok k) :
    j ∈ (m.left l c outcome).jobsBy f ↔ outcome = .ok j ∨ j ∈ m.jobsBy f := by
  have hended : (∃ n, (n, .ok j) ∈ (m.left l c outcome).ended)
      ↔ (∃ n, (n, .ok j) ∈ m.ended) ∨ outcome = .ok j := by
    simp only [left, List.mem_append, List.mem_singleton, Prod.mk.injEq, exists_or]
    refine or_congr_right ?_
    constructor
    · rintro ⟨_, _, he⟩
      exact he.symm
    · intro he
      exact ⟨c.number, rfl, he.symm⟩
  rw [mem_jobsBy, mem_jobsBy, hended]
  constructor
  · rintro ((hret | hj) | ⟨d, hd, hj⟩)
    · exact Or.inr (Or.inl hret)
    · exact Or.inl hj
    · exact Or.inr (Or.inr ⟨d, (mem_calls_left.mp hd).1, hj⟩)
  · rintro (hj | hret | ⟨d, hd, hj⟩)
    · exact Or.inl (Or.inr hj)
    · exact Or.inl (Or.inl hret)
    · by_cases hseq : d.seq = c.seq
      · rw [h.eq_of_seq_eq hd hc hseq] at hj
        exact Or.inl (Or.inr (hkeeps j hj))
      · exact Or.inr ⟨d, mem_calls_left.mpr ⟨hd, hseq⟩, hj⟩

theorem mem_jobsBy_start {m : Minting} {f : Stage → Option Job} (hf : f .fetching = none) (purpose : Purpose) (j : Job) :
    j ∈ (m.start purpose).jobsBy f ↔ j ∈ m.jobsBy f := by
  have hnone : ([⟨m.started + 1, purpose, m.ledger.draw.1, .fetching⟩] : List Call).filterMap (fun c => f c.stage) = [] :=
    List.filterMap_cons_none hf
  rw [jobsBy, jobsBy, start, List.filterMap_append]
  show j ∈ m.returned ++ (_ ++ List.filterMap _ _) ↔ _
  rw [hnone, List.append_nil]

/-- A call that gets to another stage brings in the job it has stored by then. -/
theorem mem_made_moved (h : Orderly m) {c : Call} (hc : c ∈ m.calls) (l : Ledger) (s : Stage) (j : Job)
    (hkeeps : ∀ k, c.stage.stored? = some k → s.stored? = some k) :
    j ∈ (m.moved c.seq l s).made ↔ s.stored? = some j ∨ j ∈ m.made :=
  mem_jobsBy_moved h hc l s j hkeeps

/-- A call that ends takes no job with it that it does not return. -/
theorem mem_made_left (h : Orderly m) {c : Call} (hc : c ∈ m.calls) (l : Ledger)
    (outcome : Except Fault Job) (j : Job) (hsame : outcome.toOption = c.stage.stored?) :
    j ∈ (m.left l c outcome).made ↔ j ∈ m.made := by
  have hreturns : ∀ k, c.stage.stored? = some k ↔ outcome = .ok k := by
    intro k
    rw [← hsame]
    cases outcome with
    | error e => simp [Except.toOption]
    | ok i => simp [Except.toOption]
  refine (mem_jobsBy_left h hc l outcome j fun k => (hreturns k).mp).trans (or_iff_right_of_imp fun hj => ?_)
  exact mem_made.mpr (Or.inr ⟨c, hc, (hreturns j).mpr hj⟩)

/-! ## One move -/

/-- A call that only gets to another stage leaves everything but its own job in order. -/
theorem Orderly.moved (h : Orderly m) {c : Call} {l : Ledger} {s : Stage}
    (hseq : l.lastSeq = m.ledger.lastSeq) (hjob : ∀ j, s.job? = some j → j.seq = c.seq ∧ j.id = jobId c.seq)
    (hnewest : IsNewest l.current (m.moved c.seq l s).made) : Orderly (m.moved c.seq l s) where
  counted := hseq.trans h.counted
  numbered := by
    intro d hd
    rcases mem_calls_moved.mp hd with ⟨hd, _⟩ | ⟨e, he, _, rfl⟩
    · exact h.numbered d hd
    · exact h.numbered e he
  ended_le := h.ended_le
  distinct := by rw [map_seq_moved]; exact h.distinct
  ended_distinct := h.ended_distinct
  apart := by
    intro d hd e he
    rcases mem_calls_moved.mp hd with ⟨hd, _⟩ | ⟨f, hf, _, rfl⟩
    · exact h.apart d hd e he
    · exact h.apart f hf e he
  called := by
    intro d hd j hj
    rcases mem_calls_moved.mp hd with ⟨hd, _⟩ | ⟨e, _, he, rfl⟩
    · exact h.called d hd j hj
    · rw [show ({ e with stage := s } : Call).seq = c.seq from he]
      exact hjob j hj
  given := h.given
  newest := hnewest

/-- A call that ends leaves everything in order, if it returns no job but its own. -/
theorem Orderly.left (h : Orderly m) {c : Call} (hc : c ∈ m.calls) {l : Ledger} {outcome : Except Fault Job}
    (hseq : l.lastSeq = m.ledger.lastSeq) (hjob : outcome.toOption = c.stage.stored?)
    (hcurrent : l.current = m.ledger.current) : Orderly (m.left l c outcome) where
  counted := hseq.trans h.counted
  numbered := fun d hd => h.numbered d (mem_calls_left.mp hd).1
  ended_le := by
    intro e he
    rcases List.mem_append.mp he with he | he
    · exact h.ended_le e he
    · rw [List.mem_singleton.mp he]
      obtain ⟨hn, hle⟩ := h.numbered c hc
      exact Nat.le_trans (Nat.le_of_eq hn) hle
  distinct := h.distinct.sublist (List.filter_sublist.map _)
  ended_distinct := by
    -- a call that is under way has not ended before
    have hnew : c.number ∉ m.ended.map (·.1) := by
      rw [(h.numbered c hc).1, List.mem_map]
      rintro ⟨e, he, heq⟩
      exact h.apart c hc e he heq.symm
    rw [Minting.left, List.map_append, List.map_cons, List.map_nil]
    refine List.nodup_append.mpr ⟨h.ended_distinct, List.nodup_singleton _, fun a ha b hb => ?_⟩
    rw [List.mem_singleton.mp hb]
    exact fun he => hnew (by rw [← show a = c.number from he]; exact ha)
  apart := by
    intro d hd e he
    obtain ⟨hd, hne⟩ := mem_calls_left.mp hd
    rcases List.mem_append.mp he with he | he
    · exact h.apart d hd e he
    · rw [List.mem_singleton.mp he, (h.numbered c hc).1]
      exact hne
  called := fun d hd => h.called d (mem_calls_left.mp hd).1
  given := by
    intro n j he
    rcases List.mem_append.mp he with he | he
    · exact h.given n j he
    · rw [List.mem_singleton, Prod.mk.injEq] at he
      rw [he.1, (h.numbered c hc).1]
      refine h.called c hc j (job?_of_stored? ?_)
      rw [← hjob, ← he.2]
      rfl
  newest := by
    show IsNewest l.current _
    rw [hcurrent]
    exact h.newest.congr (fun j => mem_made_left h hc l outcome j hjob)

theorem orderly_start (h : Orderly m) (purpose : Purpose) : Orderly (m.start purpose) where
  counted := congrArg (· + 1) h.counted
  numbered := by
    intro c hc
    rcases List.mem_append.mp hc with hc | hc
    · exact ⟨(h.numbered c hc).1, Nat.le_succ_of_le (h.numbered c hc).2⟩
    · rw [List.mem_singleton.mp hc]
      exact ⟨congrArg (· + 1) h.counted.symm, Nat.le_of_eq (congrArg (· + 1) h.counted)⟩
  ended_le := fun e he => Nat.le_succ_of_le (h.ended_le e he)
  distinct := by
    rw [start, List.map_append, List.map_cons, List.map_nil]
    refine List.nodup_append.mpr ⟨h.distinct, List.nodup_singleton _, fun a ha b hb => ?_⟩
    obtain ⟨c, hc, rfl⟩ := List.mem_map.mp ha
    have := (h.numbered c hc).2
    rw [List.mem_singleton.mp hb]
    show c.seq ≠ m.ledger.lastSeq + 1
    rw [h.counted]
    omega
  ended_distinct := h.ended_distinct
  apart := by
    intro c hc e he
    rcases List.mem_append.mp hc with hc | hc
    · exact h.apart c hc e he
    · have := h.ended_le e he
      rw [List.mem_singleton.mp hc]
      show m.ledger.lastSeq + 1 ≠ e.1
      rw [h.counted]
      omega
  called := by
    intro c hc j hj
    rcases List.mem_append.mp hc with hc | hc
    · exact h.called c hc j hj
    · rw [List.mem_singleton.mp hc] at hj
      exact absurd hj (by simp [Stage.job?])
  given := h.given
  newest := h.newest.congr (mem_jobsBy_start (f := Stage.stored?) rfl purpose)

/-- **Every move keeps the calls and the ledger in order.** -/
theorem orderly_change (h : Orderly m) (hch : Change m m') : Orderly m' := by
  cases hch with
  | nothing => exact h
  | started purpose => exact orderly_start h purpose
  | failed hc hs e => exact h.left hc rfl (by rw [hs]; rfl) rfl
  | @fetched c hc hs t =>
      -- nothing was stored yet, so no job is lost
      have hnone : c.stage.stored? = none := by rw [hs]; rfl
      refine h.moved rfl (fun j hj => ?_) (h.newest.congr (fun j => ?_))
      · rw [← show Job.of c.seq t = j from Option.some.inj hj]
        exact ⟨rfl, rfl⟩
      · rw [mem_made_moved h hc _ _ j (fun k hk => absurd (hnone.symm.trans hk) (by simp))]
        simp [Stage.stored?]
  | @stored c j hc hs =>
      have hnone : c.stage.stored? = none := by rw [hs]; rfl
      refine h.moved (Ledger.store_lastSeq _ j) (fun k hk => ?_) ?_
      · exact h.called c hc k (by rw [hs]; exact hk)
      · refine Ledger.isNewest_store h.newest (fun k => ?_)
        rw [mem_made_moved h hc _ _ k (fun i hi => absurd (hnone.symm.trans hi) (by simp))]
        simp only [Stage.stored?, Option.some.injEq, eq_comm]
  | @shown c j hc hs hp =>
      refine h.moved rfl (fun k hk => ?_) (h.newest.congr (fun k => ?_))
      · exact h.called c hc k (by rw [hs]; exact hk)
      · rw [mem_made_moved h hc _ _ k (fun i hi => by rw [hs] at hi; exact hi)]
        refine ⟨?_, Or.inr⟩
        rintro (hk | hk)
        · exact mem_made.mpr (Or.inr ⟨c, hc, by rw [hs]; exact hk⟩)
        · exact hk
  | @returned c j hc hs hp => exact h.left hc rfl (by rw [hs]; rfl) rfl
  | @remembered c j hc hs => exact h.left hc rfl (by rw [hs]; rfl) rfl

/-- **The calls and the ledger are in order after any run.** -/
theorem orderly_run (difficulty history : Nat) (moves : List Move) :
    Orderly ((fresh (.fresh difficulty history)).run moves) :=
  run_keeps orderly_change moves (orderly_fresh difficulty history)

/-! ## The current job never gets older -/

/-- A job that was stored is never forgotten. -/
theorem made_change (h : Orderly m) (hch : Change m m') {j : Job} (hj : j ∈ m.made) : j ∈ m'.made := by
  cases hch with
  | nothing => exact hj
  | started purpose =>
      rcases mem_made.mp hj with hret | ⟨c, hc, hs⟩
      · exact mem_made.mpr (Or.inl hret)
      · exact mem_made.mpr (Or.inr ⟨c, List.mem_append_left _ hc, hs⟩)
  | failed hc hs e => exact (mem_made_left h hc _ _ j (by rw [hs]; rfl)).mpr hj
  | @fetched c hc hs t =>
      have hnone : c.stage.stored? = none := by rw [hs]; rfl
      exact (mem_made_moved h hc _ _ j (fun i hi => absurd (hnone.symm.trans hi) (by simp))).mpr (Or.inr hj)
  | @stored c k hc hs =>
      have hnone : c.stage.stored? = none := by rw [hs]; rfl
      exact (mem_made_moved h hc _ _ j (fun i hi => absurd (hnone.symm.trans hi) (by simp))).mpr (Or.inr hj)
  | shown hc hs hp =>
      exact (mem_made_moved h hc _ _ j (fun k hk => by rw [hs] at hk; exact hk)).mpr (Or.inr hj)
  | returned hc hs hp => exact (mem_made_left h hc _ _ j (by rw [hs]; rfl)).mpr hj
  | remembered hc hs => exact (mem_made_left h hc _ _ j (by rw [hs]; rfl)).mpr hj

theorem current_run (h : Orderly m) (moves : List Move) {j : Job} (hj : m.ledger.current = some j) :
    ∃ k, (m.run moves).ledger.current = some k ∧ j.seq ≤ k.seq := by
  -- both are kept together, since keeping jobs needs the order of the calls
  have hafter : Orderly (m.run moves) ∧ ∀ i ∈ m.made, i ∈ (m.run moves).made :=
    run_keeps (P := fun m' => Orderly m' ∧ ∀ i ∈ m.made, i ∈ m'.made)
      (fun hp hch => ⟨orderly_change hp.1 hch, fun i hi => made_change hp.1 hch (hp.2 i hi)⟩) moves
      ⟨h, fun _ hi => hi⟩
  have hnewest := h.newest
  rw [hj] at hnewest
  exact hnewest.seq_le hafter.2 hafter.1.newest

/-! ## What a call that fails leaves behind -/

/-- Whether the call of a number has got its work. -/
def HasWork (m : Minting) (n : Nat) : Prop :=
  (∃ c ∈ m.calls, c.number = n ∧ c.stage ≠ .fetching) ∨ ∃ j, (n, .ok j) ∈ m.ended

theorem hasWork_moved {c : Call} {l : Ledger} {s : Stage} (hs : s ≠ .fetching) {n : Nat}
    (hw : m.HasWork n) : (m.moved c.seq l s).HasWork n := by
  rcases hw with ⟨d, hd, hn, hstage⟩ | hended
  · by_cases hseq : d.seq = c.seq
    · exact Or.inl ⟨{ d with stage := s }, mem_calls_moved.mpr (Or.inr ⟨d, hd, hseq, rfl⟩), hn, hs⟩
    · exact Or.inl ⟨d, mem_calls_moved.mpr (Or.inl ⟨hd, hseq⟩), hn, hstage⟩
  · exact Or.inr hended

theorem hasWork_left (h : Orderly m) {c : Call} (hc : c ∈ m.calls) {l : Ledger}
    {outcome : Except Fault Job} (hout : c.stage = .fetching ∨ ∃ j, outcome = .ok j) {n : Nat}
    (hw : m.HasWork n) : (m.left l c outcome).HasWork n := by
  rcases hw with ⟨d, hd, hn, hstage⟩ | ⟨j, hj⟩
  · by_cases hseq : d.seq = c.seq
    · -- the call that ends is the one that has got its work
      have hdc := h.eq_of_seq_eq hd hc hseq
      subst hdc
      rcases hout with hfetching | ⟨j, rfl⟩
      · exact absurd hfetching hstage
      · refine Or.inr ⟨j, List.mem_append_right _ (List.mem_singleton.mpr ?_)⟩
        rw [hn]
    · exact Or.inl ⟨d, mem_calls_left.mpr ⟨hd, hseq⟩, hn, hstage⟩
  · exact Or.inr ⟨j, List.mem_append_left _ hj⟩

theorem hasWork_change (h : Orderly m) (hch : Change m m') {n : Nat} (hw : m.HasWork n) :
    m'.HasWork n := by
  cases hch with
  | nothing => exact hw
  | started purpose =>
      rcases hw with ⟨c, hc, hn, hs⟩ | hended
      · exact Or.inl ⟨c, List.mem_append_left _ hc, hn, hs⟩
      · exact Or.inr hended
  | failed hc hs e => exact hasWork_left h hc (Or.inl hs) hw
  | fetched hc hs t => exact hasWork_moved (by simp) hw
  | stored hc hs => exact hasWork_moved (by simp) hw
  | shown hc hs hp => exact hasWork_moved (by simp) hw
  | returned hc hs hp => exact hasWork_left h hc (Or.inr ⟨_, rfl⟩) hw
  | remembered hc hs => exact hasWork_left h hc (Or.inr ⟨_, rfl⟩) hw

/-- A call that has got its work does not fail any more. -/
theorem not_failed_of_hasWork (h : Orderly m) {n : Nat} (hw : m.HasWork n) (moves : List Move)
    (e : Fault) : (n, .error e) ∉ (m.run moves).ended := by
  have hafter : Orderly (m.run moves) ∧ (m.run moves).HasWork n :=
    run_keeps (P := fun m' => Orderly m' ∧ m'.HasWork n)
      (fun hp hch => ⟨orderly_change hp.1 hch, hasWork_change hp.1 hch hp.2⟩) moves ⟨h, hw⟩
  obtain ⟨hord, hwork⟩ := hafter
  -- an end with a job or a call under way rules out an end with a fault
  intro hfail
  rcases hwork with ⟨c, hc, hn, _⟩ | ⟨j, hj⟩
  · have hne := hord.apart c hc _ hfail
    rw [← (hord.numbered c hc).1] at hne
    exact hne hn
  · have heq := List.inj_on_of_nodup_map hord.ended_distinct hj hfail rfl
    simp at heq

theorem receive_ledger (m : Minting) (seq : Nat) (work : Except Fault Template) :
    (m.receive seq work).ledger = m.ledger := by
  unfold receive
  split
  · rfl
  · split <;> rfl

theorem advance_lastSeq (m : Minting) (seq : Nat) :
    (m.advance seq).ledger.lastSeq = m.ledger.lastSeq := by
  unfold advance
  dsimp only
  split
  · rfl
  · split
    · rfl
    · exact Ledger.store_lastSeq _ _
    · rfl
    · rfl
    · rfl

theorem started_receive (ho : Orderly m) (seq : Nat) (work : Except Fault Template) :
    (m.receive seq work).started = m.started := by
  rw [← (orderly_change ho (receive_change m seq work)).counted, ← ho.counted, receive_ledger]

theorem started_advance (ho : Orderly m) (seq : Nat) : (m.advance seq).started = m.started := by
  rw [← (orderly_change ho (advance_change m seq)).counted, ← ho.counted, advance_lastSeq]

/-- **A move of a call that has not got its work draws a number at most.** -/
theorem ledger_step_of_not_hasWork {move : Move} {n : Nat} (hcall : m.callOf? move = some n)
    (hno : ¬ m.HasWork n) :
    (m.step move).ledger = { m.ledger with lastSeq := (m.step move).ledger.lastSeq } := by
  cases move with
  | start purpose => rfl
  | receive seq work =>
      show (m.receive seq work).ledger = { m.ledger with lastSeq := (m.receive seq work).ledger.lastSeq }
      rw [receive_ledger]
  | advance seq =>
      obtain ⟨c, hfind, hn⟩ := Option.map_eq_some_iff.mp hcall
      have hfetching : c.stage = .fetching := by
        by_contra hs
        exact hno (Or.inl ⟨c, List.mem_of_find?_eq_some hfind, hn, hs⟩)
      have hstay : m.advance seq = m := by
        unfold advance
        dsimp only
        rw [hfind]
        dsimp only
        rw [hfetching]
      show (m.advance seq).ledger = { m.ledger with lastSeq := (m.advance seq).ledger.lastSeq }
      rw [hstay]

/-! ## Numbers and ids -/

theorem draws_eq (moves : List Move) :
    ∀ m : Minting, ∃ k, (m.run moves).ledger.lastSeq = m.ledger.lastSeq + k
      ∧ m.draws moves = List.range' (m.ledger.lastSeq + 1) k := by
  induction moves with
  | nil => intro m; exact ⟨0, rfl, rfl⟩
  | cons move moves ih =>
      intro m
      obtain ⟨k, hlast, hdraws⟩ := ih (m.step move)
      cases move with
      | start purpose =>
          refine ⟨k + 1, hlast.trans ?_, ?_⟩
          · show m.ledger.lastSeq + 1 + k = _
            omega
          · rw [draws, hdraws, List.range'_succ]
            rfl
      | receive seq work =>
          have hsame : (m.step (.receive seq work)).ledger.lastSeq = m.ledger.lastSeq :=
            congrArg Ledger.lastSeq (receive_ledger m seq work)
          rw [hsame] at hlast hdraws
          exact ⟨k, hlast, hdraws⟩
      | advance seq =>
          have hsame : (m.step (.advance seq)).ledger.lastSeq = m.ledger.lastSeq := advance_lastSeq m seq
          rw [hsame] at hlast hdraws
          exact ⟨k, hlast, hdraws⟩

/-- Jobs that were returned differ in their ids. -/
theorem ids_nodup (h : Orderly m) : (m.returned.map (·.id)).Nodup := by
  have hids : m.returned.map (·.id) = (m.returned.map (·.seq)).map jobId := by
    rw [List.map_map]
    refine List.map_congr_left (fun j hj => ?_)
    obtain ⟨n, hn⟩ := mem_returned.mp hj
    obtain ⟨hseq, hid⟩ := h.given n j hn
    rw [Function.comp_apply, hid, hseq]
  -- returned jobs have the numbers of their calls, and no call ends twice
  have hseqs : m.returned.map (·.seq)
      = (m.ended.filter fun e => e.2.toOption.isSome).map (·.1) := by
    have hgiven := h.given
    unfold returned
    generalize m.ended = es at hgiven
    induction es with
    | nil => rfl
    | cons e es ih =>
        have hrest := ih (fun n j hj => hgiven n j (List.mem_cons_of_mem e hj))
        obtain ⟨n, outcome⟩ := e
        cases outcome with
        | error fault => exact hrest
        | ok j =>
            have hn : j.seq = n := (hgiven n j List.mem_cons_self).1
            show j.seq :: _ = n :: _
            rw [hn, hrest]
  rw [hids, hseqs]
  refine List.Nodup.map (fun a b hab => eq_of_jobId_eq hab) ?_
  exact h.ended_distinct.sublist (List.filter_sublist.map _)

/--
**Minting from many calls at once.**

Whatever order the calls come and go in: the numbers drawn count up from one without a gap, no two returned
jobs share an id, and the current job is the newest of those stored so far, which are those returned whenever
no call is between the two, so that the current job is never followed by an older one. And of a call that
fails in the end, no move has changed anything but the last number drawn.
-/
theorem concurrent_minting (difficulty history : Nat) (moves : List Move) :
    let start := fresh (.fresh difficulty history)
    let m := start.run moves
    start.draws moves = List.range' 1 m.ledger.lastSeq
      ∧ (m.returned.map (·.id)).Nodup
      ∧ (∀ a b, jobId a = jobId b → a = b)
      ∧ IsNewest m.ledger.current m.made
      ∧ ((∀ c ∈ m.calls, c.stage.stored? = none) → m.made = m.returned)
      ∧ (∀ more j, m.ledger.current = some j →
          ∃ k, (m.run more).ledger.current = some k ∧ j.seq ≤ k.seq)
      ∧ ∀ before move after n e, moves = before ++ move :: after →
          (start.run before).callOf? move = some n → (n, .error e) ∈ m.ended →
          let l := (start.run before).ledger
          let l' := ((start.run before).step move).ledger
          l' = { l with lastSeq := l'.lastSeq }
            ∧ l'.current = l.current
            ∧ (∀ id, l'.isKnown id = l.isKnown id)
            ∧ ∀ j, l'.isLive j = l.isLive j := by
  intro start m
  have hord : Orderly m := orderly_run difficulty history moves
  refine ⟨?_, ids_nodup hord, fun a b => eq_of_jobId_eq, hord.newest, fun hnone => ?_,
    fun more j => current_run hord more, ?_⟩
  · obtain ⟨k, hlast, hdraws⟩ := draws_eq moves start
    have hk : m.ledger.lastSeq = k := hlast.trans (Nat.zero_add k)
    rw [hdraws, hk]
    rfl
  · have hempty : (m.calls.filterMap fun c => c.stage.stored?) = [] :=
      List.filterMap_eq_nil_iff.mpr hnone
    rw [made, jobsBy, hempty, List.append_nil]
  · intro before move after n e hmoves hcall hfail l l'
    have hbefore : Orderly (start.run before) := orderly_run difficulty history before
    -- had it got its work by now, it could not fail later
    have hno : ¬ (start.run before).HasWork n := by
      intro hw
      refine not_failed_of_hasWork hbefore hw (move :: after) e ?_
      rw [← run_append, ← hmoves]
      exact hfail
    have hl : l' = { l with lastSeq := l'.lastSeq } := ledger_step_of_not_hasWork hcall hno
    refine ⟨hl, ?_, fun id => ?_, fun j => ?_⟩
    · rw [hl]
    · rw [hl]; rfl
    · rw [hl]; rfl

/-- Of three calls the third is the first to store its job. Then the second gets no work, and the first comes
in last. -/
def threeCalls : List Move :=
  [.start .everyone, .start .session, .start .everyone, .receive 3 (.ok default), .advance 3,
    .receive 2 (.error .unauthorized), .advance 3, .advance 3,
    .receive 1 (.ok default), .advance 1, .advance 1, .advance 1]

/-- A job is current as soon as it is stored, whether or not it has been returned, and stays so when an older one
comes in late. The call in between that gets no work has drawn its number and nothing else. -/
theorem concurrent_minting_three_calls :
    let start := fresh (.fresh 1000 2)
    let early := start.run (threeCalls.take 5)
    let m := start.run threeCalls
    (early.made = [Job.of 3 default] ∧ early.returned = []
        ∧ early.ledger.current = some (Job.of 3 default) ∧ IsNewest early.ledger.current early.made)
      ∧ start.draws threeCalls = [1, 2, 3]
      ∧ m.ended = [(2, .error .unauthorized), (3, .ok (Job.of 3 default)), (1, .ok (Job.of 1 default))]
      ∧ m.returned = [Job.of 3 default, Job.of 1 default] ∧ (m.returned.map (·.id)).Nodup
      ∧ m.made = m.returned
      ∧ m.ledger.current = some (Job.of 3 default) ∧ IsNewest m.ledger.current m.made
      ∧ (start.run (threeCalls.take 2)).ledger = { (start.run (threeCalls.take 1)).ledger with lastSeq := 2 }
      ∧ (start.run (threeCalls.take 6)).ledger = early.ledger := by
  obtain ⟨_, _, _, hearly, _⟩ := concurrent_minting 1000 2 (threeCalls.take 5)
  obtain ⟨hdraws, hids, _, hnewest, hsame, _, hfailed⟩ := concurrent_minting 1000 2 threeCalls
  have hlast : ((fresh (.fresh 1000 2)).run threeCalls).ledger.lastSeq = 3 := by decide
  rw [hlast] at hdraws
  -- the move that starts the second call and the one that ends it
  have hstarts := hfailed (threeCalls.take 1) (.start .session) (threeCalls.drop 2) 2 .unauthorized rfl rfl (by decide)
  have hends := hfailed (threeCalls.take 5) (.receive 2 (.error .unauthorized)) (threeCalls.drop 6) 2 .unauthorized
    rfl (by decide) (by decide)
  exact ⟨⟨by decide, by decide, by decide, hearly⟩, hdraws, by decide, by decide, hids, hsame (by decide),
    by decide, hnewest, hstarts.1, hends.1⟩

end Minting
end MiningPool

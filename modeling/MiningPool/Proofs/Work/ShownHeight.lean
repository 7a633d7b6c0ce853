import MiningPool.Proofs.Work.ConcurrentMinting

/-!
# The height that is shown

A call stores its job and then shows its height. A job that comes in late does not take the place of a newer current
job, but its height is shown all the same. So the height shown is that of the job shown last, in whatever order the
calls get that far, and a late job leaves the height of an older job behind.

`showings` are the jobs shown in a run, in order, and `Shows` ties them to the ledger. Between storing a job and showing
it a call leaves the two apart for a moment. Whenever no call is there, the jobs shown are the jobs stored, and the
height is right just if the last of them is the newest, or happens to be as high.
-/

namespace MiningPool

/-- The job a call is about to show. -/
def Stage.showing? : Stage → Option Job
  | .showing j => some j
  | _ => none

/-- The job a call has shown. -/
def Stage.shown? : Stage → Option Job
  | .remembering j => some j
  | _ => none

namespace Minting

variable {m m' : Minting} {js : List Job}

/-! ## What is shown -/

/-- The job whose height a move shows. -/
def shown? (m : Minting) : Move → Option Job
  | .advance seq => (m.calls.find? fun c => c.seq == seq).bind fun c => c.stage.showing?
  | _ => none

/-- The jobs whose heights some moves show, in order. -/
def showings (m : Minting) : List Move → List Job
  | [] => []
  | move :: moves => (m.shown? move).toList ++ (m.step move).showings moves

/-- The jobs shown are those that have got so far, and the height is that of the last one. -/
structure Shows (js : List Job) (m : Minting) : Prop where
  orderly : Orderly m
  height : m.ledger.shownHeight = (js.getLast?.map (·.height)).getD 0
  mem : ∀ j, j ∈ js ↔ j ∈ m.jobsBy Stage.shown?

theorem shows_fresh (difficulty history : Nat) : Shows [] (fresh (.fresh difficulty history)) where
  orderly := orderly_fresh difficulty history
  height := rfl
  mem := fun _ => Iff.rfl

/-- What shows nothing leaves the height and the jobs that were shown as they are. -/
theorem Shows.unchanged (h : Shows js m) (ho : Orderly m') (hheight : m'.ledger.shownHeight = m.ledger.shownHeight)
    (hmem : ∀ j, j ∈ m'.jobsBy Stage.shown? ↔ j ∈ m.jobsBy Stage.shown?) : Shows js m' where
  orderly := ho
  height := hheight.trans h.height
  mem := fun j => (h.mem j).trans (hmem j).symm

/-- A job that is shown is the last one then. -/
theorem Shows.concat (h : Shows js m) (ho : Orderly m') {j : Job} (hheight : m'.ledger.shownHeight = j.height)
    (hmem : ∀ k, k ∈ m'.jobsBy Stage.shown? ↔ j = k ∨ k ∈ m.jobsBy Stage.shown?) : Shows (js ++ [j]) m' where
  orderly := ho
  height := by rw [List.getLast?_concat, hheight]; rfl
  mem := fun k => by rw [hmem, List.mem_append, List.mem_singleton, h.mem, or_comm, eq_comm]

theorem shows_receive (h : Shows js m) (seq : Nat) (work : Except Fault Template) : Shows js (m.receive seq work) := by
  have ho := orderly_change h.orderly (receive_change m seq work)
  refine h.unchanged ho (by rw [receive_ledger]) fun j => ?_
  unfold receive
  split
  · exact Iff.rfl
  · rename_i c hfind
    have hc : c ∈ m.calls := List.mem_of_find?_eq_some hfind
    have hprop := List.find?_some hfind
    rw [Bool.and_eq_true, beq_iff_eq, beq_iff_eq] at hprop
    obtain ⟨rfl, hs⟩ := hprop
    have hnone : ∀ k, c.stage.shown? ≠ some k := by simp [hs, Stage.shown?]
    split
    · rename_i e
      have hleft := mem_jobsBy_left h.orderly hc m.ledger (.error e) j fun k hk => absurd hk (hnone k)
      exact hleft.trans (or_iff_right (by simp))
    · rename_i t
      have hmoved := mem_jobsBy_moved h.orderly hc m.ledger (.storing (Job.of c.seq t)) j
        fun k hk => absurd hk (hnone k)
      exact hmoved.trans (or_iff_right (by simp [Stage.shown?]))

theorem shows_advance (h : Shows js m) (seq : Nat) :
    Shows (js ++ (m.shown? (.advance seq)).toList) (m.advance seq) := by
  have ho := orderly_change h.orderly (advance_change m seq)
  cases hfind : m.calls.find? fun c => c.seq == seq with
  | none =>
      rw [shown?, hfind, advance_of_find?_none hfind]
      exact (List.append_nil js).symm ▸ h
  | some c =>
      obtain ⟨hc, rfl⟩ := call_of_find? hfind
      rw [shown?, hfind, Option.bind_some]
      rw [advance_of_find? hfind] at ho ⊢
      cases hs : c.stage with
      | fetching => exact (List.append_nil js).symm ▸ h
      | storing j =>
          rw [hs] at ho
          have hmoved := fun k => mem_jobsBy_moved (f := Stage.shown?) h.orderly hc (m.ledger.store j) (.showing j) k
            (by simp [hs, Stage.shown?])
          rw [show (Stage.storing j).showing?.toList = [] from rfl, List.append_nil]
          refine h.unchanged ho ?_ fun k => (hmoved k).trans (or_iff_right (by simp [Stage.shown?]))
          show (m.ledger.store j).shownHeight = _
          rw [Ledger.store_eq]
      | showing j =>
          rw [hs] at ho
          have hnone : ∀ k, c.stage.shown? ≠ some k := by simp [hs, Stage.shown?]
          cases hp : c.purpose with
          | everyone =>
              rw [hp] at ho
              have hmoved := fun k => mem_jobsBy_moved h.orderly hc (m.ledger.gauge j) (.remembering j) k
                fun i hi => absurd hi (hnone i)
              exact h.concat ho rfl fun k => (hmoved k).trans (or_congr_left (by simp [Stage.shown?]))
          | session =>
              rw [hp] at ho
              have hleft := fun k => mem_jobsBy_left h.orderly hc (m.ledger.gauge j) (.ok j) k
                fun i hi => absurd hi (hnone i)
              exact h.concat ho rfl fun k => (hleft k).trans (or_congr_left (by simp))
      | remembering j =>
          rw [hs] at ho
          -- this job was shown before
          have hold : j ∈ m.jobsBy Stage.shown? := mem_jobsBy.mpr (Or.inr ⟨c, hc, by rw [hs]; rfl⟩)
          have hleft := fun k => mem_jobsBy_left (f := Stage.shown?) h.orderly hc (m.ledger.remember j) (.ok j) k
            (by simp [hs, Stage.shown?])
          rw [show (Stage.remembering j).showing?.toList = [] from rfl, List.append_nil]
          refine h.unchanged ho rfl fun k => (hleft k).trans (or_iff_right_of_imp fun hk => ?_)
          rw [← Except.ok.inj hk]
          exact hold

/-- **Every move keeps to the jobs shown so far.** -/
theorem shows_step (h : Shows js m) (move : Move) : Shows (js ++ (m.shown? move).toList) (m.step move) := by
  cases move with
  | start purpose =>
      rw [show m.shown? (.start purpose) = none from rfl, Option.toList_none, List.append_nil]
      exact h.unchanged (orderly_start h.orderly purpose) rfl (mem_jobsBy_start rfl purpose)
  | receive seq work =>
      rw [show m.shown? (.receive seq work) = none from rfl, Option.toList_none, List.append_nil]
      exact shows_receive h seq work
  | advance seq => exact shows_advance h seq

theorem shows_run_from (moves : List Move) : ∀ {m : Minting} {js : List Job}, Shows js m →
    Shows (js ++ m.showings moves) (m.run moves) := by
  induction moves with
  | nil => intro m js h; rw [showings, List.append_nil]; exact h
  | cons move moves ih =>
      intro m js h
      rw [showings, ← List.append_assoc]
      exact ih (shows_step h move)

/-! ## The height of the current job -/

/-- No call is between storing its job and showing it. -/
def Quiet (m : Minting) : Prop := ∀ c ∈ m.calls, c.stage.showing? = none

/-- A number stands for one job. -/
theorem Orderly.eq_of_mem_made (h : Orderly m) {j k : Job} (hj : j ∈ m.made) (hk : k ∈ m.made) (hseq : j.seq = k.seq) :
    j = k := by
  rcases mem_made.mp hj with ⟨n, hn⟩ | ⟨c, hc, hcj⟩
  · have hjn := (h.given n j hn).1
    rcases mem_made.mp hk with ⟨i, hi⟩ | ⟨d, hd, hdk⟩
    · obtain rfl : n = i := hjn.symm.trans (hseq.trans (h.given i k hi).1)
      have hsame := List.inj_on_of_nodup_map h.ended_distinct hn hi rfl
      exact Except.ok.inj (Prod.mk.inj hsame).2
    · have hkd := (h.called d hd k (job?_of_stored? hdk)).1
      exact absurd (hkd.symm.trans (hseq.symm.trans hjn)) (h.apart d hd _ hn)
  · have hjc := (h.called c hc j (job?_of_stored? hcj)).1
    rcases mem_made.mp hk with ⟨i, hi⟩ | ⟨d, hd, hdk⟩
    · exact absurd (hjc.symm.trans (hseq.trans (h.given i k hi).1)) (h.apart c hc _ hi)
    · have hkd := (h.called d hd k (job?_of_stored? hdk)).1
      rw [h.eq_of_seq_eq hc hd (hjc.symm.trans (hseq.trans hkd)), hdk] at hcj
      exact (Option.some.inj hcj).symm

/-- When all is quiet what is stored is shown. -/
theorem Shows.mem_made (h : Shows js m) (hquiet : m.Quiet) (j : Job) : j ∈ js ↔ j ∈ m.made := by
  rw [h.mem, mem_jobsBy, Minting.mem_made]
  refine or_congr_right (exists_congr fun c => and_congr_right fun hc => ?_)
  have hnot := hquiet c hc
  cases hs : c.stage with
  | showing k => rw [hs] at hnot; exact absurd hnot (by simp [Stage.showing?])
  | _ => exact Iff.rfl

/-- **The job shown last is the current one or an older one.** -/
theorem Shows.last (h : Shows js m) (hquiet : m.Quiet) {newest : Job} (hcurrent : m.ledger.current = some newest) :
    ∃ last, js.getLast? = some last ∧ m.ledger.shownHeight = last.height
      ∧ (last = newest ∨ last.seq < newest.seq) := by
  have hnewest := h.orderly.newest
  rw [hcurrent] at hnewest
  have hmem : newest ∈ js := (h.mem_made hquiet newest).mpr hnewest.1
  obtain ⟨last, hlast⟩ : ∃ last, js.getLast? = some last :=
    ⟨_, List.getLast?_eq_some_getLast (List.ne_nil_of_mem hmem)⟩
  have hmade : last ∈ m.made := (h.mem_made hquiet last).mp (List.mem_of_getLast? hlast)
  refine ⟨last, hlast, by rw [h.height, hlast]; rfl, ?_⟩
  rcases Nat.lt_or_eq_of_le (hnewest.2 last hmade) with hlt | heq
  · exact Or.inr hlt
  · exact Or.inl (h.orderly.eq_of_mem_made hmade hnewest.1 heq)

/-- Of jobs in the order of their numbers the last is the newest. -/
theorem seq_le_getLast {js : List Job} (hsorted : js.Pairwise (·.seq < ·.seq)) {last : Job}
    (hlast : js.getLast? = some last) : ∀ j ∈ js, j.seq ≤ last.seq := by
  obtain ⟨before, rfl⟩ := List.getLast?_eq_some_iff.mp hlast
  intro j hj
  rcases List.mem_append.mp hj with hj | hj
  · exact Nat.le_of_lt ((List.pairwise_append.mp hsorted).2.2 j hj last List.mem_cons_self)
  · rw [List.mem_singleton.mp hj]

/--
**The height shown is that of the job shown last.**

However the calls overlap, what is shown is the height of the job that was shown last, and zero before the first. When
no call is between storing its job and showing it, the jobs shown are the jobs stored, and the one shown last is the
current job or an older one that came in late. If the jobs were shown in the order of their numbers, the height is that
of the current job.
-/
theorem height_of_last_shown (difficulty history : Nat) (moves : List Move) :
    let start := fresh (.fresh difficulty history)
    let m := start.run moves
    let shown := start.showings moves
    m.ledger.shownHeight = (shown.getLast?.map (·.height)).getD 0
      ∧ (m.Quiet → (∀ j, j ∈ shown ↔ j ∈ m.made)
        ∧ ∀ newest, m.ledger.current = some newest →
          (∃ last, shown.getLast? = some last ∧ m.ledger.shownHeight = last.height
            ∧ (last = newest ∨ last.seq < newest.seq))
          ∧ (shown.Pairwise (·.seq < ·.seq) → m.ledger.shownHeight = newest.height)) := by
  intro start m shown
  have h : Shows shown m := shows_run_from moves (shows_fresh difficulty history)
  refine ⟨h.height, fun hquiet => ⟨h.mem_made hquiet, fun newest hcurrent => ?_⟩⟩
  obtain ⟨last, hlast, hheight, horder⟩ := h.last hquiet hcurrent
  refine ⟨⟨last, hlast, hheight, horder⟩, fun hsorted => ?_⟩
  have hnewest := h.orderly.newest
  rw [hcurrent] at hnewest
  have hle := seq_le_getLast hsorted hlast newest ((h.mem_made hquiet newest).mpr hnewest.1)
  rcases horder with rfl | hlt
  · exact hheight
  · exact absurd hle (Nat.not_le.mpr hlt)

/-- A job that comes in late leaves its height behind, although a newer job is current. -/
theorem height_of_older_job :
    ¬ ∀ (difficulty history : Nat) (moves : List Move),
      let m := (fresh (.fresh difficulty history)).run moves
      m.Quiet → ∀ newest, m.ledger.current = some newest → m.ledger.shownHeight = newest.height := by
  intro h
  have hlate := h 1000 8
    [.start .everyone, .start .everyone,
      .receive 2 (.ok ⟨"", "", 1000002⟩), .advance 2, .advance 2, .advance 2,
      .receive 1 (.ok ⟨"", "", 1000001⟩), .advance 1, .advance 1, .advance 1]
    (fun _ hc => absurd hc List.not_mem_nil) (Job.of 2 ⟨"", "", 1000002⟩) (by decide)
  revert hlate
  decide

end Minting
end MiningPool

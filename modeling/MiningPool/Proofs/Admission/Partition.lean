import MiningPool.Proofs.Admission.Windows

/-!
# Shares are judged window by window

As long as nothing is forgotten, the shares of an address fall into windows of equal length, one after the other. Each
is judged when its last share is told of, by how many of it were good and how many bad, and counting starts over. The
shares that are counted are those of the window that is still open (`Counts`), so there are always fewer of them than
a window has, and no count grows beyond that.

Bans, bad lines, connections and questions in between change none of this.
-/

namespace MiningPool

open Net

instance (r : Record) (now : Instant) : Decidable (r.Overdue now) :=
  decidable_of_iff (r.bannedUntil.any (· ≤ now) = true) <| by
    rw [Record.Overdue, Option.any_eq_true]
    simp

/-- What is answered to the shares of a window: nothing comes of any but the last. -/
def Settings.Limits.verdicts (limits : Limits) (window : List Bool) : List Verdict :=
  .replicate (window.length - 1) .allowed ++ [limits.judge (window.count true) (window.count false)]

namespace Admission

variable {limits : Settings.Limits} {a : Admission} {ip : Ip} {now : Instant} {c : Call}
  {log : List (Instant × Call)} {told counted : List Bool}

/-- What is answered to the shares of an address, in order. -/
def verdictsTo (ip : Ip) (a : Admission) : List (Instant × Call) → List Verdict
  | [] => []
  | (now, c) :: log =>
    ((c.share? ip).map fun accepted => (a.recordShare ip accepted).1).toList ++ verdictsTo ip (a.call now c) log

/-- There is no sweep, and nobody comes across a ban of the address that has run out. -/
def Undisturbed (ip : Ip) : Admission → List (Instant × Call) → Prop
  | _, [] => True
  | a, (now, c) :: log =>
    (c ≠ .sweep ∧ (c.looksAt ip = true → ¬ (a.record ip).Overdue now)) ∧ Undisturbed ip (a.call now c) log

instance decidableUndisturbed (ip : Ip) : (a : Admission) → (log : List (Instant × Call)) →
    Decidable (Undisturbed ip a log)
  | _, [] => inferInstanceAs (Decidable True)
  | a, (now, c) :: log =>
    have := decidableUndisturbed ip (a.call now c) log
    inferInstanceAs (Decidable (_ ∧ _))

theorem retains_of_not_overdue (hswept : c ≠ .sweep)
    (hover : c.looksAt ip = true → ¬ (a.record ip).Overdue now) : a.Retains now ip c := by
  intro hlooks
  cases hban : (a.record ip).bannedUntil with
  | none => exact Or.inr ⟨hswept, rfl⟩
  | some deadline =>
      exact Or.inl (Record.isBanned_eq_true hban (Nat.lt_of_not_le fun hle => hover hlooks ⟨deadline, hban, hle⟩))

theorem retained_of_undisturbed (h : Undisturbed ip a log) : Retained ip a log := by
  induction log generalizing a with
  | nil => trivial
  | cons e log ih => exact ⟨retains_of_not_overdue h.1.1 h.1.2, ih h.2⟩

/-- **What is no share of the address leaves its window as it is**, unless something is forgotten. -/
theorem shares_of_retains (hb : Binds limits ip a) (h : a.Retains now ip c) (hshare : c.share? ip = none)
    (accepted : Bool) :
    ((a.call now c).record ip).shares accepted = (a.record ip).shares accepted := by
  cases haccuses : c.accuses ip with
  | true =>
      rcases cases_of_accuses haccuses with rfl | rfl | ⟨_, rfl⟩
      · exact congrArg (·.shares accepted) (record_ban_self hb.applies now)
      · exact congrArg (·.shares accepted) (record_recordMalformed hb.applies)
      · exact absurd hshare (by simp [Call.share?])
  | false =>
      have hsame : ((a.call now c).record ip).offences.shares accepted = (a.record ip).offences.shares accepted :=
        congrArg (·.shares accepted) (offences_of_retains hb.distinct h haccuses)
      exact hsame

/-! ## Windows one after the other -/

/-- Shares fall into windows of equal length, each answered by itself, and a last one that is not full yet. -/
structure Partition (limits : Settings.Limits) (shares : List Bool) (verdicts : List Verdict)
    (full : List (List Bool)) (rest : List Bool) : Prop where
  shares_eq : shares = full.flatten ++ rest
  length : ∀ window ∈ full, window.length = limits.windowLength
  short : rest.length < limits.windowLength
  verdicts_eq : verdicts = full.flatMap limits.verdicts ++ .replicate rest.length .allowed

/-- A window that was filled comes before the others. -/
theorem Partition.cons {limits : Settings.Limits} {shares : List Bool} {verdicts : List Verdict}
    {full : List (List Bool)} {rest window : List Bool} (h : Partition limits shares verdicts full rest)
    (hfull : window.length = limits.windowLength) :
    Partition limits (window ++ shares) (limits.verdicts window ++ verdicts) (window :: full) rest where
  shares_eq := by rw [h.shares_eq, List.flatten_cons, List.append_assoc]
  length := List.forall_mem_cons.mpr ⟨hfull, h.length⟩
  short := h.short
  verdicts_eq := by rw [h.verdicts_eq, List.flatMap_cons, List.append_assoc]

/-- **The shares of a log fall into windows**, the first of which may have been begun before, if nothing is
forgotten along the way. -/
theorem partition_replay (hb : Binds limits ip a) (hretained : Retained ip a log)
    (h : Counts limits a ip told counted) :
    ∃ full rest, Partition limits (counted ++ sharesOf ip (log.map (·.2)))
        (.replicate counted.length .allowed ++ verdictsTo ip a log) full rest
      ∧ Counts limits (a.replay log) ip (told ++ sharesOf ip (log.map (·.2))) rest := by
  -- along the log, whatever was counted so far: a window is complete as soon as it is filled
  induction log generalizing a told counted with
  | nil =>
      refine ⟨[], counted, ⟨?_, fun _ hmem => absurd hmem List.not_mem_nil, h.short, ?_⟩, ?_⟩
      · exact List.append_nil counted
      · exact List.append_nil _
      · exact (List.append_nil told).symm ▸ h
  | cons e log ih =>
      obtain ⟨now, c⟩ := e
      obtain ⟨hfirst, hrest⟩ := hretained
      have hb' := hb.call now c
      cases hshare : c.share? ip with
      | none =>
          have htold : sharesOf ip (((now, c) :: log).map (·.2)) = sharesOf ip (log.map (·.2)) :=
            List.filterMap_cons_none hshare
          have hsaid : verdictsTo ip a ((now, c) :: log) = verdictsTo ip (a.call now c) log := by
            rw [verdictsTo, hshare]
            rfl
          have hsame : Counts limits (a.call now c) ip told counted :=
            ⟨h.suffix, h.short, fun k => (shares_of_retains hb hfirst hshare k).trans (h.shares k)⟩
          rw [htold, hsaid]
          exact ih hb' hrest hsame
      | some accepted =>
          have htold : sharesOf ip (((now, c) :: log).map (·.2)) = [accepted] ++ sharesOf ip (log.map (·.2)) :=
            List.filterMap_cons_some hshare
          have hsaid : verdictsTo ip a ((now, c) :: log)
              = [(a.recordShare ip accepted).1] ++ verdictsTo ip (a.call now c) log := by
            rw [verdictsTo, hshare]
            rfl
          have hlonger : (counted ++ [accepted]).length = counted.length + 1 := List.length_append
          rw [htold, hsaid, ← List.append_assoc, ← List.append_assoc, ← List.append_assoc]
          obtain rfl := eq_share_of_share? hshare
          rcases h.share hb now accepted with ⟨hnext, hallowed⟩ | ⟨hnext, hfull, hjudged⟩
          · rw [hallowed, ← List.replicate_succ', ← hlonger]
            exact ih hb' hrest hnext
          · have hwindow : List.replicate counted.length Verdict.allowed ++ [(a.recordShare ip accepted).1]
                = limits.verdicts (counted ++ [accepted]) := by
              rw [Settings.Limits.verdicts, hjudged, hlonger, Nat.add_sub_cancel]
            obtain ⟨full, rest, hpartition, hleft⟩ := ih hb' hrest hnext
            rw [hwindow]
            exact ⟨_, rest, hpartition.cons hfull, hleft⟩

/-! ## The whole of it -/

/--
**Each share is judged in just one window, by how many of it were good and bad.**

Take an address with limits, whatever happened before. From then on, as long as there is no sweep and no ban of the
address is found to have run out, its shares fall into windows of equal length, the first of which may have been begun
already. Nothing comes of a share that is not the last of its window, and what comes of the last one is decided by how
many good and bad ones there are in the window. What is counted in the end is what is in the window that is still open.
At no point is as much counted as a window has, so that with a threshold of 32 bits no count outgrows 32 bits, nor does
their sum, even when one more share is counted.
-/
theorem shares_fall_into_windows (limits : Settings.Limits) (earlier log : List (Instant × Call)) (ip : Ip)
    (happlies : (fresh limits).appliesTo ip = true)
    (hcalm : Undisturbed ip ((fresh limits).replay earlier) log) :
    let a := (fresh limits).replay earlier
    (∃ begun full rest, Counts limits a ip (sharesOf ip (earlier.map (·.2))) begun
        ∧ Partition limits (begun ++ sharesOf ip (log.map (·.2)))
            (.replicate begun.length .allowed ++ verdictsTo ip a log) full rest
        ∧ ∀ accepted, ((a.replay log).record ip).shares accepted = rest.count accepted)
      ∧ ∀ soFar, soFar <+: log →
          let r := (a.replay soFar).record ip
          r.validShares + r.invalidShares < limits.windowLength
            ∧ (limits.shareCheckThreshold < 2 ^ 32 → r.validShares + r.invalidShares + 1 < 2 ^ 32) := by
  intro a
  have hfresh := binds_fresh happlies
  have hb : Binds limits ip a := hfresh.replay earlier
  obtain ⟨begun, hbegun⟩ := exists_counts_replay hfresh (counts_fresh limits ip) earlier
  refine ⟨?_, ?_⟩
  · obtain ⟨full, rest, hpartition, hleft⟩ := partition_replay hb (retained_of_undisturbed hcalm) hbegun
    exact ⟨begun, full, rest, hbegun, hpartition, hleft.shares⟩
  · -- whatever is forgotten, fewer are counted than a window has, so here calm is not needed
    intro soFar _ r
    obtain ⟨window, hopen⟩ := exists_counts_replay hb hbegun soFar
    have htotal : r.validShares + r.invalidShares = window.length := hopen.total
    have hshort := hopen.short
    refine ⟨htotal ▸ hshort, fun hbits => ?_⟩
    rw [Settings.Limits.windowLength] at hshort
    omega

/-- Windows of three shares, the first begun earlier. Its last share gets the address banned, which cuts off nobody who
is already connected, and the next share opens the next window. -/
theorem shares_fall_into_windows_of_three :
    let limits : Settings.Limits := { Settings.Limits.standard with shareCheckThreshold := 3 }
    let ip : Ip := .v4 1
    let a := (fresh limits).replay [(0, .letIn ip), (0, .share ip true)]
    let log : List (Instant × Call) :=
      [(1, .share ip false), (2, .malformed ip), (2, .share ip false), (2, .ban ip), (3, .letIn ip),
        (4, .share ip true)]
    (fresh limits).appliesTo ip = true ∧ Undisturbed ip a log
      ∧ (∃ begun full rest, Partition limits (begun ++ [false, false, true])
          (.replicate begun.length .allowed ++ [.allowed, .banned, .allowed]) full rest)
      ∧ ((a.replay log).record ip).validShares + ((a.replay log).record ip).invalidShares < 3 := by
  intro limits ip a log
  have happlies : (fresh limits).appliesTo ip = true := by decide
  have hcalm : Undisturbed ip a log := by decide +kernel
  obtain ⟨⟨begun, full, rest, _, hpartition, _⟩, hfew⟩ :=
    shares_fall_into_windows limits [(0, .letIn ip), (0, .share ip true)] log ip happlies hcalm
  have hsaid : verdictsTo ip a log = [.allowed, .banned, .allowed] := by decide +kernel
  exact ⟨happlies, hcalm, ⟨begun, full, rest, hsaid ▸ hpartition⟩, (hfew log (List.prefix_refl log)).1⟩

end Admission
end MiningPool

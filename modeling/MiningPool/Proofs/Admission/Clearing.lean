import MiningPool.Proofs.Admission.Partition

/-!
# When counting starts over

A ban that has run out takes with it all that was held against the address, but only once somebody comes across it.
Until then whatever was held stays: the bad lines that were told of while the ban ran, and the share window that was
open when the ban was called, since a ban by itself only forgets bad lines. Bad lines and shares are put on the record
without looking whether a ban is over, so if one of them is the first thing to happen after that, it is counted
together with the old ones.
-/

namespace MiningPool

open Net

namespace Admission

variable {limits : Settings.Limits} {a : Admission} {ip : Ip} {deadline : Instant} {log : List (Instant × Call)}
  {told counted : List Bool}

/-- Nothing of the past counts any more: as many bad lines may come as are ever allowed, and the shares to come fall
into windows of which none has been begun. -/
structure StartsOver (limits : Settings.Limits) (ip : Ip) (a : Admission) : Prop where
  lines : ∀ later, badLines ip later + 1 < limits.malformedLimit → ((a.replay later).recordMalformed ip).1 = .allowed
  shares : ∀ later, Undisturbed ip a later →
    ∃ full rest, Partition limits (sharesOf ip (later.map (·.2))) (verdictsTo ip a later) full rest

/-- The address is not banned again, and whoever looks at its ban does so before the deadline. -/
def Unseen (ip : Ip) (deadline : Instant) (log : List (Instant × Call)) : Prop :=
  ∀ e ∈ log, e.2 ≠ .ban ip ∧ (e.2.looksAt ip = true → e.1 < deadline)

instance (ip : Ip) (deadline : Instant) (log : List (Instant × Call)) : Decidable (Unseen ip deadline log) :=
  inferInstanceAs (Decidable (∀ e ∈ log, _))

/-- **An address with nothing held against it starts over.** -/
theorem startsOver_of_blank (hb : Binds limits ip a) (hblank : (a.record ip).offences = .blank) :
    StartsOver limits ip a := by
  refine ⟨fun later hfew => ?_, fun later hcalm => ?_⟩
  · have hnone : (a.record ip).malformed = 0 := Record.malformed_of_offences (r := .blank) hblank
    -- bans, sweeps and whoever looks can only take away from the bad lines since
    have hlines := malformed_replay_le hb.distinct ip later
    have hlater := hb.replay later
    rw [recordMalformed_eq hlater.applies, hlater.limits_eq]
    exact if_neg (by omega)
  · have hnone : ∀ accepted, (a.record ip).shares accepted = 0 := by
      intro accepted
      have hshares : (a.record ip).offences.shares accepted = Record.blank.shares accepted := by rw [hblank]
      exact hshares.trans (by cases accepted <;> rfl)
    obtain ⟨full, rest, hpartition, _⟩ :=
      partition_replay hb (retained_of_undisturbed hcalm) (counts_none limits [] hnone)
    exact ⟨full, rest, hpartition⟩

/-- A ban that nobody comes across once it is over stays on the record, and everything else with it. -/
theorem retained_of_unseen (hb : Binds limits ip a) (hban : (a.record ip).bannedUntil = some deadline)
    (h : Unseen ip deadline log) :
    Retained ip a log ∧ ((a.replay log).record ip).bannedUntil = some deadline := by
  induction log generalizing a with
  | nil => exact ⟨trivial, hban⟩
  | cons e log ih =>
      obtain ⟨⟨hfirst, hbefore⟩, hrest⟩ := List.forall_mem_cons.mp h
      have hretains : a.Retains e.1 ip e.2 := fun hlooks => Or.inl (Record.isBanned_eq_true hban (hbefore hlooks))
      have hkept : ((a.call e.1 e.2).record ip).bannedUntil = some deadline := by
        rw [bannedUntil_of_retains hb hretains, if_neg hfirst, hban]
      obtain ⟨hretained, hlast⟩ := ih (hb.call e.1 e.2) hkept hrest
      exact ⟨⟨hretains, hretained⟩, hlast⟩

/-- A ban forgets the bad lines of the address, and none of its shares. -/
theorem counts_ban (hb : Binds limits ip a) (h : Counts limits a ip told counted) (now : Instant) :
    ((a.ban now ip).2.record ip).malformed = 0 ∧ Counts limits (a.ban now ip).2 ip told counted := by
  have hbanned := record_ban_self hb.applies now
  refine ⟨congrArg Record.malformed hbanned, h.suffix, h.short, fun accepted => ?_⟩
  rw [hbanned, ← h.shares]
  rfl

/-! ## The whole of it -/

/--
**Counting starts over once somebody sees that a ban has run out, and not before.**

An address was banned, and so far nobody has come across the end of that ban. Whoever looks at the ban from its deadline
on, be it a connection that asks to be let in, a question or a sweep, has the address start over. As long as nobody has,
each bad line since the ban counts, whether the ban was running or not, and the window that was open when the ban was
called goes on being filled.
-/
theorem starts_over_when_seen (limits : Settings.Limits) (before during : List (Instant × Call)) (ip : Ip) (t : Instant)
    (happlies : (fresh limits).appliesTo ip = true) (hunseen : Unseen ip (t + limits.banDuration) during) :
    let banned := (((fresh limits).replay before).ban t ip).2
    let a := banned.replay during
    (∀ u c, t + limits.banDuration ≤ u → c.looksAt ip = true → StartsOver limits ip (a.call u c))
      ∧ ((a.recordMalformed ip).1 = .banned ↔ limits.malformedLimit ≤ badLines ip during + 1)
      ∧ ∃ begun full rest, Counts limits ((fresh limits).replay before) ip (sharesOf ip (before.map (·.2))) begun
          ∧ Partition limits (begun ++ sharesOf ip (during.map (·.2)))
              (.replicate begun.length .allowed ++ verdictsTo ip banned during) full rest
          ∧ ∀ accepted, (a.record ip).shares accepted = rest.count accepted := by
  intro banned a
  have hfresh := binds_fresh happlies
  have hbefore := hfresh.replay before
  have hbanned : Binds limits ip banned := hbefore.call t (.ban ip)
  have hb : Binds limits ip a := hbanned.replay during
  obtain ⟨begun, hbegun⟩ := exists_counts_replay hfresh (counts_fresh limits ip) before
  obtain ⟨hlines, hcounts⟩ := counts_ban hbefore hbegun t
  -- nothing of it is forgotten, the deadline included
  have hdeadline : (banned.record ip).bannedUntil = some (t + limits.banDuration) := by
    rw [bannedUntil_ban hbefore.applies, hbefore.limits_eq]
  obtain ⟨hretained, hstill⟩ := retained_of_unseen hbanned hdeadline hunseen
  refine ⟨?_, ?_, ?_⟩
  · intro u c hover hlooks
    exact startsOver_of_blank (hb.call u c) (offences_of_looksAt hb.distinct hb.applies ⟨_, hstill, hover⟩ hlooks)
  · have hcount : (a.record ip).malformed = badLines ip during := by
      rw [malformed_replay hbanned hretained fun e he => (hunseen e he).1, hlines, Nat.zero_add]
    rw [recordMalformed_eq hb.applies, hb.limits_eq, hcount]
    simp
  · obtain ⟨full, rest, hpartition, hleft⟩ := partition_replay hbanned hretained hcounts
    exact ⟨begun, full, rest, hbegun, hpartition, hleft.shares⟩

/-- A ban is seen while it runs, and then no more until long after. The second bad line since then gets the address
banned, though the first one was sent during the ban, and the share comes last in a window begun before the ban. -/
theorem starts_over_when_seen_long_after :
    let limits : Settings.Limits := { Settings.Limits.standard with malformedLimit := 2, shareCheckThreshold := 2 }
    let ip : Ip := .v4 1
    let before : List (Instant × Call) := [(0, .letIn ip), (1, .malformed ip), (1, .share ip false)]
    let during : List (Instant × Call) :=
      [(3, .malformed ip), (4, .letIn ip), (limits.banDuration + 2, .share ip true)]
    let a := (((fresh limits).replay before).ban 2 ip).2.replay during
    (fresh limits).appliesTo ip = true ∧ Unseen ip (2 + limits.banDuration) during
      ∧ StartsOver limits ip (a.call (limits.banDuration + 2) (.isBanned ip))
      ∧ (a.recordMalformed ip).1 = .banned
      ∧ ∃ begun full rest,
        Partition limits (begun ++ [true]) (.replicate begun.length .allowed ++ [.banned]) full rest := by
  intro limits ip before during a
  have happlies : (fresh limits).appliesTo ip = true := by decide
  have hunseen : Unseen ip (2 + limits.banDuration) during := by decide
  obtain ⟨hseen, hlines, begun, full, rest, _, hpartition, _⟩ :=
    starts_over_when_seen limits before during ip 2 happlies hunseen
  have hsaid : verdictsTo ip (((fresh limits).replay before).ban 2 ip).2 during = [.banned] := by decide +kernel
  refine ⟨happlies, hunseen, hseen _ _ (by decide) (by decide), hlines.mpr (by decide), begun, full, rest, ?_⟩
  exact hsaid ▸ hpartition

/-- A ban is over, and nobody has seen it yet. A single bad line is too much, since another one was sent during the ban,
and so is a single bad share, since another one came before the ban. So the address has not started over. -/
theorem counts_on_while_unseen :
    let limits : Settings.Limits := { Settings.Limits.standard with malformedLimit := 2, shareCheckThreshold := 2 }
    let ip : Ip := .v4 1
    let a := (fresh limits).replay [(0, .share ip false), (0, .ban ip), (1, .malformed ip)]
    (fresh limits).appliesTo ip = true ∧ (a.record ip).Overdue limits.banDuration
      ∧ (a.recordMalformed ip).1 = .banned ∧ (a.recordShare ip false).1 = .banned ∧ ¬ StartsOver limits ip a := by
  intro limits ip a
  have hline : (a.recordMalformed ip).1 = .banned := by decide
  refine ⟨by decide, by decide, hline, by decide +kernel, fun hover => ?_⟩
  have hallowed : (a.recordMalformed ip).1 = .allowed := hover.lines [] (by decide)
  rw [hline] at hallowed
  exact absurd hallowed (by simp)

end Admission
end MiningPool

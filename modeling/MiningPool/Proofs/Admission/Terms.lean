import Mathlib.Data.Set.Card
import MiningPool.Proofs.Admission.Separation

/-!
# How long a ban lasts

A ban that has run out stays on its record until somebody comes across it: a connection that asks to be let in, a
question whether the address is banned, or a sweep, which may go on to forget the record. A new ban overwrites the
deadline of the last one. None of this shows. `Terms` says that from now on an address is banned just if some ban of it
was called less than a ban's length ago, and every call keeps that as long as the clock does not go back.

Letting in, asking and counting all look at the same deadline, so they agree at every instant, the deadline included.
-/

namespace MiningPool

open Net

/-! ## One deadline, seen from three sides -/

/-- A record that is settled holds a ban just if the ban still runs. -/
theorem Record.isSome_settle (r : Record) (now : Instant) :
    (r.settle now).bannedUntil.isSome = r.isBanned now := by
  unfold settle isBanned
  cases hban : r.bannedUntil with
  | none =>
      dsimp only
      rw [hban]
      rfl
  | some deadline =>
      dsimp only
      by_cases hlt : now < deadline
      · rw [if_pos hlt, hban]
        exact (decide_eq_true hlt).symm
      · rw [if_neg hlt]
        exact (decide_eq_false hlt).symm

namespace Admission

variable {limits : Settings.Limits} {a : Admission} {log more : List (Instant × Call)} {ip : Ip} {t now : Instant}

/-- What is answered to the question whether an address is banned. -/
theorem isBanned_eq (a : Admission) (now : Instant) (ip : Ip) :
    (a.isBanned now ip).1 = (a.appliesTo ip && (a.record ip).isBanned now) := by
  unfold isBanned
  cases a.appliesTo ip with
  | false => rfl
  | true =>
      dsimp only [Bool.not_true]
      rw [if_neg (by decide), record_change a ip ip (Record.settle_blank now), if_pos rfl, Record.isSome_settle]
      rfl

/-- **Whoever is refused for a ban is one of whom it would be said that it is banned.** -/
theorem letIn_eq_banned_iff (a : Admission) (now : Instant) (ip : Ip) :
    (a.letIn now ip).1 = .banned ↔ (a.isBanned now ip).1 = true := by
  rw [isBanned_eq, Bool.and_eq_true]
  constructor
  · intro h
    unfold letIn at h
    split at h
    · exact absurd h (by simp)
    · rename_i happlies
      dsimp only at h
      split at h
      · rename_i hsome
        rw [record_modify_self, Record.isSome_settle] at hsome
        exact ⟨by simpa using happlies, hsome⟩
      · split at h
        · exact absurd h (by simp)
        · exact absurd h (by simp)
  · rintro ⟨happlies, hbanned⟩
    exact letIn_of_isBanned happlies hbanned

/-! ## What was called, and when -/

/-- Calls were made in the order of their instants, and none after now. -/
def InOrder (log : List (Instant × Call)) (now : Instant) : Prop :=
  log.Pairwise (·.1 ≤ ·.1) ∧ ∀ e ∈ log, e.1 ≤ now

instance (log : List (Instant × Call)) (now : Instant) : Decidable (InOrder log now) :=
  inferInstanceAs (Decidable (_ ∧ _))

/-- Some ban of an address was called less than a ban's length ago. -/
def BanRuns (length : Span) (log : List (Instant × Call)) (ip : Ip) (now : Instant) : Prop :=
  ∃ t, (t, .ban ip) ∈ log ∧ now < t + length

theorem BanRuns.append {length : Span} (h : BanRuns length log ip now) (more : List (Instant × Call)) :
    BanRuns length (log ++ more) ip now := by
  obtain ⟨t, hmem, hlt⟩ := h
  exact ⟨t, List.mem_append_left more hmem, hlt⟩

/-- What is no ban of the address makes no difference. -/
theorem banRuns_append_of_ne {length : Span} {c : Call} (hc : c ≠ .ban ip) :
    BanRuns length (log ++ [(t, c)]) ip now ↔ BanRuns length log ip now := by
  refine ⟨?_, fun h => h.append _⟩
  rintro ⟨s, hmem, hlt⟩
  rcases List.mem_append.mp hmem with hold | hnew
  · exact ⟨s, hold, hlt⟩
  · exact absurd (Prod.mk.inj (List.mem_singleton.mp hnew)).2.symm hc

/-- When the last ban of an address is over, so are all before it. -/
theorem not_banRuns_of_last {length : Span} {before between : List (Instant × Call)}
    (hsorted : (before ++ (t, .ban ip) :: between).Pairwise (·.1 ≤ ·.1)) (hlast : ∀ s, (s, .ban ip) ∉ between)
    (hover : t + length ≤ now) : ¬ BanRuns length (before ++ (t, .ban ip) :: between) ip now := by
  rintro ⟨s, hmem, hlt⟩
  have hle : s ≤ t := by
    rcases List.mem_append.mp hmem with hearlier | hmem
    · exact (List.pairwise_append.mp hsorted).2.2 _ hearlier _ List.mem_cons_self
    · rcases List.mem_cons.mp hmem with heq | hmem
      · exact Nat.le_of_eq (Prod.mk.inj heq).1
      · exact absurd hmem (hlast s)
  have hlater := Nat.lt_of_lt_of_le hlt (Nat.add_le_add_right hle length)
  exact absurd hlater (Nat.not_lt.mpr hover)

/-- What is remembered is true to what was called. -/
structure Terms (limits : Settings.Limits) (log : List (Instant × Call)) (a : Admission) : Prop where
  limits_eq : a.limits = limits
  distinct : a.Distinct
  /-- An address without limits is not remembered. -/
  free : ∀ ip, a.appliesTo ip = false → a.records.get? ip = none
  /-- From now on, whatever is still on the record. -/
  banned : ∀ ip now, a.appliesTo ip = true → (∀ e ∈ log, e.1 ≤ now) →
    ((a.record ip).isBanned now = true ↔ BanRuns limits.banDuration log ip now)

theorem terms_fresh (limits : Settings.Limits) : Terms limits [] (fresh limits) where
  limits_eq := rfl
  distinct := distinct_fresh limits
  free := fun _ _ => rfl
  banned := fun _ _ _ _ => iff_of_false Bool.false_ne_true fun ⟨_, hmem, _⟩ => absurd hmem List.not_mem_nil

theorem Terms.appliesTo (h : Terms limits log a) (ip : Ip) : a.appliesTo ip = (fresh limits).appliesTo ip :=
  appliesTo_congr h.limits_eq ip

/-- A ban sets the deadline that no earlier ban goes beyond. -/
theorem Terms.banned_ban (h : Terms limits log a) (hpast : ∀ e ∈ log, e.1 ≤ t) (happlies : a.appliesTo ip = true)
    (now : Instant) : ((a.call t (.ban ip)).record ip).isBanned now = true
      ↔ BanRuns limits.banDuration (log ++ [(t, .ban ip)]) ip now := by
  have hdeadline : ((a.call t (.ban ip)).record ip).bannedUntil = some (t + limits.banDuration) :=
    h.limits_eq ▸ bannedUntil_ban happlies t
  rw [Record.isBanned, hdeadline, Option.any_some, decide_eq_true_eq]
  constructor
  · intro hlt
    exact ⟨t, List.mem_append_right log List.mem_cons_self, hlt⟩
  · rintro ⟨s, hmem, hlt⟩
    rcases List.mem_append.mp hmem with hold | hnew
    · have hle : s ≤ t := hpast _ hold
      exact Nat.lt_of_lt_of_le hlt (Nat.add_le_add_right hle _)
    · obtain ⟨rfl, -⟩ := Prod.mk.inj (List.mem_singleton.mp hnew)
      exact hlt

/-- **Every call keeps to the terms of all bans so far.** -/
theorem terms_call (h : Terms limits log a) (hpast : ∀ e ∈ log, e.1 ≤ t) (c : Call) :
    Terms limits (log ++ [(t, c)]) (a.call t c) := by
  obtain ⟨hlimits, hdistinct⟩ := limits_call h.distinct t c
  have happlies' : ∀ ip, (a.call t c).appliesTo ip = a.appliesTo ip := appliesTo_congr hlimits
  refine ⟨hlimits.trans h.limits_eq, hdistinct, fun ip hfree => ?_, fun ip now happlies hnow => ?_⟩
  · rw [happlies'] at hfree
    exact unknown_call h.distinct hfree (h.free ip hfree) t c
  · rw [happlies'] at happlies
    by_cases hc : c = .ban ip
    · rw [hc]
      exact h.banned_ban hpast happlies now
    · have hthen : t ≤ now := hnow _ (List.mem_append_right log List.mem_cons_self)
      rw [banRuns_append_of_ne hc]
      rcases bannedUntil_call h.distinct t fun he => absurd he hc with hsame | ⟨hover, hlifted⟩
      · have hold := h.banned ip now happlies fun e he => hnow e (List.mem_append_left _ he)
        rw [← hold, Record.isBanned, Record.isBanned, hsame]
      · -- a ban that was lifted had run out, and so have all before it
        have hnone : ¬ BanRuns limits.banDuration log ip t := by
          rw [← h.banned ip t happlies hpast, hover]
          exact Bool.false_ne_true
        rw [Record.isBanned, hlifted]
        refine iff_of_false Bool.false_ne_true ?_
        rintro ⟨s, hmem, hlt⟩
        exact hnone ⟨s, hmem, Nat.lt_of_le_of_lt hthen hlt⟩

/-- **So do whole logs**, if the clock never goes back. -/
theorem terms_replay (limits : Settings.Limits) (log : List (Instant × Call)) :
    log.Pairwise (·.1 ≤ ·.1) → Terms limits log ((fresh limits).replay log) := by
  induction log using List.reverseRecOn with
  | nil => exact fun _ => terms_fresh limits
  | append_singleton log e ih =>
      intro horder
      obtain ⟨hearlier, _, hlast⟩ := List.pairwise_append.mp horder
      rw [replay_append]
      exact terms_call (ih hearlier) (fun d hd => hlast d hd e List.mem_cons_self) e.2

/-! ## What is answered -/

/-- An address with limits is said to be banned just if a ban of it runs. -/
theorem Terms.isBanned_iff (h : Terms limits log a) (happlies : a.appliesTo ip = true) (hpast : ∀ e ∈ log, e.1 ≤ now) :
    (a.isBanned now ip).1 = true ↔ BanRuns limits.banDuration log ip now := by
  rw [isBanned_eq, happlies, Bool.true_and]
  exact h.banned ip now happlies hpast

/-- **Whoever will still be banned later will be so after another ban.** -/
theorem Terms.isBanned_ban (h : Terms limits log a) (hpast : ∀ e ∈ log, e.1 ≤ t) (hlater : t ≤ now)
    (hbanned : (a.isBanned now ip).1 = true) : ((a.ban t ip).2.isBanned now ip).1 = true := by
  have happlies : a.appliesTo ip = true := by
    rw [isBanned_eq, Bool.and_eq_true] at hbanned
    exact hbanned.1
  have hruns := (h.isBanned_iff happlies fun e he => Nat.le_trans (hpast e he) hlater).mp hbanned
  have h' : Terms limits (log ++ [(t, .ban ip)]) (a.ban t ip).2 := terms_call h hpast (.ban ip)
  rw [h'.isBanned_iff]
  · exact hruns.append _
  · rw [h'.appliesTo, ← h.appliesTo, happlies]
  · intro e he
    rcases List.mem_append.mp he with he | he
    · exact Nat.le_trans (hpast e he) hlater
    · rw [List.mem_singleton.mp he]
      exact hlater

/-! ## How many -/

theorem encard_of_nodup {ips : List Ip} (h : ips.Nodup) : {ip | ip ∈ ips}.encard = ips.length := by
  rw [← List.coe_toFinset, Set.encard_coe_eq_coe_finsetCard, List.toFinset_card_of_nodup h]

/-- **As many are counted as would be said to be banned.** -/
theorem Terms.encard_banned (h : Terms limits log a) (now : Instant) :
    {ip | (a.isBanned now ip).1 = true}.encard = a.bannedCount now := by
  have hkeys : ((a.records.filter (·.2.isBanned now)).map (·.1)).Nodup :=
    h.distinct.sublist (List.filter_sublist.map _)
  have hset : {ip | (a.isBanned now ip).1 = true}
      = {ip | ip ∈ (a.records.filter (·.2.isBanned now)).map (·.1)} := by
    ext ip
    rw [Set.mem_ofPred_eq, Set.mem_ofPred_eq, isBanned_eq, Bool.and_eq_true, List.mem_map]
    constructor
    · rintro ⟨_, hbanned⟩
      rw [record] at hbanned
      cases hfound : a.records.get? ip with
      | none =>
          rw [hfound] at hbanned
          exact absurd hbanned Bool.false_ne_true
      | some r =>
          rw [hfound] at hbanned
          exact ⟨(ip, r), List.mem_filter.mpr ⟨Keyed.mem_of_get? hfound, hbanned⟩, rfl⟩
    · rintro ⟨⟨l, r⟩, hmem, rfl⟩
      obtain ⟨hmem, hbanned⟩ := List.mem_filter.mp hmem
      have hfound : a.records.get? l = some r := Keyed.get?_of_mem h.distinct hmem
      refine ⟨?_, ?_⟩
      · -- whoever is remembered has limits
        by_contra hfree
        rw [h.free l (Bool.eq_false_of_not_eq_true hfree)] at hfound
        exact absurd hfound (by simp)
      · rw [record, hfound]
        exact hbanned
  rw [hset, encard_of_nodup hkeys, List.length_map, bannedCount]

/-! ## The whole of it -/

/--
**A ban lasts exactly its length, and all who look see the same.**

Take any calls in the order of their instants. An address that was banned is refused and said to be banned at every
instant before the ban's length is over, whatever was called in between. From then on it is neither, unless it was
banned again. Banning an address once more never ends its ban any sooner. And as many bans are counted at any instant
as there are addresses of which it would be said that they are banned.
-/
theorem ban_lasts_its_length (limits : Settings.Limits) (log : List (Instant × Call)) (now : Instant)
    (horder : InOrder log now) :
    let a := (fresh limits).replay log
    (∀ before t ip between, log = before ++ (t, .ban ip) :: between → a.appliesTo ip = true →
        (now < t + limits.banDuration → (a.letIn now ip).1 = .banned ∧ (a.isBanned now ip).1 = true)
          ∧ (t + limits.banDuration ≤ now → (∀ s, (s, .ban ip) ∉ between) →
            (a.letIn now ip).1 ≠ .banned ∧ (a.isBanned now ip).1 = false))
      ∧ (∀ ip later, now ≤ later → (a.isBanned later ip).1 = true →
          ((a.ban now ip).2.isBanned later ip).1 = true)
      ∧ ∀ u, {ip | (a.isBanned u ip).1 = true}.encard = a.bannedCount u := by
  intro a
  obtain ⟨hsorted, hpast⟩ := horder
  have h : Terms limits log a := terms_replay limits log hsorted
  refine ⟨fun before t ip between hlog happlies => ⟨fun hlt => ?_, fun hover hlast => ?_⟩,
    fun ip later hlater hbanned => h.isBanned_ban hpast hlater hbanned, h.encard_banned⟩
  · have hyes : (a.isBanned now ip).1 = true := by
      rw [h.isBanned_iff happlies hpast, hlog]
      exact ⟨t, List.mem_append_right before List.mem_cons_self, hlt⟩
    exact ⟨(letIn_eq_banned_iff a now ip).mpr hyes, hyes⟩
  · have hno : (a.isBanned now ip).1 ≠ true := by
      rw [Ne, h.isBanned_iff happlies hpast, hlog]
      exact not_banRuns_of_last (hlog ▸ hsorted) hlast hover
    exact ⟨fun hbanned => hno ((letIn_eq_banned_iff a now ip).mp hbanned), Bool.eq_false_of_not_eq_true hno⟩

/-- Two addresses are banned at once, and one of them again a little later. At the instant at which the first ban ends
the other address is still banned, and it is the only one. -/
theorem ban_lasts_its_length_second_ban :
    let limits := Settings.Limits.standard
    let log : List (Instant × Call) :=
      [(0, .letIn (.v4 1)), (1, .ban (.v4 1)), (1, .ban (.v4 2)), (2, .letIn (.v4 1)), (3, .release (.v4 1)),
        (3, .malformed (.v4 1)), (4, .sweep), (5, .ban (.v4 2)), (6, .isBanned (.v4 1))]
    let now := limits.banDuration + 1
    let a := (fresh limits).replay log
    InOrder log now
      ∧ ((a.letIn now (.v4 1)).1 ≠ .banned ∧ (a.isBanned now (.v4 1)).1 = false)
      ∧ ((a.letIn now (.v4 2)).1 = .banned ∧ (a.isBanned now (.v4 2)).1 = true)
      ∧ {ip | (a.isBanned now ip).1 = true}.encard = 1 := by
  intro limits log now a
  have horder : InOrder log now := by decide
  obtain ⟨hterm, _, hcount⟩ := ban_lasts_its_length limits log now horder
  refine ⟨horder, ?_, ?_, ?_⟩
  · exact (hterm [(0, .letIn (.v4 1))] 1 (.v4 1) _ rfl (by decide)).2 (by decide) (by simp)
  · exact (hterm (log.take 7) 5 (.v4 2) _ rfl (by decide)).1 (by decide)
  · rw [hcount now]
    exact congrArg Nat.cast (show a.bannedCount now = 1 by decide)

end Admission
end MiningPool

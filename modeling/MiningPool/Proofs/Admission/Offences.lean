import Mathlib.Data.List.DropRight
import MiningPool.Proofs.Admission.Separation

/-!
# What is held against an address, and when it is forgotten

Bad lines and shares are added to the record of their address. Whether a ban has run out is found out by whoever looks:
a connection that asks to be let in, a question whether the address is banned, or a sweep. If it has, all that was
held against the address is forgotten along with it (`Lifts`). Bad lines, shares and bans are put on the record without
looking.

So as long as nobody comes across a ban that has run out, and no sweep forgets the address, a call changes what is held
by just what it tells (`Retains`).
-/

namespace MiningPool

open Net

namespace Record

/-! ## One record -/

/-- Its ban has run out, and nobody has come across that. -/
def Overdue (r : Record) (now : Instant) : Prop := ∃ deadline, r.bannedUntil = some deadline ∧ deadline ≤ now

/-- The offences stay as they are, or a ban that has run out is lifted and all are forgotten. -/
def Lifts (now : Instant) (r r' : Record) : Prop :=
  r'.offences = r.offences ∨ (r.Overdue now ∧ r'.offences = blank)

variable {now : Instant} {r r' r'' : Record}

theorem malformed_of_offences (h : r'.offences = r.offences) : r'.malformed = r.malformed := by
  have hlines : r'.offences.malformed = r.offences.malformed := by rw [h]
  exact hlines

theorem Overdue.not_isBanned (h : r.Overdue now) : r.isBanned now = false := by
  obtain ⟨deadline, hban, hover⟩ := h
  rw [isBanned, hban]
  exact decide_eq_false (Nat.not_lt.mpr hover)

theorem settle_of_overdue (h : r.Overdue now) : (r.settle now).offences = blank := by
  obtain ⟨deadline, hban, hover⟩ := h
  rw [settle, hban]
  dsimp only
  rw [if_neg (Nat.not_lt.mpr hover)]
  rfl

theorem settle_of_not_overdue (h : ¬ r.Overdue now) : r.settle now = r := by
  unfold settle
  split
  · rename_i deadline hban
    exact if_pos (Nat.lt_of_not_le fun hover => h ⟨deadline, hban, hover⟩)
  · rfl

theorem Lifts.refl (now : Instant) (r : Record) : r.Lifts now r := Or.inl rfl

theorem Lifts.trans (h : r.Lifts now r') (h' : r'.Lifts now r'') : r.Lifts now r'' := by
  rcases h' with hsame' | ⟨⟨deadline, hban, hover⟩, hblank'⟩
  -- the second change lifts nothing, or it lifts what the first one left
  · rcases h with hsame | ⟨hover, hblank⟩
    · exact Or.inl (hsame'.trans hsame)
    · exact Or.inr ⟨hover, hsame'.trans hblank⟩
  · rcases h with hsame | ⟨hover, _⟩
    · exact Or.inr ⟨⟨deadline, (bannedUntil_of_offences hsame).symm.trans hban, hover⟩, hblank'⟩
    · exact Or.inr ⟨hover, hblank'⟩

theorem lifts_settle (now : Instant) (r : Record) : r.Lifts now (r.settle now) := by
  by_cases hover : r.Overdue now
  · exact Or.inr ⟨hover, settle_of_overdue hover⟩
  · rw [settle_of_not_overdue hover]
    exact .refl now r

theorem Lifts.fades (h : r.Lifts now r') : r.Fades now r' := by
  rcases h with hsame | ⟨hover, hblank⟩
  · exact Or.inl hsame
  · exact Or.inr ⟨hover.not_isBanned, hblank⟩

end Record

namespace Admission

/-! ## Looking and accusing -/

/-- The calls that look whether a ban of an address has run out. -/
def Call.looksAt (ip : Ip) : Call → Bool
  | .letIn l | .isBanned l => l = ip
  | .sweep => true
  | _ => false

/-- The calls that put something on the record of an address. -/
def Call.accuses (ip : Ip) : Call → Bool
  | .ban l | .malformed l | .share l _ => l = ip
  | _ => false

variable {a : Admission} {ip l : Ip} {now : Instant} {c : Call} {log : List (Instant × Call)}

theorem record_call_of_ne (hip : c.ip? = some l) (hne : ip ≠ l) : (a.call now c).record ip = a.record ip :=
  (agree_call_other a hip hne now).record

/-- Whoever asks to be let in has what is held against it looked at. -/
theorem offences_letIn (happlies : a.appliesTo ip = true) (now : Instant) :
    ((a.letIn now ip).2.record ip).offences = ((a.record ip).settle now).offences := by
  have hsettled : (a.modify ip (·.settle now)).record ip = (a.record ip).settle now := record_modify_self a ip _
  rw [letIn, happlies]
  dsimp only [Bool.not_true]
  rw [if_neg (by decide)]
  split
  · rw [hsettled]
  · split
    · rw [hsettled]
    · rw [record_modify_self, hsettled]
      rfl

/-- No ban is on the record of whoever was just let in. -/
theorem bannedUntil_letIn (happlies : a.appliesTo ip = true) (hin : (a.letIn now ip).1 = .admitted) :
    ((a.letIn now ip).2.record ip).bannedUntil = none := by
  rw [Record.bannedUntil_of_offences (offences_letIn happlies now)]
  rw [letIn, happlies] at hin
  dsimp only [Bool.not_true] at hin
  rw [if_neg (by decide)] at hin
  split at hin
  · exact absurd hin (by simp)
  · rename_i hnone
    rw [record_modify_self] at hnone
    exact Option.not_isSome_iff_eq_none.mp hnone

theorem record_isBanned (happlies : a.appliesTo ip = true) (now : Instant) :
    (a.isBanned now ip).2.record ip = (a.record ip).settle now := by
  rw [isBanned, happlies]
  dsimp only [Bool.not_true]
  rw [if_neg (by decide), record_change a ip ip (Record.settle_blank now), if_pos rfl]

theorem lifts_letIn (a : Admission) (now : Instant) (ip : Ip) :
    (a.record ip).Lifts now ((a.letIn now ip).2.record ip) := by
  cases happlies : a.appliesTo ip with
  | false =>
      rw [letIn, happlies]
      exact .refl now _
  | true => exact (Record.lifts_settle now _).trans (Or.inl (offences_letIn happlies now))

theorem lifts_isBanned (a : Admission) (now : Instant) (ip : Ip) :
    (a.record ip).Lifts now ((a.isBanned now ip).2.record ip) := by
  cases happlies : a.appliesTo ip with
  | false =>
      rw [isBanned, happlies]
      exact .refl now _
  | true =>
      rw [record_isBanned happlies]
      exact Record.lifts_settle now _

/-- **Whoever comes across a ban that has run out forgets all that was held with it.** -/
theorem offences_of_looksAt (hd : a.Distinct) (happlies : a.appliesTo ip = true)
    (hover : (a.record ip).Overdue now) (hlooks : c.looksAt ip = true) :
    ((a.call now c).record ip).offences = .blank := by
  cases c with
  | letIn l =>
      obtain rfl : l = ip := by simpa [Call.looksAt] using hlooks
      exact (offences_letIn happlies now).trans (Record.settle_of_overdue hover)
  | isBanned l =>
      obtain rfl : l = ip := by simpa [Call.looksAt] using hlooks
      exact (congrArg Record.offences (record_isBanned happlies now)).trans (Record.settle_of_overdue hover)
  | sweep =>
      -- the sweep forgets the address, or keeps what is left without the ban
      show ((a.sweep now).2.record ip).offences = .blank
      rw [record] at hover
      rw [record, found_sweep hd]
      cases hfound : a.records.get? ip with
      | none => rfl
      | some r =>
          rw [hfound] at hover
          rw [Option.map_some, Option.filter_some]
          split
          · exact Record.settle_of_overdue hover
          · rfl
  | _ => exact absurd hlooks (by simp [Call.looksAt])

theorem offences_release (a : Admission) (ip l : Ip) :
    ((a.release ip).record l).offences = (a.record l).offences := by
  rw [release, record_change a ip l rfl]
  split
  · rename_i hl
    subst hl
    rfl
  · rfl

/-- **Who neither looks nor accuses changes nothing that is held.** -/
theorem offences_of_not_looksAt (hlooks : c.looksAt ip = false) (haccuses : c.accuses ip = false) :
    ((a.call now c).record ip).offences = (a.record ip).offences := by
  cases hip : c.ip? with
  | none =>
      cases c with
      | sweep => exact absurd hlooks (by simp [Call.looksAt])
      | _ => exact absurd hip (by simp [Call.ip?])
  | some l =>
      by_cases hne : ip = l
      · subst hne
        cases c with
        | release l => exact offences_release a l ip
        | sweep => exact absurd hip (by simp [Call.ip?])
        | letIn l => exact absurd hlooks (by simpa [Call.looksAt, Call.ip?] using hip)
        | isBanned l => exact absurd hlooks (by simpa [Call.looksAt, Call.ip?] using hip)
        | ban l => exact absurd haccuses (by simpa [Call.accuses, Call.ip?] using hip)
        | malformed l => exact absurd haccuses (by simpa [Call.accuses, Call.ip?] using hip)
        | share l accepted => exact absurd haccuses (by simpa [Call.accuses, Call.ip?] using hip)
      · rw [record_call_of_ne hip hne]

/-- **Who does not accuse at most lifts a ban that has run out**, unless it is a sweep. -/
theorem lifts_call (hswept : c ≠ .sweep) (haccuses : c.accuses ip = false) :
    (a.record ip).Lifts now ((a.call now c).record ip) := by
  by_cases hlooks : c.looksAt ip = true
  · cases c with
    | letIn l =>
        obtain rfl : l = ip := by simpa [Call.looksAt] using hlooks
        exact lifts_letIn a now l
    | isBanned l =>
        obtain rfl : l = ip := by simpa [Call.looksAt] using hlooks
        exact lifts_isBanned a now l
    | sweep => exact absurd rfl hswept
    | _ => exact absurd hlooks (by simp [Call.looksAt])
  · exact Or.inl (offences_of_not_looksAt (by simpa using hlooks) haccuses)

theorem fades_call (hd : a.Distinct) (haccuses : c.accuses ip = false) :
    (a.record ip).Fades now ((a.call now c).record ip) := by
  by_cases hswept : c = .sweep
  · subst hswept
    exact fades_sweep hd now ip
  · exact (lifts_call hswept haccuses).fades

/-! ## Whom the limits bind -/

/-- Some limits are kept to, and the address is one of those they apply to. -/
structure Binds (limits : Settings.Limits) (ip : Ip) (a : Admission) : Prop where
  limits_eq : a.limits = limits
  distinct : a.Distinct
  applies : a.appliesTo ip = true

theorem limits_replay (h : a.Distinct) (log : List (Instant × Call)) :
    (a.replay log).limits = a.limits ∧ (a.replay log).Distinct := by
  induction log generalizing a with
  | nil => exact ⟨rfl, h⟩
  | cons e log ih =>
      obtain ⟨hlimits, hdistinct⟩ := limits_call h e.1 e.2
      obtain ⟨hrest, hdistinct'⟩ := ih hdistinct
      exact ⟨hrest.trans hlimits, hdistinct'⟩

theorem binds_fresh {limits : Settings.Limits} (happlies : (fresh limits).appliesTo ip = true) :
    Binds limits ip (fresh limits) := ⟨rfl, distinct_fresh limits, happlies⟩

theorem Binds.call {limits : Settings.Limits} (h : Binds limits ip a) (now : Instant) (c : Call) :
    Binds limits ip (a.call now c) := by
  obtain ⟨hlimits, hdistinct⟩ := limits_call h.distinct now c
  exact ⟨hlimits.trans h.limits_eq, hdistinct, (appliesTo_congr hlimits ip).trans h.applies⟩

theorem Binds.replay {limits : Settings.Limits} (h : Binds limits ip a) (log : List (Instant × Call)) :
    Binds limits ip (a.replay log) := by
  obtain ⟨hlimits, hdistinct⟩ := limits_replay h.distinct log
  exact ⟨hlimits.trans h.limits_eq, hdistinct, (appliesTo_congr hlimits ip).trans h.applies⟩

/-! ## Accusations -/

section Applies

variable (happlies : a.appliesTo ip = true)
include happlies

theorem record_recordMalformed :
    (a.recordMalformed ip).2.record ip = { a.record ip with malformed := (a.record ip).malformed + 1 } := by
  rw [recordMalformed, happlies]
  exact record_modify_self a ip _

/-- What is said to a bad line. -/
theorem recordMalformed_eq : (a.recordMalformed ip).1
    = if a.limits.malformedLimit ≤ (a.record ip).malformed + 1 then .banned else .allowed := by
  have hcounted := record_modify_self a ip fun r => { r with malformed := r.malformed + 1 }
  rw [recordMalformed, happlies]
  dsimp only [Bool.not_true]
  rw [if_neg (by decide), hcounted]
  rfl

theorem record_ban_self (now : Instant) : (a.ban now ip).2.record ip
    = { a.record ip with bannedUntil := some (now + a.limits.banDuration), malformed := 0 } := by
  rw [record_ban happlies, record_modify_self]

end Applies

theorem malformed_recordShare (a : Admission) (ip : Ip) (accepted : Bool) :
    ((a.recordShare ip accepted).2.record ip).malformed = (a.record ip).malformed := by
  unfold recordShare
  split
  · rfl
  · have hcounted : ((a.modify ip fun r => if accepted then { r with validShares := r.validShares + 1 }
        else { r with invalidShares := r.invalidShares + 1 }).record ip).malformed = (a.record ip).malformed := by
      rw [record_modify_self]
      split
      · rfl
      · rfl
    dsimp only
    generalize (a.modify ip fun r => if accepted then _ else _) = b at hcounted ⊢
    split
    · exact hcounted
    · rw [record_modify_self]
      exact hcounted

/-! ## Nothing is forgotten -/

/-- Whoever looks finds a ban that still runs, or finds none and is no sweep. -/
def Retains (a : Admission) (now : Instant) (ip : Ip) (c : Call) : Prop :=
  c.looksAt ip = true → (a.record ip).isBanned now = true ∨ (c ≠ .sweep ∧ (a.record ip).bannedUntil = none)

/-- Nobody who looks along the way forgets anything. -/
def Retained (ip : Ip) : Admission → List (Instant × Call) → Prop
  | _, [] => True
  | a, (now, c) :: log => a.Retains now ip c ∧ Retained ip (a.call now c) log

theorem offences_of_retains (hd : a.Distinct) (h : a.Retains now ip c) (haccuses : c.accuses ip = false) :
    ((a.call now c).record ip).offences = (a.record ip).offences := by
  cases hlooks : c.looksAt ip with
  | false => exact offences_of_not_looksAt hlooks haccuses
  | true =>
      -- a ban that runs is not lifted, and without a ban there is none to lift
      rcases h hlooks with hruns | ⟨hswept, hnone⟩
      · rcases fades_call hd haccuses with hsame | ⟨hfree, _⟩
        · exact hsame
        · exact absurd (hruns.symm.trans hfree) (by simp)
      · rcases lifts_call hswept haccuses with hsame | ⟨⟨deadline, hban, _⟩, _⟩
        · exact hsame
        · exact absurd (hnone.symm.trans hban) (by simp)

/-- Whoever accuses is a ban, a bad line or a share. -/
theorem cases_of_accuses (h : c.accuses ip = true) :
    c = .ban ip ∨ c = .malformed ip ∨ ∃ accepted, c = .share ip accepted := by
  cases c with
  | ban l => exact Or.inl (by simpa [Call.accuses] using h)
  | malformed l => exact Or.inr (Or.inl (by simpa [Call.accuses] using h))
  | share l accepted => exact Or.inr (Or.inr ⟨accepted, by simpa [Call.accuses] using h⟩)
  | _ => exact absurd h (by simp [Call.accuses])

theorem ne_of_not_accuses (h : c.accuses ip = false) : c ≠ .malformed ip ∧ c ≠ .ban ip := by
  refine ⟨?_, ?_⟩
  · rintro rfl
    simp [Call.accuses] at h
  · rintro rfl
    simp [Call.accuses] at h

/-- **A bad line counts one more, and a ban starts over.** -/
theorem malformed_call {limits : Settings.Limits} (hb : Binds limits ip a) (h : a.Retains now ip c) :
    ((a.call now c).record ip).malformed
      = if c = .malformed ip then (a.record ip).malformed + 1 else if c = .ban ip then 0
        else (a.record ip).malformed := by
  cases haccuses : c.accuses ip with
  | true =>
      rcases cases_of_accuses haccuses with rfl | rfl | ⟨accepted, rfl⟩
      · rw [if_neg (by simp), if_pos rfl]
        exact congrArg Record.malformed (record_ban_self hb.applies now)
      · rw [if_pos rfl]
        exact congrArg Record.malformed (record_recordMalformed hb.applies)
      · exact malformed_recordShare a ip accepted
  | false =>
      obtain ⟨hline, hban⟩ := ne_of_not_accuses haccuses
      rw [if_neg hline, if_neg hban]
      exact Record.malformed_of_offences (offences_of_retains hb.distinct h haccuses)

/-- **Only a ban changes until when an address is banned.** -/
theorem bannedUntil_of_retains {limits : Settings.Limits} (hb : Binds limits ip a) (h : a.Retains now ip c) :
    ((a.call now c).record ip).bannedUntil
      = if c = .ban ip then some (now + limits.banDuration) else (a.record ip).bannedUntil := by
  cases haccuses : c.accuses ip with
  | true =>
      rcases cases_of_accuses haccuses with rfl | rfl | ⟨accepted, rfl⟩
      · rw [if_pos rfl, ← hb.limits_eq]
        exact bannedUntil_ban hb.applies now
      · exact (notes_recordMalformed a ip).bannedUntil
      · exact (notes_recordShare a ip accepted).bannedUntil
  | false =>
      rw [if_neg (ne_of_not_accuses haccuses).2]
      exact Record.bannedUntil_of_offences (offences_of_retains hb.distinct h haccuses)

/-- Whatever else happens, a call counts no bad line but its own. -/
theorem malformed_call_le (hd : a.Distinct) (now : Instant) (ip : Ip) (c : Call) :
    ((a.call now c).record ip).malformed ≤ (a.record ip).malformed + if c = .malformed ip then 1 else 0 := by
  cases haccuses : c.accuses ip with
  | true =>
      rcases cases_of_accuses haccuses with rfl | rfl | ⟨accepted, rfl⟩
      · show ((a.ban now ip).2.record ip).malformed ≤ _
        cases happlies : a.appliesTo ip with
        | true => rw [record_ban_self happlies]; exact Nat.zero_le _
        | false => rw [ban, happlies]; exact Nat.le_add_right _ _
      · show ((a.recordMalformed ip).2.record ip).malformed ≤ _
        cases happlies : a.appliesTo ip with
        | true => rw [record_recordMalformed happlies, if_pos rfl]
        | false => rw [recordMalformed, happlies]; exact Nat.le_add_right _ _
      · exact Nat.le_add_right_of_le (Nat.le_of_eq (malformed_recordShare a ip accepted))
  | false =>
      refine Nat.le_add_right_of_le ?_
      have hfades : (a.record ip).Fades now ((a.call now c).record ip) := fades_call hd haccuses
      rcases hfades with hsame | ⟨_, hblank⟩
      · exact Nat.le_of_eq (Record.malformed_of_offences hsame)
      · rw [Record.malformed_of_offences (r := .blank) hblank]
        exact Nat.zero_le _

/-! ## Logs -/

/-- The bad lines of an address that a log tells of. -/
def badLines (ip : Ip) (log : List (Instant × Call)) : Nat := (log.map (·.2)).count (.malformed ip)

theorem badLines_cons (ip : Ip) (e : Instant × Call) (log : List (Instant × Call)) :
    badLines ip (e :: log) = badLines ip log + if e.2 = .malformed ip then 1 else 0 := by
  rw [badLines, List.map_cons, List.count_cons, badLines]
  simp

theorem badLines_append (ip : Ip) (log more : List (Instant × Call)) :
    badLines ip (log ++ more) = badLines ip log + badLines ip more := by
  rw [badLines, List.map_append, List.count_append, badLines, badLines]

/-- **Without bans all bad lines add up**, as long as nothing is forgotten. -/
theorem malformed_replay {limits : Settings.Limits} (hb : Binds limits ip a) (h : Retained ip a log)
    (hban : ∀ e ∈ log, e.2 ≠ .ban ip) :
    ((a.replay log).record ip).malformed = (a.record ip).malformed + badLines ip log := by
  induction log generalizing a with
  | nil => rfl
  | cons e log ih =>
      obtain ⟨hfirst, hrest⟩ := h
      obtain ⟨hnoban, hnobans⟩ := List.forall_mem_cons.mp hban
      have hcall := malformed_call hb hfirst
      rw [if_neg hnoban] at hcall
      have hreplay : a.replay (e :: log) = (a.call e.1 e.2).replay log := rfl
      rw [hreplay, ih (hb.call e.1 e.2) hrest hnobans, hcall, badLines_cons]
      split
      · omega
      · omega

/-- Whatever is forgotten, no more bad lines are held than were told of. -/
theorem malformed_replay_le (hd : a.Distinct) (ip : Ip) (log : List (Instant × Call)) :
    ((a.replay log).record ip).malformed ≤ (a.record ip).malformed + badLines ip log := by
  induction log generalizing a with
  | nil => exact Nat.le_refl _
  | cons e log ih =>
      have hcall := malformed_call_le hd e.1 ip e.2
      have hrest := ih (limits_call hd e.1 e.2).2
      have hreplay : a.replay (e :: log) = (a.call e.1 e.2).replay log := rfl
      rw [hreplay, badLines_cons]
      omega

/-- A bad line that leads to a ban, and the end of its connection. -/
theorem bannedUntil_bar {limits : Settings.Limits} (hb : Binds limits ip a) (now : Instant) :
    ((a.calls now [.malformed ip, .ban ip, .release ip]).record ip).bannedUntil = some (now + limits.banDuration) := by
  have hline := hb.call now (.malformed ip)
  have hbanned : ((a.calls now [.malformed ip, .ban ip]).record ip).bannedUntil = some (now + limits.banDuration) := by
    rw [← hline.limits_eq]
    exact bannedUntil_ban hline.applies now
  exact (Record.bannedUntil_of_offences (offences_release _ ip ip)).trans hbanned

/-! ## Since the last ban -/

/-- The bad lines of an address that a log tells of since the last ban, or from its start. -/
def strikes (ip : Ip) (log : List (Instant × Call)) : Nat := badLines ip (log.rtakeWhile (·.2 ≠ .ban ip))

theorem strikes_concat (ip : Ip) (log : List (Instant × Call)) (e : Instant × Call) :
    strikes ip (log ++ [e])
      = if e.2 = .ban ip then 0 else strikes ip log + if e.2 = .malformed ip then 1 else 0 := by
  by_cases hban : e.2 = .ban ip
  · rw [strikes, List.rtakeWhile_concat_neg _ _ _ (by simpa using hban), if_pos hban]
    rfl
  · rw [strikes, List.rtakeWhile_concat_pos _ _ _ (by simpa using hban), if_neg hban, badLines_append, badLines_cons]
    exact congrArg (_ + ·) (Nat.zero_add _)

/-- Without bad lines there are no more strikes. -/
theorem strikes_append_le {more : List (Instant × Call)} (hnone : ∀ e ∈ more, e.2 ≠ .malformed ip) :
    strikes ip (log ++ more) ≤ strikes ip log := by
  induction more using List.reverseRecOn with
  | nil => rw [List.append_nil]
  | append_singleton more e ih =>
      have ih := ih fun d hd => hnone d (List.mem_append_left _ hd)
      have hlast : e.2 ≠ .malformed ip := hnone e (List.mem_append_right _ List.mem_cons_self)
      rw [← List.append_assoc, strikes_concat, if_neg hlast]
      split
      · exact Nat.zero_le _
      · exact ih

/-- A bad line that leads to a ban leaves no strikes, its own included. -/
theorem strikes_bar (ip : Ip) (log : List (Instant × Call)) (now : Instant) :
    strikes ip (log ++ [.malformed ip, .ban ip, .release ip].map fun c => (now, c)) = 0 := by
  have hbanned := strikes_concat ip (log ++ [(now, .malformed ip)]) (now, .ban ip)
  rw [if_pos rfl] at hbanned
  have hreleased : strikes ip (log ++ [(now, .malformed ip)] ++ [(now, .ban ip)] ++ [(now, .release ip)]) ≤ 0 :=
    hbanned ▸ strikes_append_le (by simp)
  rw [List.append_assoc, List.append_assoc] at hreleased
  exact Nat.le_zero.mp hreleased

/-- What is held against an address are the bad lines since its last ban, and none as long as a ban is on its record. -/
structure Tracks (ip : Ip) (log : List (Instant × Call)) (a : Admission) : Prop where
  malformed : (a.record ip).malformed = strikes ip log
  banned : (a.record ip).bannedUntil ≠ none → strikes ip log = 0

theorem tracks_fresh (limits : Settings.Limits) (ip : Ip) : Tracks ip [] (fresh limits) :=
  ⟨rfl, fun hne => absurd rfl hne⟩

/-- **Each call keeps count**, unless it is a sweep or a bad line while a ban is on the record. -/
theorem Tracks.call {limits : Settings.Limits} (hb : Binds limits ip a) (h : Tracks ip log a) (hswept : c ≠ .sweep)
    (hfree : c = .malformed ip → (a.record ip).bannedUntil = none) :
    Tracks ip (log ++ [(now, c)]) (a.call now c) := by
  have hstrikes := strikes_concat ip log (now, c)
  cases haccuses : c.accuses ip with
  | true =>
      rcases cases_of_accuses haccuses with rfl | rfl | ⟨accepted, rfl⟩
      · rw [if_pos rfl] at hstrikes
        exact ⟨(congrArg Record.malformed (record_ban_self hb.applies now)).trans hstrikes.symm, fun _ => hstrikes⟩
      · have hnone := hfree rfl
        rw [if_neg (by simp), if_pos rfl, ← h.malformed] at hstrikes
        refine ⟨(congrArg Record.malformed (record_recordMalformed hb.applies)).trans hstrikes.symm, fun hsome => ?_⟩
        exact absurd ((notes_recordMalformed a ip).bannedUntil.trans hnone) hsome
      · rw [if_neg (by simp), if_neg (by simp), Nat.add_zero] at hstrikes
        refine ⟨(malformed_recordShare a ip accepted).trans (h.malformed.trans hstrikes.symm), fun hsome => ?_⟩
        rw [hstrikes]
        exact h.banned fun hnone => hsome ((notes_recordShare a ip accepted).bannedUntil.trans hnone)
  | false =>
      obtain ⟨hline, hban⟩ := ne_of_not_accuses haccuses
      rw [if_neg hban, if_neg hline, Nat.add_zero] at hstrikes
      have hlifts : (a.record ip).Lifts now ((a.call now c).record ip) := lifts_call hswept haccuses
      rcases hlifts with hsame | ⟨⟨deadline, hdeadline, _⟩, hblank⟩
      · refine ⟨(Record.malformed_of_offences hsame).trans (h.malformed.trans hstrikes.symm), fun hsome => ?_⟩
        rw [hstrikes]
        exact h.banned fun hnone => hsome ((Record.bannedUntil_of_offences hsame).trans hnone)
      · -- a ban that was lifted had left no strikes behind
        have hzero : strikes ip log = 0 := h.banned (by rw [hdeadline]; exact Option.some_ne_none deadline)
        have hnothing : ((a.call now c).record ip).malformed = 0 :=
          Record.malformed_of_offences (r := .blank) hblank
        exact ⟨hnothing.trans (hstrikes.trans hzero).symm, fun _ => hstrikes.trans hzero⟩

theorem Tracks.calls {limits : Settings.Limits} (hb : Binds limits ip a) (h : Tracks ip log a) {cs : List Call}
    (hswept : .sweep ∉ cs) (hlines : .malformed ip ∉ cs) :
    Tracks ip (log ++ cs.map fun c => (now, c)) (a.calls now cs) := by
  induction cs generalizing a log with
  | nil => rwa [List.map_nil, List.append_nil]
  | cons c cs ih =>
      rw [List.mem_cons, not_or] at hswept hlines
      have hfirst : Tracks ip (log ++ [(now, c)]) (a.call now c) :=
        h.call hb (Ne.symm hswept.1) fun hline => absurd hline.symm hlines.1
      have hrest := ih (hb.call now c) hfirst hswept.2 hlines.2
      rwa [List.append_assoc] at hrest

end Admission
end MiningPool

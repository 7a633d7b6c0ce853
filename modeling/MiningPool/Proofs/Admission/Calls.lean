import MiningPool.Proofs.Admission

/-!
# What is held against an address

All that happens to admission is a `Call` at some instant. Of the calls about an address, two add to its offences
and one bans it. The others leave what is held against it as it is, or forget all of it while no ban runs (`Fades`);
so does a sweep, and calls about other addresses do not even do that. A ban therefore stays until its deadline
whatever calls are made, unless it is replaced by a new ban.
-/

namespace MiningPool

open Net

namespace Record

/-! ## One record -/

/-- What is held against an address, whoever of it is connected. -/
def offences (r : Record) : Record := { r with connections := 0 }

/-- The offences stay as they are, or all are forgotten while no ban runs. -/
def Fades (now : Instant) (r r' : Record) : Prop :=
  r'.offences = r.offences ∨ (r.isBanned now = false ∧ r'.offences = blank)

variable {now : Instant} {r r' r'' : Record}

theorem bannedUntil_of_offences (h : r'.offences = r.offences) : r'.bannedUntil = r.bannedUntil := by
  have hban : r'.offences.bannedUntil = r.offences.bannedUntil := by rw [h]
  exact hban

theorem isBanned_of_offences (h : r'.offences = r.offences) : r'.isBanned now = r.isBanned now := by
  rw [isBanned, isBanned, bannedUntil_of_offences h]

theorem isBanned_eq_true {deadline : Instant} (h : r.bannedUntil = some deadline) (hlt : now < deadline) :
    r.isBanned now = true := by
  rw [isBanned, h]
  exact decide_eq_true hlt

theorem Fades.refl (now : Instant) (r : Record) : r.Fades now r := Or.inl rfl

theorem Fades.trans (h : r.Fades now r') (h' : r'.Fades now r'') : r.Fades now r'' := by
  rcases h with hsame | ⟨hfree, hblank⟩
  · rcases h' with hsame' | ⟨hfree', hblank'⟩
    · exact Or.inl (hsame'.trans hsame)
    · exact Or.inr ⟨(isBanned_of_offences hsame).symm.trans hfree', hblank'⟩
  · rcases h' with hsame' | ⟨_, hblank'⟩
    · exact Or.inr ⟨hfree, hsame'.trans hblank⟩
    · exact Or.inr ⟨hfree, hblank'⟩

theorem fades_settle (now : Instant) (r : Record) : r.Fades now (r.settle now) := by
  unfold settle
  split
  · rename_i deadline hban
    split
    · exact .refl now r
    · rename_i hover
      refine Or.inr ⟨?_, rfl⟩
      rw [isBanned, hban]
      exact decide_eq_false hover
  · exact .refl now r

/-- Nothing is held against an address that does not matter, but for what may be forgotten. -/
theorem fades_blank (h : r.matters = false) (now : Instant) : r.Fades now blank := by
  rw [matters, Bool.or_eq_false_iff, Option.isSome_eq_false_iff, Option.isNone_iff_eq_none] at h
  refine Or.inr ⟨?_, rfl⟩
  rw [isBanned, h.2]
  rfl

theorem settle_blank (now : Instant) : blank.settle now = blank := rfl

/-- A ban that still runs is not settled. -/
theorem settle_of_isBanned (h : r.isBanned now = true) : r.settle now = r := by
  rw [isBanned] at h
  cases hban : r.bannedUntil with
  | none => rw [hban] at h; exact absurd h (by simp)
  | some deadline =>
      rw [hban] at h
      rw [settle, hban]
      exact if_pos (of_decide_eq_true h)

end Record

namespace Admission

/-! ## Calls -/

/-- Something that admission is asked or told. -/
inductive Call where
  | letIn (ip : Ip)
  | release (ip : Ip)
  | isBanned (ip : Ip)
  | ban (ip : Ip)
  | malformed (ip : Ip)
  | share (ip : Ip) (accepted : Bool)
  | sweep
  deriving DecidableEq, Repr

/-- What a call leaves. -/
def call (a : Admission) (now : Instant) : Call → Admission
  | .letIn ip => (a.letIn now ip).2
  | .release ip => a.release ip
  | .isBanned ip => (a.isBanned now ip).2
  | .ban ip => (a.ban now ip).2
  | .malformed ip => (a.recordMalformed ip).2
  | .share ip accepted => (a.recordShare ip accepted).2
  | .sweep => (a.sweep now).2

/-- What calls leave that are made at one instant, one after the other. -/
def calls (a : Admission) (now : Instant) (cs : List Call) : Admission := cs.foldl (fun a c => a.call now c) a

/-- The share of an address that a call tells of. -/
def Call.share? (ip : Ip) : Call → Option Bool
  | .share l accepted => if l = ip then some accepted else none
  | _ => none

/-- The shares of an address that calls tell of, in order. -/
def sharesOf (ip : Ip) (cs : List Call) : List Bool := cs.filterMap (Call.share? ip)

/-- What calls leave that are made one after the other, each at its own instant. -/
def replay (a : Admission) (log : List (Instant × Call)) : Admission := log.foldl (fun a e => a.call e.1 e.2) a

variable {a : Admission} {ip l : Ip} {now : Instant} {c : Call}

theorem replay_append (a : Admission) (log more : List (Instant × Call)) :
    a.replay (log ++ more) = (a.replay log).replay more := List.foldl_append

theorem replay_now (a : Admission) (now : Instant) (cs : List Call) :
    a.replay (cs.map fun c => (now, c)) = a.calls now cs := List.foldl_map

theorem sharesOf_append (ip : Ip) (cs ds : List Call) : sharesOf ip (cs ++ ds) = sharesOf ip cs ++ sharesOf ip ds :=
  List.filterMap_append

theorem limits_call (h : a.Distinct) (now : Instant) (c : Call) :
    (a.call now c).limits = a.limits ∧ (a.call now c).Distinct := by
  have hkeeps : ∀ {b : Admission}, a.Keeps b → b.limits = a.limits ∧ b.Distinct := fun hk => ⟨hk.limits, hk.distinct⟩
  cases c with
  | letIn ip =>
      rcases letIn_cases h now ip with ⟨_, hk⟩ | ⟨_, hadmits⟩
      · exact hkeeps hk
      · exact ⟨hadmits.limits, hadmits.distinct⟩
  | release ip => exact ⟨rfl, distinct_release h ip⟩
  | isBanned ip => exact hkeeps (keeps_isBanned h now ip)
  | ban ip => exact hkeeps (keeps_ban h now ip)
  | malformed ip => exact hkeeps (keeps_recordMalformed h ip)
  | share ip accepted => exact hkeeps (keeps_recordShare h ip accepted)
  | sweep => exact hkeeps (keeps_sweep h now)

theorem limits_calls (h : a.Distinct) (now : Instant) (cs : List Call) :
    (a.calls now cs).limits = a.limits ∧ (a.calls now cs).Distinct := by
  induction cs generalizing a with
  | nil => exact ⟨rfl, h⟩
  | cons c cs ih =>
      obtain ⟨hlimits, hdistinct⟩ := limits_call h now c
      obtain ⟨hrest, hdistinct'⟩ := ih hdistinct
      exact ⟨hrest.trans hlimits, hdistinct'⟩

theorem appliesTo_calls (h : a.Distinct) (now : Instant) (cs : List Call) (ip : Ip) :
    (a.calls now cs).appliesTo ip = a.appliesTo ip := appliesTo_congr (limits_calls h now cs).1 ip

/-! ## What a call does to a record -/

theorem record_modify_self (a : Admission) (ip : Ip) (f : Record → Record) :
    (a.modify ip f).record ip = f (a.record ip) := by
  rw [record, modify]
  dsimp only
  rw [Keyed.get?_update_self]
  rfl

theorem record_modify_of_ne (h : l ≠ ip) (f : Record → Record) : (a.modify ip f).record l = a.record l := by
  rw [record, modify]
  dsimp only
  rw [Keyed.get?_update_of_ne a.records h]
  rfl

/-- Changes of what is remembered make nothing of an address of which nothing is. -/
theorem record_change (a : Admission) (ip l : Ip) {f : Record → Record} (hf : f .blank = .blank) :
    record { a with records := Keyed.change a.records ip f } l
      = if l = ip then f (a.record ip) else a.record l := by
  rw [record]
  dsimp only
  split
  · rename_i hl
    subst hl
    rw [Keyed.get?_change_self, record]
    cases a.records.get? l with
    | none => exact hf.symm
    | some r => rfl
  · rename_i hl
    rw [Keyed.get?_change_of_ne a.records hl]
    rfl

/-- Changes that fade, of one record. -/
theorem fades_modify {f : Record → Record} (hf : ∀ r : Record, r.Fades now (f r)) (ip l : Ip) :
    (a.record l).Fades now ((a.modify ip f).record l) := by
  by_cases hl : l = ip
  · subst hl
    rw [record_modify_self]
    exact hf _
  · rw [record_modify_of_ne hl]
    exact .refl now _

theorem fades_letIn (a : Admission) (now : Instant) (ip l : Ip) :
    (a.record l).Fades now ((a.letIn now ip).2.record l) := by
  unfold letIn
  have hsettled : (a.record l).Fades now ((a.modify ip (·.settle now)).record l) :=
    fades_modify (fun r => r.fades_settle now) ip l
  split
  · exact .refl now _
  · dsimp only
    split
    · exact hsettled
    · split
      · exact hsettled
      · exact hsettled.trans (fades_modify (fun _ => Or.inl (by rfl)) ip l)

theorem fades_release (a : Admission) (now : Instant) (ip l : Ip) :
    (a.record l).Fades now ((a.release ip).record l) := by
  rw [release, record_change a ip l rfl]
  split
  · rename_i hl
    subst hl
    exact Or.inl rfl
  · exact .refl now _

theorem fades_isBanned (a : Admission) (now : Instant) (ip l : Ip) :
    (a.record l).Fades now ((a.isBanned now ip).2.record l) := by
  unfold isBanned
  split
  · exact .refl now _
  · dsimp only
    rw [record_change a ip l (Record.settle_blank now)]
    split
    · rename_i hl
      subst hl
      exact Record.fades_settle now _
    · exact .refl now _

/-- A sweep treats each record by itself. -/
theorem found_sweep (h : a.Distinct) (now : Instant) (l : Ip) :
    (a.sweep now).2.records.get? l = ((a.records.get? l).map (·.settle now)).filter (·.matters) := by
  let settled : Keyed Ip Record := a.records.map fun e => (e.1, e.2.settle now)
  have hdistinct : (settled.map (·.1)).Nodup := by
    have hkeys : settled.map (·.1) = a.records.map (·.1) := by
      rw [List.map_map]
      rfl
    rw [hkeys]
    exact h
  have hget : settled.get? l = (a.records.get? l).map (·.settle now) :=
    Keyed.get?_map a.records l fun r => r.settle now
  show Keyed.get? (settled.filter (·.2.matters)) l = _
  rw [Keyed.get?_filter hdistinct, hget]

theorem fades_sweep (h : a.Distinct) (now : Instant) (l : Ip) :
    (a.record l).Fades now ((a.sweep now).2.record l) := by
  rw [record, record, found_sweep h]
  cases a.records.get? l with
  | none => exact .refl now _
  | some r =>
      rw [Option.map_some, Option.filter_some, Option.getD_some]
      have hsettled := r.fades_settle now
      split
      · exact hsettled
      · rename_i hm
        exact hsettled.trans (Record.fades_blank (Bool.not_eq_true _ ▸ hm) now)

/-- An address that cannot be banned is left alone. -/
theorem eq_of_ban_false {b : Admission} (h : a.ban now ip = (false, b)) : b = a := by
  unfold ban at h
  split at h
  · exact (congrArg Prod.snd h).symm
  · simp at h

theorem record_ban (happlies : a.appliesTo ip = true) (now : Instant) :
    (a.ban now ip).2 = a.modify ip fun r =>
      { r with bannedUntil := some (now + a.limits.banDuration), malformed := 0 } := by
  rw [ban, happlies]
  rfl

/-- A bad line or a share is held against its own address alone, and bans no one. -/
structure Notes (a : Admission) (ip : Ip) (b : Admission) : Prop where
  others : ∀ l, l ≠ ip → b.record l = a.record l
  bannedUntil : (b.record ip).bannedUntil = (a.record ip).bannedUntil

theorem Notes.refl (a : Admission) (ip : Ip) : Notes a ip a := ⟨fun _ _ => rfl, rfl⟩

theorem notes_modify (a : Admission) (ip : Ip) {f : Record → Record}
    (hf : ∀ r, (f r).bannedUntil = r.bannedUntil) : Notes a ip (a.modify ip f) where
  others := fun _ hl => record_modify_of_ne hl f
  bannedUntil := by rw [record_modify_self, hf]

theorem notes_recordMalformed (a : Admission) (ip : Ip) : Notes a ip (a.recordMalformed ip).2 := by
  unfold recordMalformed
  split
  · exact .refl a ip
  · exact notes_modify a ip fun _ => rfl

theorem notes_recordShare (a : Admission) (ip : Ip) (accepted : Bool) :
    Notes a ip (a.recordShare ip accepted).2 := by
  unfold recordShare
  split
  · exact .refl a ip
  · have hcounted : Notes a ip (a.modify ip fun r =>
        if accepted then { r with validShares := r.validShares + 1 }
        else { r with invalidShares := r.invalidShares + 1 }) := by
      refine notes_modify a ip fun r => ?_
      split
      · rfl
      · rfl
    dsimp only
    generalize (a.modify ip fun r => if accepted then _ else _) = b at hcounted ⊢
    split
    · exact hcounted
    · have hreset : Notes b ip (b.modify ip fun r => { r with validShares := 0, invalidShares := 0 }) :=
        notes_modify b ip fun _ => rfl
      exact ⟨fun l hl => (hreset.others l hl).trans (hcounted.others l hl),
        hreset.bannedUntil.trans hcounted.bannedUntil⟩

/-! ## Bans -/

theorem Notes.bannedUntil_eq {b : Admission} (h : Notes a ip b) (l : Ip) :
    (b.record l).bannedUntil = (a.record l).bannedUntil := by
  by_cases hl : l = ip
  · rw [hl]
    exact h.bannedUntil
  · rw [h.others l hl]

theorem bannedUntil_of_fades {r r' : Record} (h : r.Fades now r') :
    r'.bannedUntil = r.bannedUntil ∨ (r.isBanned now = false ∧ r'.bannedUntil = none) := by
  rcases h with hsame | ⟨hfree, hblank⟩
  · exact Or.inl (Record.bannedUntil_of_offences hsame)
  · exact Or.inr ⟨hfree, Record.bannedUntil_of_offences (r := .blank) hblank⟩

/-- **Only a ban of an address changes until when it is banned**, but for a ban that runs no more. -/
theorem bannedUntil_call (h : a.Distinct) (now : Instant) (hc : c = .ban ip → a.appliesTo ip = false) :
    ((a.call now c).record ip).bannedUntil = (a.record ip).bannedUntil
      ∨ ((a.record ip).isBanned now = false ∧ ((a.call now c).record ip).bannedUntil = none) := by
  cases c with
  | letIn l => exact bannedUntil_of_fades (fades_letIn a now l ip)
  | release l => exact bannedUntil_of_fades (fades_release a now l ip)
  | isBanned l => exact bannedUntil_of_fades (fades_isBanned a now l ip)
  | ban l =>
      refine Or.inl (congrArg Record.bannedUntil ?_)
      show ((a.ban now l).2.record ip) = a.record ip
      unfold ban
      split
      · rfl
      · rename_i happlies
        refine record_modify_of_ne (fun he => happlies ?_) _
        rw [← he, hc (by rw [he])]
        rfl
  | malformed l => exact Or.inl ((notes_recordMalformed a l).bannedUntil_eq ip)
  | share l accepted => exact Or.inl ((notes_recordShare a l accepted).bannedUntil_eq ip)
  | sweep => exact bannedUntil_of_fades (fades_sweep h now ip)

/-- Nor do more calls change it, made at one instant. -/
theorem bannedUntil_calls (h : a.Distinct) (now : Instant) {cs : List Call}
    (hcs : .ban ip ∈ cs → a.appliesTo ip = false) :
    ((a.calls now cs).record ip).bannedUntil = (a.record ip).bannedUntil
      ∨ ((a.record ip).isBanned now = false ∧ ((a.calls now cs).record ip).bannedUntil = none) := by
  induction cs generalizing a with
  | nil => exact Or.inl rfl
  | cons c cs ih =>
      obtain ⟨hlimits, hdistinct⟩ := limits_call h now c
      have hrest := ih hdistinct fun hmem => by
        rw [appliesTo_congr hlimits]
        exact hcs (List.mem_cons_of_mem c hmem)
      have hfirst : c = .ban ip → a.appliesTo ip = false := fun hc => hcs (hc ▸ List.mem_cons_self)
      rcases bannedUntil_call h now hfirst with hsame | ⟨hfree, hnone⟩
      · rcases hrest with hsame' | ⟨hfree', hnone'⟩
        · exact Or.inl (hsame'.trans hsame)
        · rw [Record.isBanned, hsame] at hfree'
          exact Or.inr ⟨hfree', hnone'⟩
      · rcases hrest with hsame' | ⟨_, hnone'⟩
        · exact Or.inr ⟨hfree, hsame'.trans hnone⟩
        · exact Or.inr ⟨hfree, hnone'⟩

theorem bannedUntil_ban (happlies : a.appliesTo ip = true) (now : Instant) :
    ((a.ban now ip).2.record ip).bannedUntil = some (now + a.limits.banDuration) := by
  rw [record_ban happlies, record_modify_self]

/-- **Nobody is let in from an address that is banned.** -/
theorem letIn_of_isBanned (happlies : a.appliesTo ip = true) (h : (a.record ip).isBanned now = true) :
    (a.letIn now ip).1 = .banned := by
  have hsome : ((a.modify ip (·.settle now)).record ip).bannedUntil.isSome = true := by
    rw [record_modify_self, Record.settle_of_isBanned h]
    rw [Record.isBanned] at h
    cases hban : (a.record ip).bannedUntil with
    | none => rw [hban] at h; exact absurd h (by simp)
    | some deadline => rfl
  rw [letIn, happlies]
  dsimp only [Bool.not_true]
  rw [if_neg (by simp), if_pos hsome]

/-- An address has limits and is banned, to some instant at least. -/
def Bars (a : Admission) (ip : Ip) (deadline : Instant) : Prop :=
  a.appliesTo ip = true ∧ ∃ d, (a.record ip).bannedUntil = some d ∧ deadline ≤ d

theorem bars_ban (happlies : a.appliesTo ip = true) (h : a.Distinct) (now : Instant) :
    (a.ban now ip).2.Bars ip (now + a.limits.banDuration) := by
  have hlimits : (a.ban now ip).2.limits = a.limits := (limits_call h now (.ban ip)).1
  exact ⟨(appliesTo_congr hlimits ip).trans happlies, _, bannedUntil_ban happlies now, Nat.le_refl _⟩

/-- **A ban stays until its deadline, whatever calls are made.** -/
theorem Bars.call {deadline : Instant} (h : a.Bars ip deadline) (hd : a.Distinct) (hnow : now < deadline)
    (hlater : deadline ≤ now + a.limits.banDuration) (c : Call) : (a.call now c).Bars ip deadline := by
  obtain ⟨happlies, d, hban, hle⟩ := h
  refine ⟨(appliesTo_congr (limits_call hd now c).1 ip).trans happlies, ?_⟩
  by_cases hc : c = .ban ip
  · subst hc
    exact ⟨_, bannedUntil_ban happlies now, hlater⟩
  · have hrunning : (a.record ip).isBanned now = true :=
      Record.isBanned_eq_true hban (Nat.lt_of_lt_of_le hnow hle)
    rcases bannedUntil_call hd now fun he => absurd he hc with hsame | ⟨hfree, _⟩
    · exact ⟨d, hsame.trans hban, hle⟩
    · exact absurd (hrunning.symm.trans hfree) (by simp)

end Admission
end MiningPool

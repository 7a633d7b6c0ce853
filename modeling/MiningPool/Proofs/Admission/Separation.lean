import MiningPool.Proofs.Admission.Calls

/-!
# Addresses do not notice one another

Admission keeps one record of each address, and a call for an address neither looks at nor changes the record of
another. Only a sweep goes over all records, and it treats each by itself. So two admissions that hold the same of an
address (`Agree`) go on doing so, whatever they are asked for others, and what an address is answered is what it would
be answered if all calls for others were left out (`alone`).

An address without limits is never remembered, and waved through each time.
-/

namespace MiningPool

open Net

namespace Admission

/-! ## Answers -/

/-- What a call is answered. -/
inductive Answer where
  | entrance (e : Entrance)
  /-- Whether an address is banned, or can be. -/
  | flag (yes : Bool)
  | verdict (v : Verdict)
  /-- How many bans were lifted. -/
  | lifted (n : Nat)
  | nothing
  deriving DecidableEq, Repr

def answer (a : Admission) (now : Instant) : Call → Answer
  | .letIn ip => .entrance (a.letIn now ip).1
  | .release _ => .nothing
  | .isBanned ip => .flag (a.isBanned now ip).1
  | .ban ip => .flag (a.ban now ip).1
  | .malformed ip => .verdict (a.recordMalformed ip).1
  | .share ip accepted => .verdict (a.recordShare ip accepted).1
  | .sweep => .lifted (a.sweep now).1

/-- The address that a call is for. A sweep is for none in particular. -/
def Call.ip? : Call → Option Ip
  | .letIn ip | .release ip | .isBanned ip | .ban ip | .malformed ip | .share ip _ => some ip
  | .sweep => none

/-- What the calls for an address are answered, when calls are made one after the other, each at its own instant. -/
def answersTo (ip : Ip) (a : Admission) : List (Instant × Call) → List Answer
  | [] => []
  | (now, c) :: log =>
    (if c.ip? = some ip then [a.answer now c] else []) ++ answersTo ip (a.call now c) log

/-- What is left of a log when all calls for other addresses are taken out. Sweeps stay, and so do the instants. -/
def alone (ip : Ip) (log : List (Instant × Call)) : List (Instant × Call) :=
  log.filter fun e => e.2.ip?.all (· = ip)

/-- The answer to a call for an address without limits. -/
def Call.waved : Call → Answer
  | .letIn _ => .entrance .admitted
  | .isBanned _ | .ban _ => .flag false
  | .malformed _ | .share _ _ => .verdict .allowed
  | .release _ | .sweep => .nothing

/-! ## What is remembered of one address -/

variable {a b c : Admission} {ip l : Ip} {now : Instant} {call : Call}

theorem found_modify_self (a : Admission) (ip : Ip) (f : Record → Record) :
    (a.modify ip f).records.get? ip = some (f (a.record ip)) := Keyed.get?_update_self a.records ip .blank f

theorem found_modify_of_ne (h : l ≠ ip) (f : Record → Record) :
    (a.modify ip f).records.get? l = a.records.get? l := Keyed.get?_update_of_ne a.records h .blank f

/-- Two admissions have the same limits and remember the same of an address. -/
structure Agree (ip : Ip) (a b : Admission) : Prop where
  limits : b.limits = a.limits
  found : b.records.get? ip = a.records.get? ip

namespace Agree

theorem refl (ip : Ip) (a : Admission) : Agree ip a a := ⟨rfl, rfl⟩

theorem symm (h : Agree ip a b) : Agree ip b a := ⟨h.limits.symm, h.found.symm⟩

theorem trans (h : Agree ip a b) (h' : Agree ip b c) : Agree ip a c :=
  ⟨h'.limits.trans h.limits, h'.found.trans h.found⟩

theorem record (h : Agree ip a b) : b.record ip = a.record ip := by
  rw [Admission.record, Admission.record, h.found]

theorem connectionsFrom (h : Agree ip a b) : b.connectionsFrom ip = a.connectionsFrom ip :=
  congrArg Record.connections h.record

theorem modify (h : Agree ip a b) (f : Record → Record) : Agree ip (a.modify ip f) (b.modify ip f) where
  limits := h.limits
  found := by rw [found_modify_self, found_modify_self, h.record]

theorem change (h : Agree ip a b) (f : Record → Record) :
    Agree ip { a with records := Keyed.change a.records ip f } { b with records := Keyed.change b.records ip f } where
  limits := h.limits
  found := by
    dsimp only
    rw [Keyed.get?_change_self, Keyed.get?_change_self, h.found]

end Agree

theorem agree_modify_of_ne (a : Admission) (h : ip ≠ l) (f : Record → Record) : Agree ip a (a.modify l f) :=
  ⟨rfl, found_modify_of_ne h f⟩

theorem agree_change_of_ne (a : Admission) (h : ip ≠ l) (f : Record → Record) :
    Agree ip a { a with records := Keyed.change a.records l f } :=
  ⟨rfl, Keyed.get?_change_of_ne a.records h f⟩

/-! ## Calls for the address itself -/

section Own

variable (h : Agree ip a b)
include h

theorem agree_letIn (now : Instant) :
    (b.letIn now ip).1 = (a.letIn now ip).1 ∧ Agree ip (a.letIn now ip).2 (b.letIn now ip).2 := by
  unfold letIn
  rw [appliesTo_congr h.limits]
  split
  · exact ⟨rfl, h⟩
  · have hsettled := h.modify (·.settle now)
    dsimp only
    rw [hsettled.record, hsettled.limits]
    split
    · exact ⟨rfl, hsettled⟩
    · split
      · exact ⟨rfl, hsettled⟩
      · exact ⟨rfl, hsettled.modify _⟩

theorem agree_isBanned (now : Instant) :
    (b.isBanned now ip).1 = (a.isBanned now ip).1 ∧ Agree ip (a.isBanned now ip).2 (b.isBanned now ip).2 := by
  unfold isBanned
  rw [appliesTo_congr h.limits]
  split
  · exact ⟨rfl, h⟩
  · have hsettled := h.change (·.settle now)
    dsimp only
    rw [hsettled.record]
    exact ⟨rfl, hsettled⟩

theorem agree_ban (now : Instant) :
    (b.ban now ip).1 = (a.ban now ip).1 ∧ Agree ip (a.ban now ip).2 (b.ban now ip).2 := by
  unfold ban
  rw [appliesTo_congr h.limits, h.limits]
  split
  · exact ⟨rfl, h⟩
  · exact ⟨rfl, h.modify _⟩

theorem agree_recordMalformed :
    (b.recordMalformed ip).1 = (a.recordMalformed ip).1
      ∧ Agree ip (a.recordMalformed ip).2 (b.recordMalformed ip).2 := by
  unfold recordMalformed
  rw [appliesTo_congr h.limits]
  split
  · exact ⟨rfl, h⟩
  · have hcounted := h.modify fun r => { r with malformed := r.malformed + 1 }
    dsimp only
    rw [hcounted.record, hcounted.limits]
    exact ⟨rfl, hcounted⟩

theorem agree_recordShare (accepted : Bool) :
    (b.recordShare ip accepted).1 = (a.recordShare ip accepted).1
      ∧ Agree ip (a.recordShare ip accepted).2 (b.recordShare ip accepted).2 := by
  unfold recordShare
  rw [appliesTo_congr h.limits]
  split
  · exact ⟨rfl, h⟩
  · have hcounted := h.modify fun r =>
      if accepted then { r with validShares := r.validShares + 1 }
      else { r with invalidShares := r.invalidShares + 1 }
    dsimp only
    generalize (a.modify ip fun r => if accepted then _ else _) = a' at hcounted ⊢
    generalize (b.modify ip fun r => if accepted then _ else _) = b' at hcounted ⊢
    rw [hcounted.record, hcounted.limits]
    split
    · exact ⟨rfl, hcounted⟩
    · exact ⟨rfl, hcounted.modify _⟩

/-- **Who holds the same of an address answers it the same**, and holds the same of it afterwards. -/
theorem agree_call_own (hip : call.ip? = some ip) (now : Instant) :
    b.answer now call = a.answer now call ∧ Agree ip (a.call now call) (b.call now call) := by
  cases call with
  | letIn l =>
      obtain rfl := Option.some.inj hip
      exact ⟨congrArg Answer.entrance (agree_letIn h now).1, (agree_letIn h now).2⟩
  | release l =>
      obtain rfl := Option.some.inj hip
      exact ⟨rfl, h.change _⟩
  | isBanned l =>
      obtain rfl := Option.some.inj hip
      exact ⟨congrArg Answer.flag (agree_isBanned h now).1, (agree_isBanned h now).2⟩
  | ban l =>
      obtain rfl := Option.some.inj hip
      exact ⟨congrArg Answer.flag (agree_ban h now).1, (agree_ban h now).2⟩
  | malformed l =>
      obtain rfl := Option.some.inj hip
      exact ⟨congrArg Answer.verdict (agree_recordMalformed h).1, (agree_recordMalformed h).2⟩
  | share l accepted =>
      obtain rfl := Option.some.inj hip
      exact ⟨congrArg Answer.verdict (agree_recordShare h accepted).1, (agree_recordShare h accepted).2⟩
  | sweep => exact absurd hip (by simp [Call.ip?])

end Own

/-! ## Calls for others -/

/-- **A call for another address leaves what is remembered of this one.** -/
theorem agree_call_other (a : Admission) (hip : call.ip? = some l) (hne : ip ≠ l) (now : Instant) :
    Agree ip a (a.call now call) := by
  cases call with
  | letIn k =>
      obtain rfl := Option.some.inj hip
      rw [Admission.call]
      unfold letIn
      have hsettled := agree_modify_of_ne a hne (·.settle now)
      split
      · exact .refl ip a
      · dsimp only
        split
        · exact hsettled
        · split
          · exact hsettled
          · exact hsettled.trans (agree_modify_of_ne _ hne _)
  | release k =>
      obtain rfl := Option.some.inj hip
      exact agree_change_of_ne a hne _
  | isBanned k =>
      obtain rfl := Option.some.inj hip
      rw [Admission.call]
      unfold isBanned
      split
      · exact .refl ip a
      · exact agree_change_of_ne a hne _
  | ban k =>
      obtain rfl := Option.some.inj hip
      rw [Admission.call]
      unfold ban
      split
      · exact .refl ip a
      · exact agree_modify_of_ne a hne _
  | malformed k =>
      obtain rfl := Option.some.inj hip
      rw [Admission.call]
      unfold recordMalformed
      split
      · exact .refl ip a
      · exact agree_modify_of_ne a hne _
  | share k accepted =>
      obtain rfl := Option.some.inj hip
      rw [Admission.call]
      unfold recordShare
      have hcounted := agree_modify_of_ne a hne fun r =>
        if accepted then { r with validShares := r.validShares + 1 }
        else { r with invalidShares := r.invalidShares + 1 }
      split
      · exact .refl ip a
      · dsimp only
        generalize (a.modify k fun r => if accepted then _ else _) = a' at hcounted ⊢
        split
        · exact hcounted
        · exact hcounted.trans (agree_modify_of_ne a' hne _)
  | sweep => exact absurd hip (by simp [Call.ip?])

theorem agree_calls_other (hne : ip ≠ l) (now : Instant) {cs : List Call} (hcs : ∀ call ∈ cs, call.ip? = some l)
    (a : Admission) : Agree ip a (a.calls now cs) := by
  induction cs generalizing a with
  | nil => exact .refl ip a
  | cons call cs ih =>
      exact (agree_call_other a (hcs call List.mem_cons_self) hne now).trans
        (ih (fun d hd => hcs d (List.mem_cons_of_mem call hd)) _)

/-! ## Whole logs -/

theorem agree_sweep (h : Agree ip a b) (ha : a.Distinct) (hb : b.Distinct) (now : Instant) :
    Agree ip (a.sweep now).2 (b.sweep now).2 where
  limits := h.limits
  found := by rw [found_sweep ha, found_sweep hb, h.found]

/-- **Leaving out the calls for others changes no answer**, nor what is remembered in the end. -/
theorem agree_alone (log : List (Instant × Call)) : ∀ {a b : Admission}, Agree ip a b → a.Distinct → b.Distinct →
    b.answersTo ip (alone ip log) = a.answersTo ip log ∧ Agree ip (a.replay log) (b.replay (alone ip log)) := by
  induction log with
  | nil => exact fun h _ _ => ⟨rfl, h⟩
  | cons e log ih =>
      intro a b h ha hb
      obtain ⟨now, call⟩ := e
      have ha' := (limits_call ha now call).2
      have hb' := (limits_call hb now call).2
      cases hip : call.ip? with
      | none =>
          -- only a sweep is for no address, and it stays
          have hkept : alone ip ((now, call) :: log) = (now, call) :: alone ip log :=
            List.filter_cons_of_pos (by rw [hip]; rfl)
          have hswept : Agree ip (a.call now call) (b.call now call) := by
            cases call with
            | sweep => exact agree_sweep h ha hb now
            | _ => exact absurd hip (by simp [Call.ip?])
          obtain ⟨hanswers, hrest⟩ := ih hswept ha' hb'
          rw [hkept, answersTo, answersTo, hip, hanswers]
          exact ⟨rfl, hrest⟩
      | some l =>
          by_cases hl : l = ip
          · subst hl
            have hkept : alone l ((now, call) :: log) = (now, call) :: alone l log :=
              List.filter_cons_of_pos (by rw [hip]; simp)
            obtain ⟨hanswer, hcalled⟩ := agree_call_own h hip now
            obtain ⟨hanswers, hrest⟩ := ih hcalled ha' hb'
            rw [hkept, answersTo, answersTo, hip, hanswers, hanswer]
            exact ⟨rfl, hrest⟩
          · have hdropped : alone ip ((now, call) :: log) = alone ip log :=
              List.filter_cons_of_neg (by rw [hip]; simpa using hl)
            have hother : Agree ip (a.call now call) b :=
              (agree_call_other a hip (Ne.symm hl) now).symm.trans h
            obtain ⟨hanswers, hrest⟩ := ih hother ha' hb
            rw [hdropped, answersTo, hip, if_neg (fun he => hl (Option.some.inj he)), hanswers]
            exact ⟨rfl, hrest⟩

/-! ## Addresses without limits -/

/-- An address without limits is waved through, and a call for it changes nothing that is remembered. -/
theorem waved_call (hfree : a.appliesTo ip = false) (hip : call.ip? = some ip)
    (hnone : a.records.get? ip = none) (now : Instant) :
    a.answer now call = call.waved ∧ (a.call now call).records.get? ip = none := by
  have hno : (!a.appliesTo ip) = true := by rw [hfree]; rfl
  cases call with
  | letIn l =>
      obtain rfl := Option.some.inj hip
      rw [answer, Admission.call, letIn, if_pos hno]
      exact ⟨rfl, hnone⟩
  | release l =>
      obtain rfl := Option.some.inj hip
      refine ⟨rfl, ?_⟩
      show Keyed.get? (Keyed.change a.records l fun r => { r with connections := r.connections - 1 }) l = none
      rw [Keyed.get?_change_self, hnone]
      rfl
  | isBanned l =>
      obtain rfl := Option.some.inj hip
      rw [answer, Admission.call, isBanned, if_pos hno]
      exact ⟨rfl, hnone⟩
  | ban l =>
      obtain rfl := Option.some.inj hip
      rw [answer, Admission.call, ban, if_pos hno]
      exact ⟨rfl, hnone⟩
  | malformed l =>
      obtain rfl := Option.some.inj hip
      rw [answer, Admission.call, recordMalformed, if_pos hno]
      exact ⟨rfl, hnone⟩
  | share l accepted =>
      obtain rfl := Option.some.inj hip
      rw [answer, Admission.call, recordShare, if_pos hno]
      exact ⟨rfl, hnone⟩
  | sweep => exact absurd hip (by simp [Call.ip?])

/-- No call makes a record of an address without limits. -/
theorem unknown_call (h : a.Distinct) (hfree : a.appliesTo ip = false) (hnone : a.records.get? ip = none)
    (now : Instant) (call : Call) : (a.call now call).records.get? ip = none := by
  cases hip : call.ip? with
  | none =>
      cases call with
      | sweep =>
          show Keyed.get? (a.sweep now).2.records ip = none
          rw [found_sweep h, hnone]
          rfl
      | _ => exact absurd hip (by simp [Call.ip?])
  | some l =>
      by_cases hl : ip = l
      · subst hl
        exact (waved_call hfree hip hnone now).2
      · exact (agree_call_other a hip hl now).found.trans hnone

/-- **An address without limits is waved through each time, and never remembered.** -/
theorem waved_replay (log : List (Instant × Call)) : ∀ {a : Admission}, a.Distinct → a.appliesTo ip = false →
    a.records.get? ip = none →
      a.answersTo ip log = (log.filter fun e => e.2.ip? = some ip).map (·.2.waved)
        ∧ (a.replay log).records.get? ip = none := by
  induction log with
  | nil => exact fun _ _ hnone => ⟨rfl, hnone⟩
  | cons e log ih =>
      intro a h hfree hnone
      obtain ⟨now, call⟩ := e
      obtain ⟨hlimits, hdistinct⟩ := limits_call h now call
      obtain ⟨hanswers, hrest⟩ := ih hdistinct ((appliesTo_congr hlimits ip).trans hfree)
        (unknown_call h hfree hnone now call)
      rw [answersTo, hanswers]
      refine ⟨?_, hrest⟩
      by_cases hip : call.ip? = some ip
      · rw [if_pos hip, List.filter_cons_of_pos (by simpa using hip), (waved_call hfree hip hnone now).1]
        rfl
      · rw [if_neg hip, List.filter_cons_of_neg (by simpa using hip)]
        rfl

/-! ## The whole of it -/

/-- **Addresses do not influence one another.** Whatever calls are made in whatever order and at whatever instants, what
is answered to the calls for an address, and how many connections are counted for it in the end, is what it would be
had no call been made for any other address. The calls for an address without limits are waved through, whatever
came before, and it is never remembered. -/
theorem addresses_apart (limits : Settings.Limits) (log : List (Instant × Call)) (ip : Ip) :
    (fresh limits).answersTo ip log = (fresh limits).answersTo ip (alone ip log)
      ∧ ((fresh limits).replay log).connectionsFrom ip = ((fresh limits).replay (alone ip log)).connectionsFrom ip
      ∧ ((fresh limits).appliesTo ip = false →
        (fresh limits).answersTo ip log = (log.filter fun e => e.2.ip? = some ip).map (·.2.waved)
          ∧ ip ∉ ((fresh limits).replay log).records.map (·.1)) := by
  have hdistinct := distinct_fresh limits
  obtain ⟨hanswers, hagree⟩ := agree_alone log (.refl ip (fresh limits)) hdistinct hdistinct
  refine ⟨hanswers.symm, hagree.connectionsFrom.symm, fun hfree => ?_⟩
  obtain ⟨hwaved, hnone⟩ := waved_replay log hdistinct hfree rfl
  exact ⟨hwaved, Keyed.get?_eq_none_iff.mp hnone⟩

/-- A trusted address sends bad lines and is to be banned, amid the calls for another one that is banned for its own
line and let in again after the ban has run out and a sweep. -/
theorem addresses_apart_trusted :
    let limits : Settings.Limits := { Settings.Limits.standard with malformedLimit := 1, trusted := [.v4 1] }
    let log : List (Instant × Call) :=
      [(0, .letIn (.v4 2)), (0, .malformed (.v4 1)), (1, .malformed (.v4 2)), (1, .ban (.v4 2)), (2, .ban (.v4 1)),
        (2, .letIn (.v4 2)), (3, .isBanned (.v4 1)), (limits.banDuration + 1, .sweep),
        (limits.banDuration + 1, .letIn (.v4 2)), (limits.banDuration + 1, .letIn (.v4 1))]
    (fresh limits).appliesTo (.v4 1) = false
      ∧ (fresh limits).answersTo (.v4 1) log
        = [.verdict .allowed, .flag false, .flag false, .entrance .admitted]
      ∧ (fresh limits).answersTo (.v4 2) log
        = [.entrance .admitted, .verdict .banned, .flag true, .entrance .banned, .entrance .admitted] := by
  intro limits log
  have hfree : (fresh limits).appliesTo (.v4 1) = false := by decide
  refine ⟨hfree, ?_, ?_⟩
  · exact ((addresses_apart limits log (.v4 1)).2.2 hfree).1
  · rw [(addresses_apart limits log (.v4 2)).1]
    decide

end Admission
end MiningPool

import MiningPool.Admission
import MiningPool.Proofs.Keyed

/-!
# How many connections are counted

Only letting a connection in and letting it go changes how many are counted for an address. Everything else that
admission does leaves the counts alone (`Keeps`), forgetting included: an address is only forgotten when none of
its connections is open.
-/

namespace MiningPool

open Net

namespace Record

theorem settle_connections (r : Record) (now : Instant) : (r.settle now).connections = r.connections := by
  unfold settle
  split
  · split
    · rfl
    · rfl
  · rfl

/-- What does not matter counts no connection. -/
theorem connections_of_not_matters {r : Record} (h : r.matters = false) : r.connections = 0 := by
  rw [matters, Bool.or_eq_false_iff, decide_eq_false_iff_not] at h
  omega

end Record

namespace Admission

/-- No address is remembered twice. -/
def Distinct (a : Admission) : Prop := (a.records.map (·.1)).Nodup

theorem distinct_fresh (limits : Settings.Limits) : Distinct (fresh limits) := List.nodup_nil

/-- The counts stay as they are. -/
structure Keeps (a b : Admission) : Prop where
  limits : b.limits = a.limits
  distinct : b.Distinct
  connections : ∀ ip, b.connectionsFrom ip = a.connectionsFrom ip

variable {a b c : Admission} {ip : Ip} {now : Instant}

theorem Keeps.refl (h : a.Distinct) : Keeps a a := ⟨rfl, h, fun _ => rfl⟩

theorem Keeps.trans (h : Keeps a b) (h' : Keeps b c) : Keeps a c :=
  ⟨h'.limits.trans h.limits, h'.distinct, fun ip => (h'.connections ip).trans (h.connections ip)⟩

theorem appliesTo_congr (h : b.limits = a.limits) (ip : Ip) : b.appliesTo ip = a.appliesTo ip := by
  rw [appliesTo, appliesTo, h]

/-! ## One record -/

theorem connectionsFrom_modify_self (a : Admission) (ip : Ip) (f : Record → Record) :
    (a.modify ip f).connectionsFrom ip = (f (a.record ip)).connections := by
  rw [connectionsFrom, record, modify]
  dsimp only
  rw [Keyed.get?_update_self]
  rfl

theorem connectionsFrom_modify_of_ne {l : Ip} (h : l ≠ ip) (f : Record → Record) :
    (a.modify ip f).connectionsFrom l = a.connectionsFrom l := by
  rw [connectionsFrom, record, modify]
  dsimp only
  rw [Keyed.get?_update_of_ne a.records h]
  rfl

theorem distinct_modify (h : a.Distinct) (ip : Ip) (f : Record → Record) : (a.modify ip f).Distinct :=
  Keyed.nodup_update h ip .blank f

theorem keeps_modify (h : a.Distinct) (ip : Ip) {f : Record → Record}
    (hf : ∀ r, (f r).connections = r.connections) : Keeps a (a.modify ip f) := by
  refine ⟨rfl, distinct_modify h ip f, fun l => ?_⟩
  by_cases hl : l = ip
  · subst hl
    rw [connectionsFrom_modify_self, hf]
    rfl
  · exact connectionsFrom_modify_of_ne hl f

/-! ## What leaves the counts alone -/

theorem keeps_isBanned (h : a.Distinct) (now : Instant) (ip : Ip) : Keeps a (a.isBanned now ip).2 := by
  unfold isBanned
  split
  · exact .refl h
  · refine ⟨rfl, ?_, fun l => ?_⟩
    · rw [Distinct, Keyed.keys_change]
      exact h
    · rw [connectionsFrom, record]
      by_cases hl : l = ip
      · subst hl
        rw [Keyed.get?_change_self, connectionsFrom, record]
        cases a.records.get? l with
        | none => rfl
        | some r => exact r.settle_connections now
      · rw [Keyed.get?_change_of_ne a.records hl]
        rfl

theorem keeps_ban (h : a.Distinct) (now : Instant) (ip : Ip) : Keeps a (a.ban now ip).2 := by
  unfold ban
  split
  · exact .refl h
  · exact keeps_modify h ip fun _ => rfl

theorem keeps_recordMalformed (h : a.Distinct) (ip : Ip) : Keeps a (a.recordMalformed ip).2 := by
  unfold recordMalformed
  split
  · exact .refl h
  · exact keeps_modify h ip fun _ => rfl

theorem keeps_recordShare (h : a.Distinct) (ip : Ip) (accepted : Bool) :
    Keeps a (a.recordShare ip accepted).2 := by
  unfold recordShare
  split
  · exact .refl h
  · have hcounted : Keeps a (a.modify ip fun r =>
        if accepted then { r with validShares := r.validShares + 1 }
        else { r with invalidShares := r.invalidShares + 1 }) := by
      refine keeps_modify h ip fun r => ?_
      split
      · rfl
      · rfl
    dsimp only
    generalize (a.modify ip fun r => if accepted then _ else _) = b at hcounted ⊢
    split
    · exact hcounted
    · exact hcounted.trans (keeps_modify hcounted.distinct ip fun _ => rfl)

/-- **Forgetting addresses forgets no connection.** -/
theorem keeps_sweep (h : a.Distinct) (now : Instant) : Keeps a (a.sweep now).2 := by
  let settled : Keyed Ip Record := a.records.map fun e => (e.1, e.2.settle now)
  have hkeys : settled.map (·.1) = a.records.map (·.1) := by
    rw [List.map_map]
    rfl
  have hdistinct : (settled.map (·.1)).Nodup := by
    rw [hkeys]
    exact h
  refine ⟨rfl, hdistinct.sublist (List.filter_sublist.map _), fun ip => ?_⟩
  show ((Keyed.get? (settled.filter (·.2.matters)) ip).getD .blank).connections = _
  have hget : settled.get? ip = (a.records.get? ip).map (·.settle now) :=
    Keyed.get?_map a.records ip fun r => r.settle now
  rw [Keyed.get?_filter hdistinct, hget, connectionsFrom, record]
  cases a.records.get? ip with
  | none => rfl
  | some r =>
      rw [Option.map_some, Option.filter_some, Option.getD_some, ← r.settle_connections now]
      split
      · rfl
      · rename_i hm
        exact (Record.connections_of_not_matters (Bool.not_eq_true _ ▸ hm)).symm

/-! ## Coming and going -/

/-- **Letting a connection go counts one less for its address**, if any is counted. -/
theorem connectionsFrom_release (a : Admission) (ip l : Ip) :
    (a.release ip).connectionsFrom l = if l = ip then a.connectionsFrom l - 1 else a.connectionsFrom l := by
  rw [connectionsFrom, record, release]
  dsimp only
  split
  · rename_i hl
    subst hl
    rw [Keyed.get?_change_self, connectionsFrom, record]
    cases a.records.get? l with
    | none => rfl
    | some r => rfl
  · rename_i hl
    rw [Keyed.get?_change_of_ne a.records hl]
    rfl

theorem distinct_release (h : a.Distinct) (ip : Ip) : (a.release ip).Distinct := by
  rw [Distinct, release, Keyed.keys_change]
  exact h

/-- One more connection from an address is counted, if it has limits and has not reached them. -/
structure Admits (a : Admission) (ip : Ip) (b : Admission) : Prop where
  limits : b.limits = a.limits
  distinct : b.Distinct
  connections : ∀ l, b.connectionsFrom l = a.connectionsFrom l + if l = ip ∧ a.appliesTo ip = true then 1 else 0
  cap : a.appliesTo ip = true → a.connectionsFrom ip < a.limits.maxConnectionsPerIp

/-- **A connection that asks to be let in is counted, or it is refused and the counts stay as they are.** -/
theorem letIn_cases (h : a.Distinct) (now : Instant) (ip : Ip) :
    ((a.letIn now ip).1 ≠ .admitted ∧ Keeps a (a.letIn now ip).2)
      ∨ ((a.letIn now ip).1 = .admitted ∧ Admits a ip (a.letIn now ip).2) := by
  unfold letIn
  by_cases happlies : a.appliesTo ip = true
  case neg =>
    have hno : a.appliesTo ip = false := by simpa using happlies
    rw [if_pos (by rw [hno]; rfl)]
    refine Or.inr ⟨rfl, rfl, h, fun l => ?_, fun hyes => absurd hyes happlies⟩
    rw [if_neg fun hboth => happlies hboth.2]
    rfl
  rw [if_neg (by rw [happlies]; decide)]
  have hsettled : Keeps a (a.modify ip (·.settle now)) := keeps_modify h ip fun r => r.settle_connections now
  dsimp only
  split
  · exact Or.inl ⟨(fun he => by cases he), hsettled⟩
  · split
    · exact Or.inl ⟨(fun he => by cases he), hsettled⟩
    · rename_i hcap
      refine Or.inr ⟨rfl, rfl, distinct_modify hsettled.distinct ip _, fun l => ?_, fun _ => ?_⟩
      · rw [← hsettled.connections l]
        by_cases hl : l = ip
        · subst hl
          rw [if_pos ⟨rfl, happlies⟩, connectionsFrom_modify_self]
          rfl
        · rw [if_neg fun hboth => hl hboth.1, connectionsFrom_modify_of_ne hl]
          rfl
      · exact Nat.lt_of_le_of_lt (Nat.le_of_eq (hsettled.connections ip).symm) (Nat.not_le.mp hcap)

/-- A connection that was counted and is let go again is counted no more. -/
theorem Admits.release (h : Admits a ip b) (hnone : a.appliesTo ip = false → a.connectionsFrom ip = 0) :
    Keeps a (b.release ip) := by
  refine ⟨h.limits, distinct_release h.distinct ip, fun l => ?_⟩
  rw [connectionsFrom_release, h.connections l]
  by_cases hl : l = ip
  · subst hl
    rw [if_pos rfl]
    cases happlies : a.appliesTo l with
    | true => rw [if_pos ⟨rfl, rfl⟩, Nat.add_sub_cancel]
    | false =>
        rw [if_neg (by simp), hnone happlies]
  · rw [if_neg hl, if_neg fun hboth => hl hboth.1, Nat.add_zero]

end Admission
end MiningPool

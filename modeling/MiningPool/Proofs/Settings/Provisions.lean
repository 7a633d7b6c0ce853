import MiningPool.Proofs.Settings.Startup
import MiningPool.Proofs.World.Moves
import MiningPool.Setup

/-!
# Settings that can be set up

A check looks for what is zero, and so for every timer without a period, be it for broadcasting or for looking at bans
(`periods_pos`). It does not look for what is too much. So settings that make sense can be set up just if the jobs
to remember fit one piece of memory and the clients can be counted, and a file may ask for more than that.
-/

namespace MiningPool

open Decimal

namespace Settings

variable {s : Settings}

/-! ## Timers -/

/-- What would be wrong if it were zero is not. -/
theorem pos_of_flaw {n : Nat} {flaw : Flaw} (h : s.Sound) (hflaw : (n == 0, flaw) ∈ s.flaws) : 0 < n := by
  have hnone : (n == 0) = false := sound_iff.mp h (n == 0, flaw) hflaw
  exact Nat.pos_of_ne_zero (beq_eq_false_iff_ne.mp hnone)

theorem broadcastInterval_pos (h : s.Sound) : 0 < s.mining.broadcastInterval := by
  have hflaw : (s.mining.broadcastInterval == 0, Flaw.noBroadcastInterval) ∈ s.flaws := by simp [flaws, Mining.flaws]
  exact pos_of_flaw h hflaw

theorem resetInterval_pos (h : s.Sound) (henabled : s.policy.enabled = true) : 0 < s.policy.resetInterval := by
  -- one flaw stands for two spans
  have hflaw : (s.policy.banDuration == 0 || s.policy.resetInterval == 0, Flaw.noBanTime) ∈ s.flaws := by
    simp [flaws, Limits.flaws, henabled]
  have hnone : (s.policy.banDuration == 0 || s.policy.resetInterval == 0) = false := sound_iff.mp h _ hflaw
  exact Nat.pos_of_ne_zero (beq_eq_false_iff_ne.mp (Bool.or_eq_false_iff.mp hnone).2)

/-- **Every timer that is called for has a period.** -/
theorem periods_pos (h : s.Sound) : ∀ period ∈ s.periods, 0 < period := by
  intro period hthere
  rcases List.mem_cons.mp hthere with rfl | hthere
  · exact broadcastInterval_pos h
  · split at hthere
    · rename_i henabled
      rw [List.mem_singleton] at hthere
      exact hthere ▸ resetInterval_pos h henabled
    · exact absurd hthere List.not_mem_nil

/-- A pool that is ready has its timers to wait for, and nothing else. -/
theorem deadlines_ready (s : Settings) : (World.ready s).deadlines = s.periods := by
  rw [World.deadlines, World.ready, World.fresh, periods]
  cases s.policy.enabled <;> rfl

/-! ## Setting up -/

/-- A pool that was set up is one to which nothing has happened: what is preserved from there on holds of it too. -/
theorem moves_ready (s : Settings) : World.Moves (World.fresh s true) [] (World.ready s) :=
  .single (.passes (some s.mining.broadcastInterval) _ (Nat.le_refl 0))

/-- What can be missing is room for the jobs, and after that a seat. -/
theorem setUp_eq (h : s.Sound) :
    World.setUp s =
      if maxBytes < bytesPerJob * s.mining.jobHistory then .error (.history s.mining.jobHistory)
      else if maxSeats < s.maxClients then .error (.seats s.maxClients)
      else .ok (World.ready s) := by
  have htimers : (s.periods.map .timer).find? (!Provision.isAvailable ·) = none := by
    refine List.find?_eq_none.mpr fun p hp => ?_
    obtain ⟨period, hthere, rfl⟩ := List.mem_map.mp hp
    simp [Provision.isAvailable, periods_pos h period hthere]
  rw [World.setUp, provisions]
  by_cases hhistory : maxBytes < bytesPerJob * s.mining.jobHistory
  · rw [List.find?_cons_of_pos (by simpa [Provision.isAvailable] using hhistory), if_pos hhistory]
  · rw [List.find?_cons_of_neg (by simpa [Provision.isAvailable] using hhistory), if_neg hhistory]
    by_cases hseats : maxSeats < s.maxClients
    · rw [List.find?_cons_of_pos (by simpa [Provision.isAvailable] using hseats), if_pos hseats]
    · rw [List.find?_cons_of_neg (by simpa [Provision.isAvailable] using hseats), if_neg hseats, htimers]

/-- Jobs fit one piece of memory up to a power of two, since so many take a power of two of bytes. -/
theorem history_fits_iff {jobs : Nat} : bytesPerJob * jobs ≤ maxBytes ↔ jobs < twoTo 58 := by
  have hbytes : maxBytes + 1 = bytesPerJob * twoTo 58 := by decide
  have hpos : 0 < bytesPerJob := by decide
  rw [← Nat.lt_add_one_iff, hbytes, Nat.mul_lt_mul_left hpos]

/--
**What settings that make sense can be set up.**

Their timers go off ahead of the time at which the pool is ready, so no periodic task stands still. The pool is ready
unless it is to remember too many jobs or, if it is not, to seat too many clients, and then this is what is missing.
-/
theorem setUp_of_sound (h : s.Sound) :
    (∀ period, .timer period ∈ s.provisions ↔ period ∈ (World.ready s).deadlines)
      ∧ (∀ due ∈ (World.ready s).deadlines, (World.ready s).now < due)
      ∧ (World.setUp s = .ok (World.ready s) ↔ s.mining.jobHistory < twoTo 58 ∧ s.maxClients < twoTo 61)
      ∧ ∀ missing, World.setUp s = .error missing ↔
          (twoTo 58 ≤ s.mining.jobHistory ∧ missing = .history s.mining.jobHistory)
            ∨ (s.mining.jobHistory < twoTo 58 ∧ twoTo 61 ≤ s.maxClients ∧ missing = .seats s.maxClients) := by
  have hseats : maxSeats + 1 = twoTo 61 := by decide
  rw [deadlines_ready]
  refine ⟨fun period => by simp [provisions], periods_pos h, ?_⟩
  rw [setUp_eq h]
  by_cases hjobs : s.mining.jobHistory < twoTo 58
  · rw [if_neg (Nat.not_lt.mpr (history_fits_iff.mpr hjobs))]
    by_cases hclients : s.maxClients < twoTo 61
    · rw [if_neg (by omega)]
      simp [hjobs, hclients, Nat.not_le.mpr hjobs, Nat.not_le.mpr hclients]
    · rw [if_pos (by omega)]
      simp [hjobs, Nat.not_le.mpr hjobs, Nat.not_lt.mp hclients, hclients, eq_comm]
  · rw [if_pos (Nat.lt_of_not_le fun hfits => hjobs (history_fits_iff.mp hfits))]
    simp [hjobs, Nat.not_lt.mp hjobs, eq_comm]

/-- As many jobs and as many clients as there can be. -/
theorem setUp_of_sound_at_the_limits :
    let s : Settings :=
      { standard with maxClients := twoTo 61 - 1, mining := { Mining.standard with jobHistory := twoTo 58 - 1 } }
    s.Sound ∧ World.setUp s = .ok (World.ready s) := by
  intro s
  have hsound : s.Sound := by decide +kernel
  exact ⟨hsound, (setUp_of_sound hsound).2.2.1.mpr ⟨by decide +kernel, by decide +kernel⟩⟩

theorem ofText_of_sound {text : String} (hread : (Toml.read? text).bind ofValue? = some s) (h : s.Sound) :
    ofText text = .ok s := by
  have hcheck : s.check = .ok () := h
  simp only [ofText, hread, hcheck]

/-- A file is accepted although the pool cannot be set up as it says: one client too many, or one job. -/
theorem accepted_but_not_set_up :
    (¬ ∀ text s, ofText text = .ok s → World.setUp s = .ok (World.ready s))
      ∧ ofText "max_clients = 2305843009213693952" = .ok { standard with maxClients := twoTo 61 }
      ∧ World.setUp { standard with maxClients := twoTo 61 } = .error (.seats (twoTo 61))
      ∧ ofText "[mining]\njob_history = 288230376151711744"
          = .ok { standard with mining := { Mining.standard with jobHistory := twoTo 58 } }
      ∧ World.setUp { standard with mining := { Mining.standard with jobHistory := twoTo 58 } }
          = .error (.history (twoTo 58)) := by
  have hclients : ofText "max_clients = 2305843009213693952" = .ok { standard with maxClients := twoTo 61 } :=
    ofText_of_sound (by decide +kernel) (by decide +kernel)
  have hjobs : ofText "[mining]\njob_history = 288230376151711744"
      = .ok { standard with mining := { Mining.standard with jobHistory := twoTo 58 } } :=
    ofText_of_sound (by decide +kernel) (by decide +kernel)
  have hseats : World.setUp { standard with maxClients := twoTo 61 } = .error (.seats (twoTo 61)) := rfl
  refine ⟨fun h => ?_, hclients, hseats, hjobs, rfl⟩
  exact absurd (hseats.symm.trans (h _ _ hclients)) (by simp)

end Settings
end MiningPool

import Mathlib.Data.Bool.Count
import MiningPool.Proofs.Admission.Offences

/-!
# Which shares a verdict is about

Of the shares of an address, admission counts the last few (`Counts`), fewer than are judged together. A share that
makes up that number has the address judged by all of them, and counting starts over. Whatever else happens leaves the
count as it is or starts it over too. So whoever is to be banned for a share has told of as many shares as the threshold
says, one after the other, with too many bad ones among them. A `Window` are the shares that are counted whether the
address has limits or not.
-/

namespace MiningPool

open Decimal Net

/-! ## Percents -/

namespace Decimal.Binary64

theorem le_zero_of_isPositive {p : Binary64} (h : p.isPositive = true) (s : Bool) : p.le (.zero s) = false := by
  cases p with
  | nan => rfl
  | infinite negative =>
      have hs : negative = false := by simpa [isPositive] using h
      rw [hs]
      rfl
  | finite negative m e =>
      obtain ⟨hs, hm⟩ : negative = false ∧ m ≠ 0 := by simpa [isPositive] using h
      have hsteps : 0 < steps false m e := by
        have hproduct := Nat.mul_pos (Nat.pos_of_ne_zero hm) (twoTo_pos (e - leastExponent).toNat)
        show (0 : Int) < (m : Int) * (twoTo (e - leastExponent).toNat : Int)
        rw [← Int.natCast_mul]
        exact Int.natCast_pos.mpr hproduct
      have hzero : steps s 0 leastExponent = 0 := by cases s <;> rfl
      rw [hs, zero, le, hzero]
      exact decide_eq_false (Int.not_le.mpr hsteps)

theorem ofRatio_zero (s : Bool) (b : Nat) : ofRatio s 0 b = zero s := if_pos rfl

/-- Nothing is no number or zero when it is divided. -/
theorem zero_div (x : Binary64) : (zero false).div x = .nan ∨ ∃ s, (zero false).div x = zero s := by
  cases x with
  | nan => exact Or.inl rfl
  | infinite s => exact Or.inr ⟨_, rfl⟩
  | finite s m e =>
      rw [zero, div]
      split
      · exact Or.inl rfl
      · rw [Nat.zero_mul, ofRatio_zero]
        exact Or.inr ⟨_, rfl⟩

theorem zero_mul (t : Bool) (x : Binary64) : (zero t).mul x = .nan ∨ ∃ s, (zero t).mul x = zero s := by
  cases x with
  | nan => exact Or.inl rfl
  | infinite s => exact Or.inl rfl
  | finite s m e =>
      rw [zero, mul, Nat.zero_mul, Nat.zero_mul, ofRatio_zero]
      exact Or.inr ⟨_, rfl⟩

end Decimal.Binary64

/-- **Without bad shares there are not too many of them.** -/
theorem le_invalidPercent_zero {p : Binary64} (h : p.isPositive = true) (valid : Nat) :
    p.le (invalidPercent valid 0) = false := by
  have hnone : p.le .nan = false := by cases p <;> rfl
  have hzero : Binary64.ofNat 0 = .zero false := rfl
  rw [invalidPercent, hzero]
  rcases Binary64.zero_div (Binary64.ofNat (valid + 1)) with hdiv | ⟨s, hdiv⟩
  · rw [hdiv]
    have hnan : Binary64.mul .nan (Binary64.ofNat 100) = .nan := by cases Binary64.ofNat 100 <;> rfl
    rw [hnan]
    exact hnone
  · rw [hdiv]
    rcases Binary64.zero_mul s (Binary64.ofNat 100) with hmul | ⟨t, hmul⟩
    · rw [hmul]
      exact hnone
    · rw [hmul]
      exact Binary64.le_zero_of_isPositive h t

/-! ## Counts -/

/-- How many shares of a kind are counted. -/
def Record.shares (r : Record) (accepted : Bool) : Nat := if accepted then r.validShares else r.invalidShares

theorem Record.shares_add (r : Record) : r.validShares + r.invalidShares = r.shares true + r.shares false := rfl

namespace Settings.Limits

/-- How many shares are judged together. -/
def windowLength (limits : Limits) : Nat := max limits.shareCheckThreshold 1

theorem windowLength_pos (limits : Limits) : 0 < limits.windowLength :=
  Nat.lt_of_lt_of_le Nat.zero_lt_one (Nat.le_max_right _ _)

/-- What is said of an address that told of so many good and bad shares. -/
def judge (limits : Limits) (good bad : Nat) : Verdict :=
  if limits.invalidSharePercent.le (invalidPercent good bad) then .banned else .allowed

end Settings.Limits

namespace Admission

variable {limits : Settings.Limits} {a : Admission} {ip : Ip} {now : Instant} {c : Call}
  {told counted shares window : List Bool}

theorem eq_share_of_share? {accepted : Bool} (h : c.share? ip = some accepted) : c = .share ip accepted := by
  cases c with
  | share l k =>
      rw [Call.share?] at h
      split at h
      · rename_i hl
        rw [hl, Option.some.inj h]
      · exact absurd h (by simp)
  | _ => exact absurd h (by simp [Call.share?])

/-- The same shares are counted, or none. -/
def SharesFade (r r' : Record) : Prop :=
  (∀ accepted, r'.shares accepted = r.shares accepted) ∨ ∀ accepted, r'.shares accepted = 0

theorem sharesFade_of_fades {r r' : Record} (h : r.Fades now r') : SharesFade r r' := by
  rcases h with hsame | ⟨_, hblank⟩
  · refine Or.inl fun accepted => ?_
    have hshares : r'.offences.shares accepted = r.offences.shares accepted := by rw [hsame]
    exact hshares
  · refine Or.inr fun accepted => ?_
    have hshares : r'.offences.shares accepted = Record.blank.shares accepted := by rw [hblank]
    exact hshares.trans (by cases accepted <;> rfl)

/-- Changes that leave the shares alone, of one record. -/
theorem sharesFade_modify {f : Record → Record} (hf : ∀ r accepted, (f r).shares accepted = r.shares accepted)
    (l : Ip) : SharesFade (a.record ip) ((a.modify l f).record ip) := by
  refine Or.inl fun accepted => ?_
  by_cases hl : ip = l
  · rw [hl, record_modify_self, hf]
  · rw [record_modify_of_ne hl]

/-- **Only a share of an address adds to what is counted of it.** -/
theorem sharesFade_call (h : a.Distinct) (now : Instant) (hc : c.share? ip = none) :
    SharesFade (a.record ip) ((a.call now c).record ip) := by
  cases c with
  | letIn l => exact sharesFade_of_fades (fades_letIn a now l ip)
  | release l => exact sharesFade_of_fades (fades_release a now l ip)
  | isBanned l => exact sharesFade_of_fades (fades_isBanned a now l ip)
  | ban l =>
      show SharesFade _ ((a.ban now l).2.record ip)
      unfold ban
      split
      · exact Or.inl fun _ => rfl
      · exact sharesFade_modify (fun _ _ => by rfl) l
  | malformed l =>
      show SharesFade _ ((a.recordMalformed l).2.record ip)
      unfold recordMalformed
      split
      · exact Or.inl fun _ => rfl
      · exact sharesFade_modify (fun _ _ => by rfl) l
  | share l accepted =>
      have hne : ip ≠ l := by
        rintro rfl
        exact absurd hc (by simp [Call.share?])
      refine Or.inl fun k => ?_
      show ((a.recordShare l accepted).2.record ip).shares k = _
      rw [(notes_recordShare a l accepted).others ip hne]
  | sweep => exact sharesFade_of_fades (fades_sweep h now ip)

/-! ## The share that comes next -/

/-- The share that comes next is counted with the ones before it, or together they are judged and forgotten. -/
theorem fills_or_counts (happlies : a.appliesTo ip = true)
    (hshort : counted.length < a.limits.windowLength)
    (hcounted : ∀ accepted, (a.record ip).shares accepted = counted.count accepted) (accepted : Bool) :
    ((counted ++ [accepted]).length < a.limits.windowLength ∧ (a.recordShare ip accepted).1 = .allowed
        ∧ ∀ k, ((a.recordShare ip accepted).2.record ip).shares k = (counted ++ [accepted]).count k)
      ∨ ((counted ++ [accepted]).length = a.limits.windowLength
        ∧ (a.recordShare ip accepted).1
          = a.limits.judge ((counted ++ [accepted]).count true) ((counted ++ [accepted]).count false)
        ∧ ∀ k, ((a.recordShare ip accepted).2.record ip).shares k = 0) := by
  have hlength : (counted ++ [accepted]).length = counted.length + 1 := List.length_append
  let counting (r : Record) : Record :=
    if accepted then { r with validShares := r.validShares + 1 } else { r with invalidShares := r.invalidShares + 1 }
  let b := a.modify ip counting
  have hnext : ∀ k, (b.record ip).shares k = (counted ++ [accepted]).count k := by
    intro k
    rw [record_modify_self, List.count_append, ← hcounted]
    cases accepted <;> cases k <;> rfl
  have htotal : (b.record ip).validShares + (b.record ip).invalidShares = (counted ++ [accepted]).length := by
    rw [Record.shares_add, hnext, hnext, List.count_true_add_count_false]
  have hanswer : a.recordShare ip accepted
      = if (counted ++ [accepted]).length < a.limits.shareCheckThreshold then (.allowed, b)
        else (a.limits.judge ((counted ++ [accepted]).count true) ((counted ++ [accepted]).count false),
          b.modify ip fun r => { r with validShares := 0, invalidShares := 0 }) := by
    rw [← htotal, ← hnext, ← hnext, recordShare, happlies]
    rfl
  rw [Settings.Limits.windowLength] at hshort ⊢
  rw [hanswer]
  split
  · rename_i hfew
    exact Or.inl ⟨Nat.lt_of_lt_of_le hfew (Nat.le_max_left _ _), rfl, hnext⟩
  · rename_i hmany
    refine Or.inr ⟨by omega, rfl, fun k => ?_⟩
    rw [record_modify_self]
    cases k <;> rfl

/-! ## What is counted -/

/-- Of the shares that were told of, the last few are counted, too few for a window. -/
structure Counts (limits : Settings.Limits) (a : Admission) (ip : Ip) (told counted : List Bool) : Prop where
  suffix : counted <:+ told
  short : counted.length < limits.windowLength
  shares : ∀ accepted, (a.record ip).shares accepted = counted.count accepted

theorem counts_none (limits : Settings.Limits) (told : List Bool)
    (hzero : ∀ accepted, (a.record ip).shares accepted = 0) : Counts limits a ip told [] :=
  ⟨List.nil_suffix, limits.windowLength_pos, hzero⟩

theorem counts_fresh (limits : Settings.Limits) (ip : Ip) : Counts limits (fresh limits) ip [] [] :=
  counts_none limits [] fun accepted => by cases accepted <;> rfl

theorem Counts.total (h : Counts limits a ip told counted) :
    (a.record ip).validShares + (a.record ip).invalidShares = counted.length := by
  rw [Record.shares_add, h.shares, h.shares, List.count_true_add_count_false]

/-- The share that comes next is counted with the ones before it, or it fills their window. -/
theorem Counts.share (hb : Binds limits ip a) (h : Counts limits a ip told counted) (now : Instant) (accepted : Bool) :
    (Counts limits (a.call now (.share ip accepted)) ip (told ++ [accepted]) (counted ++ [accepted])
        ∧ (a.recordShare ip accepted).1 = .allowed)
      ∨ (Counts limits (a.call now (.share ip accepted)) ip (told ++ [accepted]) []
        ∧ (counted ++ [accepted]).length = limits.windowLength
        ∧ (a.recordShare ip accepted).1
          = limits.judge ((counted ++ [accepted]).count true) ((counted ++ [accepted]).count false)) := by
  obtain ⟨hlimits, _, happlies⟩ := hb
  subst hlimits
  rcases fills_or_counts happlies h.short h.shares accepted with ⟨hshort, hallowed, hnext⟩ | ⟨hfull, hjudged, hzero⟩
  · obtain ⟨before, rfl⟩ := h.suffix
    have hsuffix : counted ++ [accepted] <:+ before ++ counted ++ [accepted] :=
      ⟨before, (List.append_assoc before counted [accepted]).symm⟩
    exact Or.inl ⟨⟨hsuffix, hshort, hnext⟩, hallowed⟩
  · exact Or.inr ⟨counts_none _ _ hzero, hfull, hjudged⟩

/-- **Whatever happens, fewer shares are counted than a window has.** -/
theorem exists_counts_call (hb : Binds limits ip a) (h : Counts limits a ip told counted) (now : Instant) (c : Call) :
    ∃ counted', Counts limits (a.call now c) ip (told ++ sharesOf ip [c]) counted' := by
  cases hshare : c.share? ip with
  | none =>
      have hnone : sharesOf ip [c] = [] := List.filterMap_cons_none hshare
      rw [hnone, List.append_nil]
      rcases sharesFade_call hb.distinct now hshare with hsame | hzero
      · exact ⟨counted, h.suffix, h.short, fun k => (hsame k).trans (h.shares k)⟩
      · exact ⟨[], counts_none limits told hzero⟩
  | some accepted =>
      have hone : sharesOf ip [c] = [accepted] := List.filterMap_cons_some hshare
      obtain rfl := eq_share_of_share? hshare
      rw [hone]
      rcases h.share hb now accepted with ⟨hnext, _⟩ | ⟨hnext, _⟩
      · exact ⟨_, hnext⟩
      · exact ⟨_, hnext⟩

theorem exists_counts_replay (hb : Binds limits ip a) (h : Counts limits a ip told counted)
    (log : List (Instant × Call)) :
    ∃ counted', Counts limits (a.replay log) ip (told ++ sharesOf ip (log.map (·.2))) counted' := by
  induction log generalizing a told counted with
  | nil =>
      refine ⟨counted, ?_⟩
      rw [List.map_nil, sharesOf, List.filterMap_nil, List.append_nil]
      exact h
  | cons e log ih =>
      obtain ⟨_, hfirst⟩ := exists_counts_call hb h e.1 e.2
      obtain ⟨counted', hrest⟩ := ih (hb.call e.1 e.2) hfirst
      rw [List.append_assoc, ← sharesOf_append] at hrest
      exact ⟨counted', hrest⟩

/-! ## Windows -/

/-- The last of some shares, fewer than are needed for a verdict, are the ones that are counted. -/
structure Window (a : Admission) (ip : Ip) (shares window : List Bool) : Prop where
  suffix : window <:+ shares
  short : a.appliesTo ip = true → window.length < a.limits.shareCheckThreshold
  /-- Without limits nothing is counted. -/
  free : a.appliesTo ip = false → window = []
  counted : ∀ accepted, (a.record ip).shares accepted = window.count accepted

theorem window_fresh (hpos : limits.enabled = true → 0 < limits.shareCheckThreshold)
    (ip : Ip) : (fresh limits).Window ip [] [] where
  suffix := List.nil_suffix
  short := fun happlies => hpos (Bool.and_eq_true_iff.mp happlies).1
  free := fun _ => rfl
  counted := fun k => by cases k <;> rfl

/-- With a threshold at all, it is how long a window is. -/
theorem Window.length (h : a.Window ip shares window) (happlies : a.appliesTo ip = true) :
    a.limits.windowLength = a.limits.shareCheckThreshold :=
  Nat.max_eq_left (Nat.succ_le_of_lt (Nat.zero_lt_of_lt (h.short happlies)))

theorem Window.counts (h : a.Window ip shares window) (happlies : a.appliesTo ip = true) :
    Counts a.limits a ip shares window :=
  ⟨h.suffix, h.length happlies ▸ h.short happlies, h.counted⟩

/-- Of an address without limits no share is ever counted. -/
theorem shares_replay_of_free (h : a.Distinct) (hfree : a.appliesTo ip = false)
    (hnone : ∀ accepted, (a.record ip).shares accepted = 0) (log : List (Instant × Call)) :
    ∀ accepted, ((a.replay log).record ip).shares accepted = 0 := by
  -- such an address stays without limits, and a share of it is not even put on its record
  induction log generalizing a with
  | nil => exact hnone
  | cons e log ih =>
      obtain ⟨hlimits, hdistinct⟩ := limits_call h e.1 e.2
      have hstill : ∀ accepted, ((a.call e.1 e.2).record ip).shares accepted = 0 := by
        cases hshare : e.2.share? ip with
        | none =>
            rcases sharesFade_call h e.1 hshare with hsame | hzero
            · exact fun accepted => (hsame accepted).trans (hnone accepted)
            · exact hzero
        | some accepted =>
            rw [eq_share_of_share? hshare, call, recordShare, hfree]
            exact hnone
      exact ih hdistinct ((appliesTo_congr hlimits ip).trans hfree) hstill

/-- **Whatever happens, the shares that are counted are a window of those that were told of.** -/
theorem exists_window_replay (h : a.Distinct) (hw : a.Window ip shares window) (log : List (Instant × Call)) :
    ∃ window', (a.replay log).Window ip (shares ++ sharesOf ip (log.map (·.2))) window' := by
  obtain ⟨hlimits, _⟩ := limits_replay h log
  have happlies' : (a.replay log).appliesTo ip = a.appliesTo ip := appliesTo_congr hlimits ip
  cases happlies : a.appliesTo ip with
  | false =>
      have hnone := shares_replay_of_free h happlies (fun k => by rw [hw.counted, hw.free happlies]; rfl) log
      refine ⟨[], List.nil_suffix, fun hyes => ?_, fun _ => rfl, hnone⟩
      rw [happlies', happlies] at hyes
      exact absurd hyes (by simp)
  | true =>
      obtain ⟨window', hcounts⟩ := exists_counts_replay ⟨rfl, h, happlies⟩ (hw.counts happlies) log
      refine ⟨window', hcounts.suffix, fun _ => ?_, fun hno => ?_, hcounts.shares⟩
      · rw [hlimits, ← hw.length happlies]
        exact hcounts.short
      · rw [happlies', happlies] at hno
        exact absurd hno (by simp)

/-! ## Verdicts -/

/-- **An address is to be banned for a share just if it fills the window and there are too many bad ones in it.** -/
theorem banned_iff (hw : a.Window ip shares window) (accepted : Bool) :
    (a.recordShare ip accepted).1 = .banned
      ↔ a.appliesTo ip = true ∧ (window ++ [accepted]).length = a.limits.shareCheckThreshold
        ∧ a.limits.invalidSharePercent.le
            (invalidPercent ((window ++ [accepted]).count true) ((window ++ [accepted]).count false)) = true := by
  cases happlies : a.appliesTo ip with
  | false =>
      rw [recordShare, happlies]
      simp
  | true =>
      have hcounts := hw.counts happlies
      rw [← hw.length happlies]
      rcases fills_or_counts happlies hcounts.short hcounts.shares accepted with
        ⟨hshort, hallowed, _⟩ | ⟨hfull, hjudged, _⟩
      · rw [hallowed]
        exact iff_of_false (by simp) fun hfull => Nat.ne_of_lt hshort hfull.2.1
      · rw [hjudged, Settings.Limits.judge]
        simp [hfull]

/-- **Good shares alone ban nobody.** -/
theorem mem_false_of_percent {percent : Binary64} (hpercent : percent.isPositive = true)
    (h : percent.le (invalidPercent (window.count true) (window.count false)) = true) : false ∈ window := by
  by_contra hgood
  rw [List.count_eq_zero.mpr hgood, le_invalidPercent_zero hpercent] at h
  exact absurd h (by simp)

end Admission
end MiningPool

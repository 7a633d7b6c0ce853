import Mathlib.Data.List.DropRight
import MiningPool.Work.Ledger

/-!
# What the ledger knows of the jobs made so far

Three things are read off the ledger, and each is tied here to the jobs that led to it:

* an **id** stands for one number, so ids are as good as numbers;
* the **current** job is the newest of those stored (`IsNewest`), in whatever order they were stored;
* what is **remembered** are the last jobs for everyone (`Remembers`). When their numbers grow, a job is live
  exactly as long as fewer newer ones have been made than are remembered.
-/

namespace MiningPool

/-! ## Ids -/

/-- The zeros in front do not count. -/
theorem ofDigitChars_zeroPadded (width n : Nat) :
    Nat.ofDigitChars 10 (Text.zeroPadded width (Nat.toDigits 10 n)) 0 = n := by
  rw [Text.zeroPadded, Nat.ofDigitChars_append, Nat.ofDigitChars_replicate_zero, Nat.mul_zero,
    Nat.ofDigitChars_ten_toDigits]

/-- **Two numbers never share an id.** -/
theorem eq_of_jobId_eq {m n : Nat} (h : jobId m = jobId n) : m = n := by
  have hlist := congrArg String.toList h
  simp only [jobId, Text.decimal, String.toList_append, String.toList_ofList] at hlist
  have hdigits := congrArg (Nat.ofDigitChars 10 · 0) (List.append_cancel_left hlist)
  simpa only [ofDigitChars_zeroPadded] using hdigits

/-! ## The newest job -/

/-- The greatest of some jobs by number, and nothing if there are none. -/
def IsNewest (newest : Option Job) (js : List Job) : Prop :=
  match newest with
  | none => js = []
  | some j => j ∈ js ∧ ∀ k ∈ js, k.seq ≤ j.seq

/-- Which job is the newest has nothing to do with their order. -/
theorem IsNewest.congr {newest : Option Job} {js ks : List Job} (h : IsNewest newest js)
    (hiff : ∀ j, j ∈ ks ↔ j ∈ js) : IsNewest newest ks := by
  cases newest with
  | none =>
      refine List.eq_nil_iff_forall_not_mem.mpr (fun j hj => ?_)
      rw [hiff, show js = [] from h] at hj
      exact List.not_mem_nil hj
  | some j => exact ⟨(hiff j).mpr h.1, fun k hk => h.2 k ((hiff k).mp hk)⟩

/-- More jobs never make the newest one older. -/
theorem IsNewest.seq_le {newer : Option Job} {js ks : List Job} {j : Job} (h : IsNewest (some j) js)
    (hsub : ∀ k ∈ js, k ∈ ks) (hnewer : IsNewest newer ks) : ∃ k, newer = some k ∧ j.seq ≤ k.seq := by
  have hj : j ∈ ks := hsub j h.1
  cases newer with
  | none => exact absurd hj (by rw [show ks = [] from hnewer]; exact List.not_mem_nil)
  | some k => exact ⟨k, rfl, hnewer.2 j hj⟩

namespace Ledger

/-- Storing a job touches nothing but the current one. -/
theorem store_eq (l : Ledger) (j : Job) : l.store j = { l with current := (l.store j).current } := by
  unfold store
  split
  · split <;> rfl
  · rfl

@[simp]
theorem store_lastSeq (l : Ledger) (j : Job) : (l.store j).lastSeq = l.lastSeq := by rw [store_eq]

@[simp]
theorem store_recent (l : Ledger) (j : Job) : (l.store j).recent = l.recent := by rw [store_eq]

@[simp]
theorem store_capacity (l : Ledger) (j : Job) : (l.store j).capacity = l.capacity := by rw [store_eq]

/-- **A late job does not take the place of a newer one.** -/
theorem isNewest_store {l : Ledger} {js ks : List Job} {j : Job} (h : IsNewest l.current js)
    (hks : ∀ k, k ∈ ks ↔ k = j ∨ k ∈ js) : IsNewest (l.store j).current ks := by
  unfold store
  split
  · rename_i c hc
    rw [hc] at h
    split
    · rename_i hlt
      refine ⟨(hks j).mpr (Or.inl rfl), fun k hk => ?_⟩
      rcases (hks k).mp hk with rfl | hk
      · exact Nat.le_refl _
      · exact Nat.le_trans (h.2 k hk) (Nat.le_of_lt hlt)
    · rename_i hge
      rw [hc]
      refine ⟨(hks c).mpr (Or.inr h.1), fun k hk => ?_⟩
      rcases (hks k).mp hk with rfl | hk
      · exact Nat.not_lt.mp hge
      · exact h.2 k hk
  · rename_i hc
    rw [hc] at h
    refine ⟨(hks j).mpr (Or.inl rfl), fun k hk => ?_⟩
    rcases (hks k).mp hk with rfl | hk
    · exact Nat.le_refl _
    · rw [show js = [] from h] at hk
      exact absurd hk List.not_mem_nil

/-! ## What is remembered -/

/-- What a ledger remembers are the last of some jobs. -/
def Remembers (l : Ledger) (js : List Job) : Prop :=
  l.recent = (js.map fun j => (j.seq, j.id)).rtake l.capacity

theorem remembers_fresh (difficulty history : Nat) : (fresh difficulty history).Remembers [] := by
  unfold Remembers
  rw [List.map_nil, List.rtake_nil]
  rfl

theorem Remembers.congr {l l' : Ledger} {js : List Job} (h : l.Remembers js)
    (hrecent : l'.recent = l.recent) (hcapacity : l'.capacity = l.capacity) : l'.Remembers js := by
  unfold Remembers at h ⊢
  rw [hrecent, hcapacity, h]

theorem remembers_remember {l : Ledger} {js : List Job} (h : l.Remembers js) (hpos : 0 < l.capacity)
    (j : Job) : (l.remember j).Remembers (js ++ [j]) := by
  obtain ⟨n, hn⟩ : ∃ n, l.capacity = n + 1 := ⟨l.capacity - 1, by omega⟩
  unfold Remembers at h ⊢
  simp only [remember, List.map_append, List.map_cons, List.map_nil]
  rw [hn] at h ⊢
  rw [List.rtake_concat_succ, List.append_cancel_right_eq, h]
  -- a full history loses its oldest job, one that is not full yet loses none
  split
  · rename_i hfull
    rw [List.rtake, List.length_drop] at hfull
    rw [List.rtake, List.rtake, List.drop_drop]
    congr 1
    omega
  · rename_i hpart
    rw [List.rtake, List.length_drop] at hpart
    rw [List.rtake, List.rtake]
    congr 1
    omega

/-! ## Making a job in one go -/

/-- What becomes of a ledger when the next job is made. -/
structure Makes (l : Ledger) (j : Job) (l' : Ledger) : Prop where
  seq : j.seq = l.lastSeq + 1
  lastSeq : l'.lastSeq = l.lastSeq + 1
  capacity : l'.capacity = l.capacity
  newest : ∀ {js ks : List Job}, IsNewest l.current js → (∀ k, k ∈ ks ↔ k = j ∨ k ∈ js) →
    IsNewest l'.current ks

theorem mintForSession_of_ok {source : Source} {l : Ledger} {t : Template}
    (h : source.fetch (l.lastSeq + 1) = .ok t) :
    l.mintForSession source = (.ok (Job.of (l.lastSeq + 1) t),
      (l.draw.2.store (Job.of (l.lastSeq + 1) t)).gauge (Job.of (l.lastSeq + 1) t)) := by
  simp only [mintForSession, draw, h]

theorem mintForSession_of_error {source : Source} {l : Ledger} {e : Fault}
    (h : source.fetch (l.lastSeq + 1) = .error e) :
    l.mintForSession source = (.error e, { l with lastSeq := l.lastSeq + 1 }) := by
  simp only [mintForSession, draw, h]

/-- **A job for one miner is made, or only a number is used up.** -/
theorem mintForSession_cases (source : Source) (l : Ledger) :
    (∃ e, l.mintForSession source = (.error e, { l with lastSeq := l.lastSeq + 1 }))
      ∨ ∃ j l', l.mintForSession source = (.ok j, l') ∧ l.Makes j l' ∧ l'.recent = l.recent := by
  unfold mintForSession draw
  dsimp only
  cases source.fetch (l.lastSeq + 1) with
  | error e => exact Or.inl ⟨e, rfl⟩
  | ok t =>
      refine Or.inr ⟨_, _, rfl, ⟨rfl, ?_, ?_, fun h hks => ?_⟩, ?_⟩
      · exact store_lastSeq { l with lastSeq := l.lastSeq + 1 } _
      · exact store_capacity { l with lastSeq := l.lastSeq + 1 } _
      · exact @isNewest_store { l with lastSeq := l.lastSeq + 1 } _ _ _ h hks
      · exact store_recent { l with lastSeq := l.lastSeq + 1 } _

/-- **A job for everyone is made and remembered, or only a number is used up.** -/
theorem mint_cases (source : Source) (l : Ledger) :
    (∃ e, l.mint source = (.error e, { l with lastSeq := l.lastSeq + 1 }))
      ∨ ∃ j l', l.mint source = (.ok j, l') ∧ l.Makes j l'
          ∧ ∀ js, 0 < l.capacity → l.Remembers js → l'.Remembers (js ++ [j]) := by
  rcases mintForSession_cases source l with ⟨e, h⟩ | ⟨j, l', h, hmakes, hrecent⟩
  · exact Or.inl ⟨e, by rw [mint, h]⟩
  · refine Or.inr ⟨j, l'.remember j, by rw [mint, h], ⟨hmakes.seq, hmakes.lastSeq, hmakes.capacity,
      hmakes.newest⟩, fun js hpos hrem => remembers_remember ?_ ?_ j⟩
    · exact hrem.congr hrecent hmakes.capacity
    · rw [hmakes.capacity]; exact hpos

/-! ## What that says of an id and of a job -/

/-- A job that was just remembered is known. -/
theorem isKnown_remember (l : Ledger) (j : Job) : (l.remember j).isKnown j.id = true := by
  simp only [isKnown, remember, List.any_append, List.any_cons, List.any_nil, beq_self_eq_true, Bool.true_or,
    Bool.or_true]

theorem isKnown_iff {l : Ledger} {js : List Job} (h : l.Remembers js) (id : String) :
    l.isKnown id = true ↔ id ∈ (js.rtake l.capacity).map (·.id) := by
  unfold Remembers at h
  rw [isKnown, h, List.rtake, ← List.map_drop, List.length_map, ← List.rtake]
  simp only [List.any_eq_true, List.mem_map, beq_iff_eq]
  constructor
  · rintro ⟨_, ⟨j, hj, rfl⟩, hid⟩
    exact ⟨j, hj, hid⟩
  · rintro ⟨j, hj, hid⟩
    exact ⟨_, ⟨j, hj, rfl⟩, hid⟩

/-- Of `k + n` growing numbers fewer than `n` exceed a bound exactly if the one in place `k` does not. -/
theorem length_filter_lt_iff {ns : List Nat} (hinc : ns.Pairwise (· < ·)) {k n : Nat} (hn : 0 < n)
    (hlen : ns.length = k + n) (b : Nat) :
    (ns.filter (b < ·)).length < n ↔ ns[k] ≤ b := by
  have hk : k < ns.length := by omega
  have hdrop : ns.drop k = ns[k] :: ns.drop (k + 1) := List.drop_eq_getElem_cons hk
  have hsplit : (ns.filter (b < ·)).length
      = ((ns.take k).filter (b < ·)).length + ((ns.drop k).filter (b < ·)).length := by
    -- the numbers fall into those before place `k` and those from it on
    rw [← List.length_append, ← List.filter_append, List.take_append_drop]
  constructor
  · intro hfew
    by_contra hgt
    -- from place `k` on all are greater
    have hall : (ns.drop k).filter (b < ·) = ns.drop k := by
      rw [List.filter_eq_self]
      intro m hm
      have hpair : (ns[k] :: ns.drop (k + 1)).Pairwise (· < ·) := hdrop ▸ hinc.drop
      rw [hdrop] at hm
      rw [decide_eq_true_eq]
      rcases List.mem_cons.mp hm with rfl | hm
      · exact Nat.not_le.mp hgt
      · exact Nat.lt_trans (Nat.not_le.mp hgt) (List.rel_of_pairwise_cons hpair hm)
    rw [hsplit, hall, List.length_drop] at hfew
    omega
  · intro hle
    -- up to place `k` none is greater
    have hnone : (ns.take k).filter (b < ·) = [] := by
      rw [List.filter_eq_nil_iff]
      intro m hm
      obtain ⟨i, hi, rfl⟩ := List.mem_iff_getElem.mp hm
      rw [List.length_take] at hi
      have := List.pairwise_iff_getElem.mp hinc i k (by omega) hk (by omega)
      rw [List.getElem_take, decide_eq_true_eq]
      omega
    have hrest := List.length_filter_le (b < ·) (ns.drop (k + 1))
    rw [hsplit, hnone, hdrop, List.filter_cons_of_neg (by rw [decide_eq_true_eq]; omega)]
    rw [List.length_drop] at hrest
    simp only [List.length_nil]
    omega

/-- **A job is live as long as fewer newer jobs for everyone have been made than are remembered.** -/
theorem isLive_iff {l : Ledger} {js : List Job} (h : l.Remembers js) (hpos : 0 < l.capacity)
    (hinc : js.Pairwise (·.seq < ·.seq)) (j : Job) :
    l.isLive j = true ↔ (js.filter (j.seq < ·.seq)).length < l.capacity := by
  have hseqs : (js.map (·.seq)).Pairwise (· < ·) := List.pairwise_map.mpr hinc
  have hcount : (js.filter (j.seq < ·.seq)).length = ((js.map (·.seq)).filter (j.seq < ·)).length := by
    rw [List.filter_map, List.length_map]
    rfl
  unfold Remembers at h
  rw [hcount, isLive, h, List.rtake, List.length_drop, List.length_map, Bool.or_eq_true,
    decide_eq_true_eq]
  rcases Nat.lt_or_ge js.length l.capacity with hlt | hge
  · -- not full yet
    have hle := List.length_filter_le (j.seq < ·) (js.map (·.seq))
    rw [List.length_map] at hle
    exact ⟨fun _ => by omega, fun _ => Or.inl (by omega)⟩
  · have hk : js.length - l.capacity < js.length := by omega
    rw [length_filter_lt_iff hseqs hpos (k := js.length - l.capacity) (by rw [List.length_map]; omega)]
    rw [List.head?_drop, List.getElem?_map, List.getElem?_eq_getElem hk, List.getElem_map]
    simp only [Option.map_some, decide_eq_true_eq]
    constructor
    · rintro (hlt | hle)
      · omega
      · exact hle
    · exact Or.inr

end Ledger
end MiningPool

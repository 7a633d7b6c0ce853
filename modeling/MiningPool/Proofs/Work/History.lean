import MiningPool.Proofs.Work.ConcurrentMinting

/-!
# The history under overlapping calls

The history is filled when a call for everyone ends, so it holds the last jobs for everyone in the order in
which their calls ended. That need not be the order of their numbers. A job is known as long as fewer calls for
everyone have ended after its own than are remembered, and a late job with a small number counts as one that
came after.

As long as calls for everyone end in the order of their numbers the two orders are one, and the known jobs are
those with the greatest numbers. Otherwise even the newest job can be forgotten before older ones.
-/

namespace MiningPool

namespace Ledger

/-- **A job is known until as many others were remembered after it as the history holds.** -/
theorem isKnown_iff_length {l : Ledger} {before after : List Job} {j : Job}
    (h : l.Remembers (before ++ j :: after)) (hids : ((before ++ j :: after).map (·.id)).Nodup) :
    l.isKnown j.id = true ↔ after.length < l.capacity := by
  rw [isKnown_iff h, List.rtake, List.length_append, List.length_cons]
  constructor
  · intro hmem
    by_contra hlate
    -- all that is left came after `j`
    have hplace : before.length + (after.length + 1) - l.capacity
        = (before ++ [j]).length + (after.length - l.capacity) := by
      rw [List.length_append, List.length_singleton]
      omega
    have hdrop : (before ++ j :: after).drop (before.length + (after.length + 1) - l.capacity)
        = after.drop (after.length - l.capacity) := by
      rw [hplace, List.append_cons before j after, List.drop_length_add_append]
    rw [hdrop] at hmem
    obtain ⟨k, hk, hid⟩ := List.mem_map.mp hmem
    have hafter : j.id ∈ after.map (·.id) := hid ▸ List.mem_map_of_mem (List.mem_of_mem_drop hk)
    rw [List.map_append, List.map_cons] at hids
    exact (List.nodup_cons.mp (List.nodup_append.mp hids).2.1).1 hafter
  · intro hfew
    refine List.mem_map_of_mem ?_
    rw [List.drop_append_of_le_length (by omega)]
    exact List.mem_append_right _ List.mem_cons_self

end Ledger

namespace Minting

variable {m m' : Minting} {ns : List Nat}

/-! ## Which jobs are for everyone -/

/-- The number that a move draws for some purpose. -/
def drawFor? (purpose : Purpose) (m : Minting) : Move → Option Nat
  | .start p => if p = purpose then some m.ledger.draw.1 else none
  | _ => none

/-- The numbers that some moves draw for some purpose, in order. -/
def drawsFor (purpose : Purpose) (m : Minting) : List Move → List Nat
  | [] => []
  | move :: moves => (m.drawFor? purpose move).toList ++ (m.step move).drawsFor purpose moves

/-- The returned jobs of some numbers, in the order in which their calls ended. -/
def returnedOf (m : Minting) (ns : List Nat) : List Job := m.returned.filter fun j => ns.contains j.seq

/-- The numbers drawn for everyone are known, and the history holds the last of the jobs returned for them. -/
structure Announces (ns : List Nat) (m : Minting) : Prop where
  orderly : Orderly m
  drawn : ∀ n ∈ ns, n ≤ m.started
  purpose : ∀ c ∈ m.calls, c.purpose = .everyone ↔ c.seq ∈ ns
  /-- Only a call for everyone gets as far as remembering its job. -/
  remembering : ∀ c ∈ m.calls, ∀ j, c.stage = .remembering j → c.purpose = .everyone
  capacity : 0 < m.ledger.capacity
  remembers : m.ledger.Remembers (m.returnedOf ns)

theorem announces_fresh (difficulty history : Nat) : Announces [] (fresh (.fresh difficulty history)) where
  orderly := orderly_fresh difficulty history
  drawn := fun _ hn => absurd hn List.not_mem_nil
  purpose := fun _ hc => absurd hc List.not_mem_nil
  remembering := fun _ hc => absurd hc List.not_mem_nil
  capacity := Nat.lt_of_lt_of_le Nat.zero_lt_one (Nat.le_max_right _ _)
  remembers := Ledger.remembers_fresh difficulty history

/-! ## One move -/

theorem returned_left (l : Ledger) (c : Call) (outcome : Except Fault Job) :
    (m.left l c outcome).returned = m.returned ++ outcome.toOption.toList := by
  rw [returned, left, List.filterMap_append]
  cases outcome with
  | error e => rfl
  | ok j => rfl

theorem returnedOf_left (ns : List Nat) (l : Ledger) (c : Call) (outcome : Except Fault Job) :
    (m.left l c outcome).returnedOf ns
      = m.returnedOf ns ++ outcome.toOption.toList.filter fun j => ns.contains j.seq := by
  rw [returnedOf, returned_left, List.filter_append]
  rfl

/-- The job of a call was made for everyone if the call is. -/
theorem Announces.contains_iff (h : Announces ns m) {c : Call} (hc : c ∈ m.calls) {j : Job}
    (hj : c.stage.job? = some j) : ns.contains j.seq = true ↔ c.purpose = .everyone := by
  rw [(h.orderly.called c hc j hj).1, List.contains_iff_mem, h.purpose c hc]

theorem mem_drawFor_start {p q : Purpose} {n : Nat} :
    n ∈ (m.drawFor? q (.start p)).toList ↔ p = q ∧ n = m.ledger.draw.1 := by
  rw [show m.drawFor? q (.start p) = if p = q then some m.ledger.draw.1 else none from rfl]
  split
  · rename_i hp
    rw [Option.toList_some, List.mem_singleton]
    exact ⟨fun hn => ⟨hp, hn⟩, And.right⟩
  · rename_i hp
    rw [Option.toList_none]
    exact ⟨fun hn => absurd hn List.not_mem_nil, fun hn => absurd hn.1 hp⟩

/-- A number that was only just drawn is not that of a job returned before. -/
theorem Announces.returnedOf_drawn (h : Announces ns m) (purpose : Purpose) :
    m.returnedOf (ns ++ (m.drawFor? .everyone (.start purpose)).toList) = m.returnedOf ns := by
  have hseq : m.ledger.draw.1 = m.started + 1 := congrArg (· + 1) h.orderly.counted
  refine List.filter_congr fun j hj => ?_
  obtain ⟨n, hn⟩ := mem_returned.mp hj
  have hle : j.seq ≤ m.started := by
    rw [(h.orderly.given n j hn).1]
    exact h.orderly.ended_le _ hn
  rw [Bool.eq_iff_iff, List.contains_iff_mem, List.contains_iff_mem, List.mem_append, mem_drawFor_start]
  exact ⟨fun hm => hm.resolve_right fun hnew => by omega, Or.inl⟩

/-- A call that only gets to another stage leaves the history alone. -/
theorem Announces.moved (h : Announces ns m) {c : Call} (hc : c ∈ m.calls) {l : Ledger} {s : Stage}
    (horderly : Orderly (m.moved c.seq l s)) (hrecent : l.recent = m.ledger.recent)
    (hcapacity : l.capacity = m.ledger.capacity) (hs : ∀ j, s = .remembering j → c.purpose = .everyone) :
    Announces ns (m.moved c.seq l s) where
  orderly := horderly
  drawn := h.drawn
  purpose := by
    intro d hd
    rcases mem_calls_moved.mp hd with ⟨hd, _⟩ | ⟨e, he, _, rfl⟩
    · exact h.purpose d hd
    · exact h.purpose e he
  remembering := by
    intro d hd j hj
    rcases mem_calls_moved.mp hd with ⟨hd, _⟩ | ⟨e, he, hseq, rfl⟩
    · exact h.remembering d hd j hj
    · rw [h.orderly.eq_of_seq_eq he hc hseq]
      exact hs j hj
  capacity := Nat.lt_of_lt_of_eq h.capacity hcapacity.symm
  remembers := h.remembers.congr hrecent hcapacity

/-- A call that ends is remembered if it was for everyone and made a job. -/
theorem Announces.left (h : Announces ns m) {c : Call} {l : Ledger} {outcome : Except Fault Job}
    (horderly : Orderly (m.left l c outcome)) (hcapacity : l.capacity = m.ledger.capacity)
    (hremembers : l.Remembers (m.returnedOf ns ++ outcome.toOption.toList.filter fun j => ns.contains j.seq)) :
    Announces ns (m.left l c outcome) where
  orderly := horderly
  drawn := h.drawn
  purpose := fun d hd => h.purpose d (mem_calls_left.mp hd).1
  remembering := fun d hd => h.remembering d (mem_calls_left.mp hd).1
  capacity := Nat.lt_of_lt_of_eq h.capacity hcapacity.symm
  remembers := by
    rw [returnedOf_left]
    exact hremembers

theorem announces_start (h : Announces ns m) (purpose : Purpose) :
    Announces (ns ++ (m.drawFor? .everyone (.start purpose)).toList) (m.start purpose) := by
  have hseq : m.ledger.draw.1 = m.started + 1 := congrArg (· + 1) h.orderly.counted
  constructor
  case orderly => exact orderly_start h.orderly purpose
  case drawn =>
    intro n hn
    rcases List.mem_append.mp hn with hn | hn
    · exact Nat.le_succ_of_le (h.drawn n hn)
    · rw [(mem_drawFor_start.mp hn).2, hseq]
      exact Nat.le_refl _
  case purpose =>
    intro c hc
    rw [List.mem_append, mem_drawFor_start]
    rcases List.mem_append.mp hc with hc | hc
    · have hle := (h.orderly.numbered c hc).2
      exact (h.purpose c hc).trans ⟨Or.inl, fun hm => hm.resolve_right fun hnew => by omega⟩
    · rw [List.mem_singleton.mp hc]
      refine ⟨fun hp => Or.inr ⟨hp, rfl⟩, ?_⟩
      rintro (hold | hnew)
      · -- a number that was just drawn is none of the old ones
        have hle := h.drawn _ hold
        dsimp only at hle
        rw [h.orderly.counted] at hle
        omega
      · exact hnew.1
  case remembering =>
    intro c hc j hj
    rcases List.mem_append.mp hc with hc | hc
    · exact h.remembering c hc j hj
    · rw [List.mem_singleton.mp hc] at hj
      exact absurd hj (by simp)
  case capacity => exact h.capacity
  case remembers =>
    show m.ledger.Remembers (m.returnedOf _)
    rw [h.returnedOf_drawn]
    exact h.remembers

/-- What a move of a call under way does to the history. -/
theorem announces_change (h : Announces ns m) (hch : Change m m') (hsame : m'.started = m.started) :
    Announces ns m' := by
  have horderly := orderly_change h.orderly hch
  cases hch with
  | nothing => exact h
  | started purpose => exact absurd hsame (Nat.succ_ne_self _)
  | failed hc hs e =>
      refine h.left horderly rfl ?_
      rw [show (Except.error e : Except Fault Job).toOption.toList = [] from rfl, List.filter_nil,
        List.append_nil]
      exact h.remembers
  | fetched hc hs t => exact h.moved hc horderly rfl rfl (by simp)
  | stored hc hs =>
      exact h.moved hc horderly (Ledger.store_recent _ _) (Ledger.store_capacity _ _) (by simp)
  | shown hc hs hp => exact h.moved hc horderly rfl rfl fun _ _ => hp
  | @returned c j hc hs hp =>
      refine h.left horderly rfl ?_
      -- the number was drawn for one miner
      have hnot : ns.contains j.seq = false := by
        rw [← Bool.not_eq_true, h.contains_iff hc (by rw [hs]; rfl), hp]
        decide
      rw [show (Except.ok j : Except Fault Job).toOption.toList = [j] from rfl,
        List.filter_cons_of_neg (by rw [hnot]; decide), List.filter_nil, List.append_nil]
      exact h.remembers.congr rfl rfl
  | @remembered c j hc hs =>
      refine h.left horderly rfl ?_
      have hmem : ns.contains j.seq = true :=
        (h.contains_iff hc (by rw [hs]; rfl)).mpr (h.remembering c hc j hs)
      rw [show (Except.ok j : Except Fault Job).toOption.toList = [j] from rfl,
        List.filter_cons_of_pos (by rw [hmem]), List.filter_nil]
      exact Ledger.remembers_remember h.remembers h.capacity j

/-- **Every move keeps the history true to the calls that have ended.** -/
theorem announces_step (h : Announces ns m) (move : Move) :
    Announces (ns ++ (m.drawFor? .everyone move).toList) (m.step move) := by
  cases move with
  | start purpose => exact announces_start h purpose
  | receive seq work =>
      rw [show m.drawFor? .everyone (.receive seq work) = none from rfl, Option.toList_none, List.append_nil]
      exact announces_change h (receive_change m seq work) (started_receive h.orderly seq work)
  | advance seq =>
      rw [show m.drawFor? .everyone (.advance seq) = none from rfl, Option.toList_none, List.append_nil]
      exact announces_change h (advance_change m seq) (started_advance h.orderly seq)

theorem announces_run_from (moves : List Move) :
    ∀ {m : Minting} {ns : List Nat}, Announces ns m →
      Announces (ns ++ m.drawsFor .everyone moves) (m.run moves) := by
  induction moves with
  | nil => intro m ns h; rw [drawsFor, List.append_nil]; exact h
  | cons move moves ih =>
      intro m ns h
      rw [drawsFor, ← List.append_assoc]
      exact ih (announces_step h move)

/-- **The history holds the last of the jobs that calls for everyone have returned, after any run.** -/
theorem announces_run (difficulty history : Nat) (moves : List Move) :
    Announces ((fresh (.fresh difficulty history)).drawsFor .everyone moves)
      ((fresh (.fresh difficulty history)).run moves) :=
  announces_run_from moves (announces_fresh difficulty history)

theorem capacity_change (hch : Change m m') : m'.ledger.capacity = m.ledger.capacity := by
  cases hch with
  | stored hc hs => exact Ledger.store_capacity _ _
  | _ => rfl

theorem capacity_run (difficulty history : Nat) (moves : List Move) :
    ((fresh (.fresh difficulty history)).run moves).ledger.capacity = max history 1 :=
  run_keeps (P := fun m => m.ledger.capacity = max history 1)
    (fun hp hch => (capacity_change hch).trans hp) moves rfl

/-! ## Which jobs are known -/

/-- Of jobs in the order of their numbers, those that follow one are those that are newer. -/
theorem filter_newer {before after : List Job} {j : Job}
    (h : (before ++ j :: after).Pairwise (·.seq < ·.seq)) :
    (before ++ j :: after).filter (j.seq < ·.seq) = after := by
  obtain ⟨_, hrest, hbefore⟩ := List.pairwise_append.mp h
  have hnone : before.filter (j.seq < ·.seq) = [] := by
    refine List.filter_eq_nil_iff.mpr fun k hk => ?_
    have hlt := hbefore k hk j List.mem_cons_self
    rw [decide_eq_true_eq]
    omega
  have hall : after.filter (j.seq < ·.seq) = after := by
    refine List.filter_eq_self.mpr fun k hk => ?_
    exact decide_eq_true ((List.pairwise_cons.mp hrest).1 k hk)
  rw [List.filter_append, hnone, List.filter_cons_of_neg (by simp), hall, List.nil_append]

/--
**A job for everyone is known until enough others have been returned after it.**

However the calls overlap, the known ids are those of the last jobs that calls for everyone have returned, and
a job is among them as long as fewer than are remembered were returned later. If these calls have ended in the
order of their numbers, the known jobs are those with the greatest numbers, the newest one always among them.
-/
theorem known_until_pushed_out (difficulty history : Nat) (moves : List Move) :
    let start := fresh (.fresh difficulty history)
    let m := start.run moves
    let announced := m.returnedOf (start.drawsFor .everyone moves)
    (∀ id, m.ledger.isKnown id = true ↔ id ∈ (announced.rtake (max history 1)).map (·.id))
      ∧ (∀ before j after, announced = before ++ j :: after →
          (m.ledger.isKnown j.id = true ↔ after.length < max history 1))
      ∧ (announced.Pairwise (·.seq < ·.seq) → ∀ j ∈ announced,
          (m.ledger.isKnown j.id = true ↔ (announced.filter (j.seq < ·.seq)).length < max history 1)) := by
  intro start m announced
  have h : Announces (start.drawsFor .everyone moves) m := announces_run difficulty history moves
  have hcapacity : m.ledger.capacity = max history 1 := capacity_run difficulty history moves
  have hplace : ∀ before j after, announced = before ++ j :: after →
      (m.ledger.isKnown j.id = true ↔ after.length < max history 1) := by
    intro before j after heq
    have hids : (announced.map (·.id)).Nodup := (ids_nodup h.orderly).sublist (List.filter_sublist.map _)
    rw [heq] at hids
    have hremembers : m.ledger.Remembers announced := h.remembers
    rw [heq] at hremembers
    rw [← hcapacity]
    exact Ledger.isKnown_iff_length hremembers hids
  refine ⟨fun id => ?_, hplace, fun hsorted j hj => ?_⟩
  · rw [← hcapacity]
    exact Ledger.isKnown_iff h.remembers id
  · obtain ⟨before, after, heq⟩ := List.append_of_mem hj
    rw [hplace before j after heq, heq, filter_newer (heq ▸ hsorted)]

/-- The newest job can be forgotten. A history of one forgets the second job when the first one comes in late. -/
theorem newest_forgotten :
    ¬ ∀ (difficulty history : Nat) (moves : List Move),
      let start := fresh (.fresh difficulty history)
      let m := start.run moves
      let announced := m.returnedOf (start.drawsFor .everyone moves)
      ∀ j ∈ announced,
        (m.ledger.isKnown j.id = true ↔ (announced.filter (j.seq < ·.seq)).length < max history 1) := by
  intro h
  have hnewest := h 1000 1
    [.start .everyone, .start .everyone,
      .receive 2 (.ok default), .advance 2, .advance 2, .advance 2,
      .receive 1 (.ok default), .advance 1, .advance 1, .advance 1]
    (Job.of 2 default) (by decide)
  revert hnewest
  decide

end Minting
end MiningPool

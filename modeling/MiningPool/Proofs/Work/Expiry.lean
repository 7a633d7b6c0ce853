import MiningPool.Proofs.Pool.Replies
import MiningPool.Proofs.Work.History

/-!
# When jobs expire

Of a full history only the first job is asked whether another one has expired: whatever is older than it has. That is the
same as being older than everything remembered as long as the first job is the oldest, and it is not when a job comes
in late: then a job can expire while an older one is still remembered.

Nothing comes in late when calls for everyone never overlap one another (`OneByOne`), whatever calls for single miners do
meanwhile. `SingleFile` is what such runs keep: at most one call for everyone is under way, and it is newer than all that
are over. The history is then in the order of its numbers, and a job has expired just if as many newer jobs have been
made for everyone as are remembered. Their number never gets smaller, so what has expired stays so.
-/

namespace MiningPool

namespace Ledger

variable {l : Ledger} {js : List Job}

/-! ## The first job that is remembered -/

theorem Remembers.length_recent (h : l.Remembers js) : l.recent.length = min l.capacity js.length := by
  unfold Remembers at h
  rw [h, List.rtake, List.length_drop, List.length_map]
  omega

/-- Older than every job that is remembered, when as many are as can be. -/
def Outdated (l : Ledger) (j : Job) : Prop := l.recent.length = l.capacity ∧ ∀ r ∈ l.recent, j.seq < r.1

/-- **A job has expired just if the history is full and the first job in it is newer.** -/
theorem isLive_eq_false_iff (hpos : 0 < l.capacity) (hle : l.recent.length ≤ l.capacity) (j : Job) :
    l.isLive j = false ↔ l.recent.length = l.capacity ∧ ∀ first ∈ l.recent.head?, j.seq < first.1 := by
  rw [isLive, Bool.or_eq_false_iff, decide_eq_false_iff_not]
  cases hrecent : l.recent with
  | nil =>
      rw [hrecent] at hle
      exact iff_of_false (fun h => by simp at h) fun h => Nat.ne_of_lt hpos h.1
  | cons first rest =>
      rw [hrecent] at hle
      simp only [List.head?_cons, decide_eq_false_iff_not, Option.mem_some, forall_eq']
      exact and_congr ⟨fun h => by omega, fun h => by omega⟩ Nat.not_le

/-- What is older than everything remembered is older than the first. -/
theorem isLive_of_outdated (hpos : 0 < l.capacity) {j : Job} (h : l.Outdated j) : l.isLive j = false := by
  rw [isLive_eq_false_iff hpos (Nat.le_of_eq h.1)]
  exact ⟨h.1, fun first hfirst => h.2 first (List.mem_of_mem_head? hfirst)⟩

/-- **To expire is to be outdated just as long as the first job of a full history is the oldest in it.** -/
theorem expires_iff_outdated (hpos : 0 < l.capacity) (hle : l.recent.length ≤ l.capacity) :
    (∀ j, l.isLive j = false ↔ l.Outdated j)
      ↔ (l.recent.length = l.capacity → ∀ first ∈ l.recent.head?, ∀ r ∈ l.recent, first.1 ≤ r.1) := by
  constructor
  · intro hall hfull first hfirst r hr
    by_contra hlate
    -- a job with the number of the late one is older than the first, but not than the late one itself
    let j : Job := { (default : Job) with seq := r.1 }
    have hexpired : l.isLive j = false := by
      rw [isLive_eq_false_iff hpos hle]
      refine ⟨hfull, fun k hk => ?_⟩
      rw [← Option.mem_unique hfirst hk]
      exact Nat.not_le.mp hlate
    exact absurd (((hall j).mp hexpired).2 r hr) (Nat.lt_irrefl _)
  · intro holdest j
    refine ⟨fun hexpired => ?_, isLive_of_outdated hpos⟩
    obtain ⟨hfull, hfirst⟩ := (isLive_eq_false_iff hpos hle j).mp hexpired
    refine ⟨hfull, fun r hr => ?_⟩
    obtain ⟨first, hhead⟩ : ∃ first, l.recent.head? = some first := by
      rw [← Option.isSome_iff_exists, List.isSome_head?]
      simpa using List.ne_nil_of_mem hr
    exact Nat.lt_of_lt_of_le (hfirst first hhead) (holdest hfull first hhead r hr)

theorem pairwise_recent (h : l.Remembers js) (hsorted : js.Pairwise (·.seq < ·.seq)) :
    (l.recent.map (·.1)).Pairwise (· < ·) := by
  unfold Remembers at h
  rw [h, List.rtake, ← List.map_drop, List.map_map, List.pairwise_map]
  exact hsorted.drop

end Ledger

namespace Minting

variable {m m' : Minting} {ns : List Nat}

/-! ## Calls that overlap -/

/--
**A job is live unless it is older than the first job of a full history.**

However the calls overlap, the history holds the last of the jobs that calls for everyone have returned, and a job has
expired just if the history is full and the first of them is newer. A job that is older than all of them has expired.
The converse, for all jobs, is the same as that the first is the oldest of them, which it is if these calls have ended in
the order of their numbers.
-/
theorem live_unless_older_than_first (difficulty history : Nat) (moves : List Move) :
    let start := fresh (.fresh difficulty history)
    let m := start.run moves
    let l := m.ledger
    let announced := m.returnedOf (start.drawsFor .everyone moves)
    l.capacity = max history 1
      ∧ l.recent = (announced.map fun j => (j.seq, j.id)).rtake l.capacity
      ∧ (∀ j, l.isLive j = false ↔ l.recent.length = l.capacity ∧ ∀ first ∈ l.recent.head?, j.seq < first.1)
      ∧ (∀ j, l.Outdated j → l.isLive j = false)
      ∧ ((∀ j, l.isLive j = false ↔ l.Outdated j)
          ↔ (l.recent.length = l.capacity → ∀ first ∈ l.recent.head?, ∀ r ∈ l.recent, first.1 ≤ r.1))
      ∧ (announced.Pairwise (·.seq < ·.seq) → ∀ j, l.isLive j = false ↔ l.Outdated j) := by
  intro start m l announced
  have h : Announces (start.drawsFor .everyone moves) m := announces_run difficulty history moves
  have hle : l.recent.length ≤ l.capacity := by
    rw [h.remembers.length_recent]
    exact Nat.min_le_left _ _
  refine ⟨capacity_run difficulty history moves, h.remembers, Ledger.isLive_eq_false_iff h.capacity hle,
    fun j => Ledger.isLive_of_outdated h.capacity, Ledger.expires_iff_outdated h.capacity hle, fun hsorted => ?_⟩
  rw [Ledger.expires_iff_outdated h.capacity hle]
  intro _ first hfirst r hr
  have hgrowing := Ledger.pairwise_recent h.remembers hsorted
  -- in a history in order nothing comes before the first
  cases hrecent : l.recent with
  | nil =>
      rw [hrecent] at hr
      exact absurd hr List.not_mem_nil
  | cons k rest =>
      rw [hrecent] at hfirst hr
      rw [hrecent, List.map_cons, List.pairwise_cons] at hgrowing
      obtain rfl : k = first := Option.some.inj hfirst
      rcases List.mem_cons.mp hr with rfl | hr
      · exact Nat.le_refl _
      · exact Nat.le_of_lt (hgrowing.1 r.1 (List.mem_map_of_mem hr))

/-- A job can expire while it is remembered itself: the first of two jobs that comes in after the second. -/
theorem expired_while_remembered :
    ¬ ∀ (difficulty history : Nat) (moves : List Move) (j : Job),
      let l := ((fresh (.fresh difficulty history)).run moves).ledger
      l.isLive j = false ↔ l.recent.length = max history 1 ∧ ∀ r ∈ l.recent, j.seq < r.1 := by
  intro h
  have hfirst := h 1000 2
    [.start .everyone, .start .everyone,
      .receive 2 (.ok default), .advance 2, .advance 2, .advance 2,
      .receive 1 (.ok default), .advance 1, .advance 1, .advance 1]
    (Job.of 1 default)
  revert hfirst
  decide

/-! ## Calls for single miners -/

/-- The start of a call for one miner, or a step of one. -/
def OfSession (m : Minting) : Move → Prop
  | .start purpose => purpose = .session
  | .receive seq _ | .advance seq => ∀ c ∈ m.calls, c.seq = seq → c.purpose = .session

/-- Only calls for single miners do anything. -/
def OnlySessions (m : Minting) : List Move → Prop
  | [] => True
  | move :: moves => m.OfSession move ∧ (m.step move).OnlySessions moves

instance decidableOfSession (m : Minting) : (move : Move) → Decidable (m.OfSession move)
  | .start _ => inferInstanceAs (Decidable (_ = _))
  | .receive .. | .advance _ => inferInstanceAs (Decidable (∀ c ∈ m.calls, _ → _))

instance decidableOnlySessions : (m : Minting) → (moves : List Move) → Decidable (m.OnlySessions moves)
  | _, [] => isTrue trivial
  | m, move :: moves => @instDecidableAnd _ _ (decidableOfSession m move) (decidableOnlySessions (m.step move) moves)

theorem sameHistory_step_of_session (ho : Orderly m) (hd : m.Discreet) {move : Move} (h : m.OfSession move) :
    m.ledger.SameHistory (m.step move).ledger := by
  cases move with
  | start purpose => exact ⟨rfl, rfl, rfl⟩
  | receive seq work =>
      show m.ledger.SameHistory (m.receive seq work).ledger
      rw [receive_ledger]
      exact .refl _
  | advance seq =>
      show m.ledger.SameHistory (m.advance seq).ledger
      cases hfind : m.calls.find? fun c => c.seq == seq with
      | none =>
          rw [advance_of_find?_none hfind]
          exact .refl _
      | some c =>
          obtain ⟨hc, rfl⟩ := call_of_find? hfind
          exact sameHistory_advance ho hd hc (h c hc rfl)

/-- **Calls for single miners leave the history alone**, however many there are and however they end. -/
theorem sameHistory_of_onlySessions (moves : List Move) : ∀ {m : Minting}, Orderly m → m.Discreet →
    m.OnlySessions moves → m.ledger.SameHistory (m.run moves).ledger := by
  induction moves with
  | nil => exact fun _ _ _ => .refl _
  | cons move moves ih =>
      intro m ho hd h
      have hch := step_change m move
      exact (sameHistory_step_of_session ho hd h.1).trans
        (ih (orderly_change ho hch) (discreet_change ho hd hch) h.2)

/-! ## Calls for everyone that do not overlap -/

/-- A call for everyone does not start while another one is under way. -/
def Waits (m : Minting) : Move → Prop
  | .start .everyone => ∀ c ∈ m.calls, c.purpose = .session
  | _ => True

/-- Calls for everyone come one after the other, and those for single miners as they like. -/
def OneByOne (m : Minting) : List Move → Prop
  | [] => True
  | move :: moves => m.Waits move ∧ (m.step move).OneByOne moves

instance decidableWaits (m : Minting) : (move : Move) → Decidable (m.Waits move)
  | .start .everyone => inferInstanceAs (Decidable (∀ c ∈ m.calls, _))
  | .start .session | .receive .. | .advance _ => isTrue trivial

instance decidableOneByOne : (m : Minting) → (moves : List Move) → Decidable (m.OneByOne moves)
  | _, [] => isTrue trivial
  | m, move :: moves => @instDecidableAnd _ _ (decidableWaits m move) (decidableOneByOne (m.step move) moves)

/-- At most one call for everyone is under way, and it is newer than those that are over. -/
structure SingleFile (ns : List Nat) (m : Minting) : Prop extends Announces ns m where
  alone : ∀ c ∈ m.calls, ∀ d ∈ m.calls, c.purpose = .everyone → d.purpose = .everyone → c.seq = d.seq
  newer : ∀ c ∈ m.calls, c.purpose = .everyone → ∀ j ∈ m.returnedOf ns, j.seq < c.seq
  growing : (m.returnedOf ns).Pairwise (·.seq < ·.seq)

theorem singleFile_fresh (difficulty history : Nat) : SingleFile [] (fresh (.fresh difficulty history)) where
  toAnnounces := announces_fresh difficulty history
  alone := fun _ hc => absurd hc List.not_mem_nil
  newer := fun _ hc => absurd hc List.not_mem_nil
  growing := List.Pairwise.nil

/-- **What a call does to the jobs that were announced**: nothing, or it was for everyone, its job comes last, and it is
over. -/
theorem returnedOf_change (h : Announces ns m) (hch : Change m m') (hsame : m'.started = m.started) :
    (m'.returnedOf ns = m.returnedOf ns
        ∧ ∀ d ∈ m'.calls, ∃ c ∈ m.calls, c.seq = d.seq ∧ c.purpose = d.purpose)
      ∨ ∃ c ∈ m.calls, ∃ j, c.purpose = .everyone ∧ j.seq = c.seq ∧ m'.returnedOf ns = m.returnedOf ns ++ [j]
          ∧ ∀ d ∈ m'.calls, d ∈ m.calls ∧ d.seq ≠ c.seq := by
  have hmoved : ∀ {c : Call} (l : Ledger) (s : Stage), ∀ d ∈ (m.moved c.seq l s).calls,
      ∃ c ∈ m.calls, c.seq = d.seq ∧ c.purpose = d.purpose := by
    intro c l s d hd
    rcases mem_calls_moved.mp hd with ⟨hd, _⟩ | ⟨b, hb, _, rfl⟩
    · exact ⟨d, hd, rfl, rfl⟩
    · exact ⟨b, hb, rfl, rfl⟩
  have hleft : ∀ {c : Call} (l : Ledger) (outcome : Except Fault Job), ∀ d ∈ (m.left l c outcome).calls,
      ∃ c ∈ m.calls, c.seq = d.seq ∧ c.purpose = d.purpose :=
    fun _ _ d hd => ⟨d, (mem_calls_left.mp hd).1, rfl, rfl⟩
  cases hch with
  | nothing => exact Or.inl ⟨rfl, fun d hd => ⟨d, hd, rfl, rfl⟩⟩
  | started purpose => exact absurd hsame (Nat.succ_ne_self _)
  | failed hc hs e =>
      refine Or.inl ⟨?_, hleft _ _⟩
      rw [returnedOf_left]
      exact List.append_nil _
  | fetched hc hs t => exact Or.inl ⟨rfl, hmoved _ _⟩
  | stored hc hs => exact Or.inl ⟨rfl, hmoved _ _⟩
  | shown hc hs hp => exact Or.inl ⟨rfl, hmoved _ _⟩
  | @returned c j hc hs hp =>
      refine Or.inl ⟨?_, hleft _ _⟩
      have hnot : ns.contains j.seq = false := by
        rw [← Bool.not_eq_true, h.contains_iff hc (by rw [hs]; rfl), hp]
        decide
      rw [returnedOf_left, show (Except.ok j : Except Fault Job).toOption.toList = [j] from rfl,
        List.filter_cons_of_neg (by rw [hnot]; decide)]
      exact List.append_nil _
  | @remembered c j hc hs =>
      have hp : c.purpose = .everyone := h.remembering c hc j hs
      have hjob : c.stage.job? = some j := by rw [hs]; rfl
      refine Or.inr ⟨c, hc, j, hp, (h.orderly.called c hc j hjob).1, ?_, fun d hd => mem_calls_left.mp hd⟩
      rw [returnedOf_left, show (Except.ok j : Except Fault Job).toOption.toList = [j] from rfl,
        List.filter_cons_of_pos (by rw [(h.contains_iff hc hjob).mpr hp]), List.filter_nil]

theorem singleFile_change (h : SingleFile ns m) (hch : Change m m') (hsame : m'.started = m.started) :
    SingleFile ns m' := by
  have hannounces := announces_change h.toAnnounces hch hsame
  rcases returnedOf_change h.toAnnounces hch hsame with ⟨hreturned, hcalls⟩ | ⟨c, hc, j, hp, hseq, hreturned, hcalls⟩
  · refine ⟨hannounces, fun c hc d hd hcp hdp => ?_, fun c hc hcp j hj => ?_, ?_⟩
    · obtain ⟨c₀, hc₀, hcseq, hcpur⟩ := hcalls c hc
      obtain ⟨d₀, hd₀, hdseq, hdpur⟩ := hcalls d hd
      rw [← hcseq, ← hdseq]
      exact h.alone c₀ hc₀ d₀ hd₀ (hcpur.trans hcp) (hdpur.trans hdp)
    · obtain ⟨c₀, hc₀, hcseq, hcpur⟩ := hcalls c hc
      rw [← hcseq]
      exact h.newer c₀ hc₀ (hcpur.trans hcp) j (hreturned ▸ hj)
    · rw [hreturned]
      exact h.growing
  · -- the call that is over was the only one for everyone
    have hnone : ∀ d ∈ m'.calls, d.purpose ≠ .everyone := by
      intro d hd hdp
      obtain ⟨hd, hne⟩ := hcalls d hd
      exact hne (h.alone d hd c hc hdp hp)
    refine ⟨hannounces, fun d hd _ _ hdp => absurd hdp (hnone d hd), fun d hd hdp => absurd hdp (hnone d hd), ?_⟩
    rw [hreturned, List.pairwise_append]
    refine ⟨h.growing, List.pairwise_singleton _ _, fun k hk i hi => ?_⟩
    rw [List.mem_singleton.mp hi, hseq]
    exact h.newer c hc hp k hk

theorem Announces.returnedOf_lt (h : Announces ns m) : ∀ j ∈ m.returnedOf ns, j.seq < m.ledger.draw.1 := by
  intro j hj
  obtain ⟨n, hn⟩ := mem_returned.mp (List.mem_of_mem_filter hj)
  rw [(h.orderly.given n j hn).1]
  exact Nat.lt_succ_of_le (h.orderly.counted ▸ h.orderly.ended_le _ hn)

theorem singleFile_start (h : SingleFile ns m) (purpose : Purpose) (hw : m.Waits (.start purpose)) :
    SingleFile (ns ++ (m.drawFor? .everyone (.start purpose)).toList) (m.start purpose) := by
  have hreturned : (m.start purpose).returnedOf (ns ++ (m.drawFor? .everyone (.start purpose)).toList)
      = m.returnedOf ns := h.returnedOf_drawn purpose
  -- a new call for everyone finds none there
  have hfirst : purpose = .everyone → ∀ c ∈ m.calls, c.purpose ≠ .everyone := by
    rintro rfl c hc hp
    exact absurd ((hw c hc).symm.trans hp) (by decide)
  refine ⟨announces_start h.toAnnounces purpose, fun c hc d hd hcp hdp => ?_, fun c hc hcp j hj => ?_, ?_⟩
  · rcases List.mem_append.mp hc with hc | hc
    · rcases List.mem_append.mp hd with hd | hd
      · exact h.alone c hc d hd hcp hdp
      · rw [List.mem_singleton.mp hd] at hdp
        exact absurd hcp (hfirst hdp c hc)
    · rcases List.mem_append.mp hd with hd | hd
      · rw [List.mem_singleton.mp hc] at hcp
        exact absurd hdp (hfirst hcp d hd)
      · rw [List.mem_singleton.mp hc, List.mem_singleton.mp hd]
  · rw [hreturned] at hj
    rcases List.mem_append.mp hc with hc | hc
    · exact h.newer c hc hcp j hj
    · rw [List.mem_singleton.mp hc]
      exact h.returnedOf_lt j hj
  · rw [hreturned]
    exact h.growing

/-- **A move of calls that do not overlap keeps them in single file.** -/
theorem singleFile_step (h : SingleFile ns m) (move : Move) (hw : m.Waits move) :
    SingleFile (ns ++ (m.drawFor? .everyone move).toList) (m.step move) := by
  cases move with
  | start purpose => exact singleFile_start h purpose hw
  | receive seq work =>
      rw [show m.drawFor? .everyone (.receive seq work) = none from rfl, Option.toList_none, List.append_nil]
      exact singleFile_change h (receive_change m seq work) (started_receive h.orderly seq work)
  | advance seq =>
      rw [show m.drawFor? .everyone (.advance seq) = none from rfl, Option.toList_none, List.append_nil]
      exact singleFile_change h (advance_change m seq) (started_advance h.orderly seq)

theorem singleFile_run_from (moves : List Move) : ∀ {m : Minting} {ns : List Nat}, SingleFile ns m →
    m.OneByOne moves → SingleFile (ns ++ m.drawsFor .everyone moves) (m.run moves) := by
  induction moves with
  | nil => intro m ns h _; rw [drawsFor, List.append_nil]; exact h
  | cons move moves ih =>
      intro m ns h hw
      rw [drawsFor, ← List.append_assoc]
      exact ih (singleFile_step h move hw.1) hw.2

/-! ## Nothing comes back -/

/-- Jobs that were returned stay so. -/
theorem returned_prefix_run (moves : List Move) (m : Minting) : m.returned <+: (m.run moves).returned := by
  refine run_keeps (P := fun m' => m.returned <+: m'.returned) (fun {m' m''} hp hch => hp.trans ?_) moves
    List.prefix_rfl
  cases hch with
  | failed hc hs e => rw [returned_left]; exact List.prefix_append _ _
  | returned hc hs hp => rw [returned_left]; exact List.prefix_append _ _
  | remembered hc hs => rw [returned_left]; exact List.prefix_append _ _
  | _ => exact List.prefix_rfl

theorem returnedOf_sublist_run (moves : List Move) (m : Minting) (ns more : List Nat) :
    (m.returnedOf ns).Sublist ((m.run moves).returnedOf (ns ++ more)) := by
  refine List.Sublist.trans ?_ ((returned_prefix_run moves m).sublist.filter _)
  refine List.monotone_filter_right _ fun j hj => ?_
  rw [List.contains_iff_mem] at hj ⊢
  exact List.mem_append_left more hj

/-- With calls in single file a job has expired just if enough newer ones have been returned. -/
theorem SingleFile.isLive_eq_false_iff (h : SingleFile ns m) (j : Job) :
    m.ledger.isLive j = false ↔ m.ledger.capacity ≤ ((m.returnedOf ns).filter (j.seq < ·.seq)).length := by
  rw [← Bool.not_eq_true, Ledger.isLive_iff h.remembers h.capacity h.growing, Nat.not_lt]

/-- **A job that has expired never comes back.** -/
theorem SingleFile.isLive_run (h : SingleFile ns m) {j : Job} (hj : m.ledger.isLive j = false) {moves : List Move}
    (hmoves : m.OneByOne moves) : (m.run moves).ledger.isLive j = false := by
  have hcapacity : (m.run moves).ledger.capacity = m.ledger.capacity :=
    run_keeps (P := fun m' => m'.ledger.capacity = m.ledger.capacity)
      (fun hp hch => (capacity_change hch).trans hp) moves rfl
  rw [(singleFile_run_from moves h hmoves).isLive_eq_false_iff, hcapacity]
  rw [h.isLive_eq_false_iff] at hj
  exact Nat.le_trans hj ((returnedOf_sublist_run moves m ns _).filter _).length_le

/--
**How jobs expire when calls for everyone do not overlap.**

Calls for single miners may overlap them and one another in any way, and fetches fail at will. The history holds the
last jobs returned by calls for everyone, as many as it can, in the order of their numbers. A job has expired just if as
many newer ones have been returned as can be remembered, and then it stays so. What calls for single miners do changes
neither which ids are known nor which jobs are live.
-/
theorem expiry_in_single_file (difficulty history : Nat) (moves : List Move)
    (hmoves : (fresh (.fresh difficulty history)).OneByOne moves) :
    let start := fresh (.fresh difficulty history)
    let m := start.run moves
    let announced := m.returnedOf (start.drawsFor .everyone moves)
    let size := max history 1
    (m.ledger.recent.map (·.1)).Pairwise (· < ·)
      ∧ m.ledger.recent = (announced.map fun j => (j.seq, j.id)).rtake size
      ∧ m.ledger.recent.length = min size announced.length
      ∧ (∀ j, m.ledger.isLive j = false ↔ size ≤ (announced.filter (j.seq < ·.seq)).length)
      ∧ (∀ j, m.ledger.isLive j = false → ∀ more, m.OneByOne more → (m.run more).ledger.isLive j = false)
      ∧ ∀ more, m.OnlySessions more →
          (∀ id, (m.run more).ledger.isKnown id = m.ledger.isKnown id)
            ∧ ∀ j, (m.run more).ledger.isLive j = m.ledger.isLive j := by
  intro start m announced size
  have h : SingleFile (start.drawsFor .everyone moves) m :=
    singleFile_run_from moves (singleFile_fresh difficulty history) hmoves
  have hcapacity : m.ledger.capacity = size := capacity_run difficulty history moves
  have hremembers : m.ledger.Remembers announced := h.remembers
  refine ⟨Ledger.pairwise_recent hremembers h.growing, ?_, ?_, fun j => ?_,
    fun j hj more hmore => h.isLive_run hj hmore, fun more hmore => ?_⟩
  · rw [← hcapacity]
    exact hremembers
  · rw [← hcapacity]
    exact hremembers.length_recent
  · rw [← hcapacity]
    exact h.isLive_eq_false_iff j
  · have hsame := sameHistory_of_onlySessions more h.orderly (discreet_run difficulty history moves) hmore
    exact ⟨hsame.isKnown, hsame.isLive⟩

/-- Two logins overlap the two jobs made for everyone and one another, and one of them fails. The job of the other one,
which was drawn first, has expired in the end, and does not come back when a third round fails. -/
theorem expiry_in_single_file_login_overtaken :
    let start := fresh (.fresh 1000 2)
    let moves : List Move :=
      [.start .session, .start .everyone, .start .session, .receive 1 (.ok default), .advance 1,
        .receive 2 (.ok default), .advance 2, .advance 2, .advance 1, .advance 2, .start .everyone,
        .receive 3 (.error .unauthorized), .receive 4 (.ok default), .advance 4, .advance 4, .advance 4]
    let m := start.run moves
    let more : List Move := [.start .everyone, .start .session, .receive 5 (.error .unauthorized)]
    let logins : List Move := [.start .session, .receive 5 (.ok default), .advance 5, .start .session, .advance 5]
    start.OneByOne moves
      ∧ m.OneByOne more ∧ m.OnlySessions logins
      ∧ m.ledger.recent.map (·.1) = [2, 4]
      ∧ (m.run more).ledger.isLive (Job.of 1 default) = false
      ∧ (m.run logins).ledger.isKnown "job_000002" = true := by
  intro start moves m more logins
  have hmoves : start.OneByOne moves := by decide
  have hmore : m.OneByOne more := by decide
  have hlogins : m.OnlySessions logins := by decide
  obtain ⟨_, hrecent, _, hexpired, hnever, hlogin⟩ := expiry_in_single_file 1000 2 moves hmoves
  refine ⟨hmoves, hmore, hlogins, ?_, ?_, ?_⟩
  · rw [hrecent]
    decide
  · exact hnever _ ((hexpired _).mpr (by decide)) more hmore
  · exact ((hlogin logins hlogins).1 _).trans (by decide)

end Minting
end MiningPool

import MiningPool.Work.Minting

/-!
# Calls that overlap

A run of a `Minting` is a list of moves: a call starts, the work of a number comes in or its fetch fails, or a
call goes on. Any order is a run, so every way in which calls can overlap is one.

`Change` lists what one move can do, with all that it does. `step_change` is the only place where the moves
are taken apart; everything after it is by cases on `Change`.
-/

namespace MiningPool

namespace Minting

/-- One move of one of the calls, or the start of a new one. -/
inductive Move where
  | start (purpose : Purpose)
  | receive (seq : Nat) (work : Except Fault Template)
  | advance (seq : Nat)

def step (m : Minting) : Move → Minting
  | .start purpose => m.start purpose
  | .receive seq work => m.receive seq work
  | .advance seq => m.advance seq

def run (m : Minting) (moves : List Move) : Minting := moves.foldl step m

theorem run_append (m : Minting) (xs ys : List Move) : m.run (xs ++ ys) = (m.run xs).run ys :=
  List.foldl_append

/-- The numbers that some moves draw, in order. -/
def draws (m : Minting) : List Move → List Nat
  | [] => []
  | .start purpose :: moves => m.ledger.draw.1 :: (m.step (.start purpose)).draws moves
  | .receive seq work :: moves => (m.step (.receive seq work)).draws moves
  | .advance seq :: moves => (m.step (.advance seq)).draws moves

/-- The number of the call that a move belongs to, if there is such a call. -/
def callOf? (m : Minting) : Move → Option Nat
  | .start _ => some (m.started + 1)
  | .receive seq _ | .advance seq => (m.calls.find? fun c => c.seq == seq).map (·.number)

/-! ## What one move can do -/

/-- The call of a number gets to a stage. -/
def moved (m : Minting) (seq : Nat) (l : Ledger) (s : Stage) : Minting :=
  { m with ledger := l, calls := m.calls.map fun d => if d.seq = seq then { d with stage := s } else d }

def left (m : Minting) (l : Ledger) (c : Call) (outcome : Except Fault Job) : Minting :=
  { m with
    ledger := l
    calls := m.calls.filter (·.seq != c.seq)
    ended := m.ended ++ [(c.number, outcome)] }

inductive Change (m : Minting) : Minting → Prop where
  | nothing : Change m m
  | started (purpose : Purpose) : Change m (m.start purpose)
  | failed {c : Call} (hc : c ∈ m.calls) (hs : c.stage = .fetching) (e : Fault) :
      Change m (m.left m.ledger c (.error e))
  | fetched {c : Call} (hc : c ∈ m.calls) (hs : c.stage = .fetching) (t : Template) :
      Change m (m.moved c.seq m.ledger (.storing (Job.of c.seq t)))
  | stored {c : Call} {j : Job} (hc : c ∈ m.calls) (hs : c.stage = .storing j) :
      Change m (m.moved c.seq (m.ledger.store j) (.showing j))
  | shown {c : Call} {j : Job} (hc : c ∈ m.calls) (hs : c.stage = .showing j)
      (hp : c.purpose = .everyone) : Change m (m.moved c.seq (m.ledger.gauge j) (.remembering j))
  | returned {c : Call} {j : Job} (hc : c ∈ m.calls) (hs : c.stage = .showing j)
      (hp : c.purpose = .session) : Change m (m.left (m.ledger.gauge j) c (.ok j))
  | remembered {c : Call} {j : Job} (hc : c ∈ m.calls) (hs : c.stage = .remembering j) :
      Change m (m.left (m.ledger.remember j) c (.ok j))

theorem receive_change (m : Minting) (seq : Nat) (work : Except Fault Template) :
    Change m (m.receive seq work) := by
  unfold receive
  split
  · exact .nothing
  · rename_i c hfind
    have hc : c ∈ m.calls := List.mem_of_find?_eq_some hfind
    have hprop := List.find?_some hfind
    -- the call that was found is one that waits for its work
    rw [Bool.and_eq_true, beq_iff_eq, beq_iff_eq] at hprop
    obtain ⟨rfl, hs⟩ := hprop
    split
    · exact .failed hc hs _
    · exact .fetched hc hs _

/-- What is found under a number is a call of that number. -/
theorem call_of_find? {m : Minting} {seq : Nat} {c : Call}
    (hfind : (m.calls.find? fun c => c.seq == seq) = some c) : c ∈ m.calls ∧ c.seq = seq := by
  have hseq := List.find?_some hfind
  exact ⟨List.mem_of_find?_eq_some hfind, beq_iff_eq.mp hseq⟩

theorem advance_of_find?_none {m : Minting} {seq : Nat} (hfind : (m.calls.find? fun c => c.seq == seq) = none) :
    m.advance seq = m := by
  unfold advance
  dsimp only
  rw [hfind]

/-- The next step of a call, by how far it has come. -/
theorem advance_of_find? {m : Minting} {seq : Nat} {c : Call}
    (hfind : (m.calls.find? fun c => c.seq == seq) = some c) :
    m.advance seq =
      match c.stage, c.purpose with
      | .fetching, _ => m
      | .storing j, _ => m.moved seq (m.ledger.store j) (.showing j)
      | .showing j, .everyone => m.moved seq (m.ledger.gauge j) (.remembering j)
      | .showing j, .session => m.left (m.ledger.gauge j) c (.ok j)
      | .remembering j, _ => m.left (m.ledger.remember j) c (.ok j) := by
  obtain ⟨_, rfl⟩ := call_of_find? hfind
  unfold advance
  dsimp only
  rw [hfind]
  rfl

theorem advance_change (m : Minting) (seq : Nat) : Change m (m.advance seq) := by
  cases hfind : m.calls.find? fun c => c.seq == seq with
  | none =>
      rw [advance_of_find?_none hfind]
      exact .nothing
  | some c =>
      obtain ⟨hc, rfl⟩ := call_of_find? hfind
      rw [advance_of_find? hfind]
      cases hs : c.stage with
      | fetching => exact .nothing
      | storing j => exact .stored hc hs
      | showing j =>
          cases hp : c.purpose with
          | everyone => exact .shown hc hs hp
          | session => exact .returned hc hs hp
      | remembering j => exact .remembered hc hs

/-- **All that one move can do.** -/
theorem step_change (m : Minting) (move : Move) : Change m (m.step move) := by
  cases move with
  | start purpose => exact .started purpose
  | receive seq work => exact receive_change m seq work
  | advance seq => exact advance_change m seq

/-- What every change keeps holds after any run. -/
theorem run_keeps {P : Minting → Prop} (hkeep : ∀ {m m'}, P m → Change m m' → P m') (moves : List Move) :
    ∀ {m : Minting}, P m → P (m.run moves) := by
  induction moves with
  | nil => intro m h; exact h
  | cons move moves ih =>
      intro m h
      exact ih (hkeep h (step_change m move))

/-! ## The calls after a move -/

theorem mem_calls_moved {m : Minting} {seq : Nat} {l : Ledger} {s : Stage} {d : Call} :
    d ∈ (m.moved seq l s).calls
      ↔ (d ∈ m.calls ∧ d.seq ≠ seq) ∨ ∃ c ∈ m.calls, c.seq = seq ∧ d = { c with stage := s } := by
  simp only [moved, List.mem_map]
  constructor
  · rintro ⟨c, hc, rfl⟩
    by_cases hseq : c.seq = seq
    · rw [if_pos hseq]
      exact Or.inr ⟨c, hc, hseq, rfl⟩
    · rw [if_neg hseq]
      exact Or.inl ⟨hc, hseq⟩
  · rintro (⟨hd, hne⟩ | ⟨c, hc, hseq, rfl⟩)
    · exact ⟨d, hd, if_neg hne⟩
    · exact ⟨c, hc, if_pos hseq⟩

theorem mem_calls_left {m : Minting} {l : Ledger} {c d : Call} {outcome : Except Fault Job} :
    d ∈ (m.left l c outcome).calls ↔ d ∈ m.calls ∧ d.seq ≠ c.seq := by
  simp only [left, List.mem_filter, bne_iff_ne]

/-- A move on a call leaves it its number. -/
theorem map_seq_moved (m : Minting) (seq : Nat) (l : Ledger) (s : Stage) :
    (m.moved seq l s).calls.map (·.seq) = m.calls.map (·.seq) := by
  rw [moved, List.map_map]
  refine List.map_congr_left (fun d _ => ?_)
  rw [Function.comp_apply]
  split <;> rfl

end Minting
end MiningPool

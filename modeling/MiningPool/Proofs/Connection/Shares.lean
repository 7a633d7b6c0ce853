import Mathlib.Data.List.Induction
import MiningPool.Proofs.Connection.Order

/-!
# Shares that are counted and shares that are reported

A share is counted for the session when its request is carried out, and reported when the answer has been written.
Between the two the connection may end, and then the share is lost: it stays counted and nobody hears of it. So what
a session has counted is what was reported, what was lost, and what is still to be reported; of the last two there is
one share at the most.
-/

namespace MiningPool

open Wire

/-! ## Counting -/

/-- How many shares of a kind a session has counted. -/
def Session.shares (s : Session) (accepted : Bool) : Nat := if accepted then s.validShares else s.invalidShares

theorem Session.shares_recordShare (s : Session) (a accepted : Bool) :
    (s.recordShare a).shares accepted = s.shares accepted + if a = accepted then 1 else 0 := by
  cases a with
  | true => cases accepted <;> rfl
  | false => cases accepted <;> rfl

namespace Connection

variable {source : Source} {p : Pool} {s s' : Session} {r : Request}

theorem shareBetween_recordShare (s : Session) (a : Bool) : shareBetween s (s.recordShare a) = .report a := by
  unfold shareBetween Session.recordShare
  cases a with
  | true => simp
  | false => simp

theorem shareBetween_of_same (h : ∀ accepted, s'.shares accepted = s.shares accepted) :
    shareBetween s s' = .nothing := by
  have hvalid : s'.validShares = s.validShares := h true
  have hinvalid : s'.invalidShares = s.invalidShares := h false
  simp [shareBetween, hvalid, hinvalid]

/-- **A request counts one share if it submits one, and none otherwise.** -/
theorem shares_cases (source : Source) (p : Pool) (s : Session) (r : Request) :
    (∃ x a, Command.ofRequest r = .ok (.submit x) ∧ (p.answer source s r).session = s.recordShare a)
      ∨ ∀ accepted, (p.answer source s r).session.shares accepted = s.shares accepted := by
  cases hc : Command.ofRequest r with
  | error fault =>
      rw [Pool.answer_error source p s hc]
      exact Or.inr fun _ => rfl
  | ok c =>
      rw [Pool.answer_ok source p s hc]
      cases c with
      | submit x =>
          obtain ⟨a, hsession, _⟩ := Pool.submit_counted source (p.count (.request Method.submit)) s x
          exact Or.inl ⟨x, a, rfl, hsession⟩
      | _ => exact Or.inr fun _ => rfl

/-- The share that a request counts is the one that is due after it. -/
theorem shares_answer (source : Source) (p : Pool) (s : Session) (r : Request) (accepted : Bool) :
    (p.answer source s r).session.shares accepted
      = s.shares accepted + if (Deed.served source p s r).due = .report accepted then 1 else 0 := by
  rw [Deed.due]
  rcases shares_cases source p s r with ⟨x, a, _, hsession⟩ | hsame
  · rw [hsession, Session.shares_recordShare, shareBetween_recordShare]
    simp
  · rw [shareBetween_of_same hsame, hsame]
    simp

/-! ## The shares of a log -/

/-- The shares that deeds report, in order. -/
def reportsOf (ds : List Deed) : List Bool :=
  ds.filterMap fun
    | .reported accepted _ => some accepted
    | _ => none

/-- Whether a deed is the end while a share is still to be reported. -/
def Due.lostBy (u : Due) (accepted : Bool) : Deed → Bool
  | .ended _ => u == .report accepted
  | _ => false

/-- Whether the last deed was the end while a share was still to be reported. -/
def loses (accepted : Bool) (log : List Deed) : Bool :=
  log.getLast?.any ((dueAfter .nothing log.dropLast).lostBy accepted)

theorem reportsOf_append (log ds : List Deed) : reportsOf (log ++ ds) = reportsOf log ++ reportsOf ds :=
  List.filterMap_append

theorem loses_concat (accepted : Bool) (log : List Deed) (d : Deed) :
    loses accepted (log ++ [d]) = (dueAfter .nothing log).lostBy accepted d := by
  rw [loses, List.getLast?_concat, List.dropLast_concat]
  rfl

/-- Whoever has lost a share is over. -/
theorem dueAfter_of_loses {accepted : Bool} {log : List Deed} (h : loses accepted log = true) :
    dueAfter .nothing log = .silence := by
  rcases List.eq_nil_or_concat log with rfl | ⟨log, d, heq⟩
  · exact absurd h (by simp [loses])
  · rw [List.concat_eq_append] at heq
    subst heq
    rw [loses_concat] at h
    rw [dueAfter_append]
    cases d with
    | ended why => rfl
    | _ => exact absurd h (by simp [Due.lostBy])

/-- **Only an end that leaves something unwritten loses a share.** -/
theorem not_finished_of_loses {accepted : Bool} {log : List Deed} (horder : InOrder .nothing log)
    (h : loses accepted log = true) :
    ∃ earlier why, log = earlier ++ [.ended why] ∧ why.isAbrupt = true
      ∧ dueAfter .nothing earlier = .report accepted := by
  rcases List.eq_nil_or_concat log with rfl | ⟨log, d, heq⟩
  · exact absurd h (by simp [loses])
  · rw [List.concat_eq_append] at heq
    subst heq
    rw [loses_concat] at h
    cases d with
    | ended why =>
        have hdue : dueAfter .nothing log = .report accepted := by simpa [Due.lostBy] using h
        obtain ⟨hadmits, _⟩ := inOrder_middle horder
        rw [hdue] at hadmits
        rcases hadmits with ⟨verdict, hv⟩ | ⟨why', hw, habrupt⟩
        · exact absurd hv (by simp)
        · injection hw with hw
          exact ⟨log, why, rfl, hw ▸ habrupt, hdue⟩
    | _ => exact absurd h (by simp [Due.lostBy])

/-- What a deed adds to what its session has counted is what it leaves to be reported. -/
theorem shares_leave {d : Deed} (hd : ∀ source p s' r, d = .served source p s' r → s' = s) (accepted : Bool) :
    (d.leave s).shares accepted = s.shares accepted + if d.due = .report accepted then 1 else 0 := by
  cases d with
  | served source p s' r =>
      rw [hd source p s' r rfl]
      exact shares_answer source p s r accepted
  | forwarded m => rfl
  | noted fault verdict => cases verdict <;> rfl
  | reported a verdict => cases verdict <;> rfl
  | ended why => rfl

/-- **A share that is to be reported is reported by the next deed or lost with it.** -/
theorem reported_or_lost {u : Due} {d : Deed} (h : u.Admits d) (accepted : Bool) :
    (if u = .report accepted then 1 else 0) = (reportsOf [d]).count accepted + (u.lostBy accepted d).toNat := by
  cases u with
  | nothing =>
      cases d with
      | reported a verdict => exact absurd rfl (h.2 a verdict)
      | _ => rfl
  | report b =>
      rcases h with ⟨verdict, rfl⟩ | ⟨why, rfl, _⟩
      · cases b <;> cases accepted <;> rfl
      · cases b <;> cases accepted <;> rfl
  | ban =>
      have hd : d = .ended .banned := h
      subst hd
      rfl
  | silence => exact h.elim

/-- What deeds add to what a session has counted. -/
def accountFor (accepted : Bool) (log : List Deed) : Nat :=
  (reportsOf log).count accepted + (loses accepted log).toNat
    + if dueAfter .nothing log = .report accepted then 1 else 0

/-- **What a session has counted was reported, or lost, or is still to be reported.** -/
theorem shares_sessionAfter (first : Session) (accepted : Bool) : ∀ log : List Deed, InOrder .nothing log →
    Continues first log →
      (sessionAfter first log).shares accepted = first.shares accepted + accountFor accepted log := by
  intro log
  induction log using List.reverseRecOn with
  | nil => intro _ _; rfl
  | append_singleton log d ih =>
      intro horder hcontinues
      obtain ⟨horder, hadmits, _⟩ := inOrder_append.mp horder
      obtain ⟨hcontinues, hserved, _⟩ := continues_append.mp hcontinues
      have ih := ih horder hcontinues
      have hcount : (reportsOf (log ++ [d])).count accepted
          = (reportsOf log).count accepted + (reportsOf [d]).count accepted := by
        rw [reportsOf_append, List.count_append]
      have hdue : dueAfter .nothing (log ++ [d]) = d.due := by
        rw [dueAfter_append]
        rfl
      have hsession : sessionAfter first (log ++ [d]) = d.leave (sessionAfter first log) := by
        rw [sessionAfter_append]
        rfl
      -- what was done before has lost nothing, or nothing would be done now
      have hkept : loses accepted log = false := by
        cases hl : loses accepted log with
        | false => rfl
        | true => rw [dueAfter_of_loses hl] at hadmits; exact hadmits.elim
      have hleft := reported_or_lost hadmits accepted
      rw [accountFor, hkept, hleft] at ih
      rw [accountFor, hcount, hdue, hsession, loses_concat, shares_leave hserved, ih]
      simp only [Bool.toNat_false]
      omega

end Connection
end MiningPool

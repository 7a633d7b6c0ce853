import MiningPool.Proofs.Pool.Answer
import MiningPool.Proofs.Work.ConcurrentMinting

/-!
# What replies depend on

Apart from a login, a request is answered from the session, the settings and what the ledger remembers of the jobs for
everyone: whether a job is known or still live, and the difficulty. A login has a job made and so moves the current job
on, and everyone shares the ledger. But a job for one miner is never remembered, neither when it is made in one go nor
step by step, so no request changes what others are told.
-/

namespace MiningPool

open Wire

/-! ## Ledgers -/

namespace Ledger

/-- Two ledgers remember the same jobs for everyone, as many of them, and have the same difficulty. The current job may
be another one. -/
structure SameHistory (l l' : Ledger) : Prop where
  difficulty : l'.difficulty = l.difficulty
  capacity : l'.capacity = l.capacity
  recent : l'.recent = l.recent

variable {l l' l'' : Ledger}

theorem SameHistory.refl (l : Ledger) : SameHistory l l := ⟨rfl, rfl, rfl⟩

theorem SameHistory.trans (h : SameHistory l l') (h' : SameHistory l' l'') : SameHistory l l'' :=
  ⟨h'.difficulty.trans h.difficulty, h'.capacity.trans h.capacity, h'.recent.trans h.recent⟩

theorem SameHistory.isKnown (h : SameHistory l l') (id : String) : l'.isKnown id = l.isKnown id := by
  rw [Ledger.isKnown, Ledger.isKnown, h.recent]

theorem SameHistory.isLive (h : SameHistory l l') (j : Job) : l'.isLive j = l.isLive j := by
  rw [Ledger.isLive, Ledger.isLive, h.recent, h.capacity]

theorem sameHistory_store (l : Ledger) (j : Job) : SameHistory l (l.store j) := by
  rw [store_eq]
  exact ⟨rfl, rfl, rfl⟩

theorem sameHistory_gauge (l : Ledger) (j : Job) : SameHistory l (l.gauge j) := ⟨rfl, rfl, rfl⟩

/-- **A job for one miner leaves the history alone.** -/
theorem sameHistory_mintForSession (source : Source) (l : Ledger) : SameHistory l (l.mintForSession source).2 := by
  have hdrawn : SameHistory l l.draw.2 := ⟨rfl, rfl, rfl⟩
  unfold mintForSession
  dsimp only
  split
  · exact hdrawn
  · exact hdrawn.trans ((sameHistory_store _ _).trans (sameHistory_gauge _ _))

end Ledger

/-! ## Step by step -/

namespace Minting

/-- Only a job for everyone comes to be remembered. -/
def Discreet (m : Minting) : Prop := ∀ c ∈ m.calls, c.purpose = .session → ∀ j, c.stage ≠ .remembering j

variable {m m' : Minting} {c : Call}

theorem Discreet.moved (h : m.Discreet) (ho : Orderly m) (hc : c ∈ m.calls) {l : Ledger} {s : Stage}
    (hs : c.purpose = .session → ∀ j, s ≠ .remembering j) : (m.moved c.seq l s).Discreet := by
  intro d hd
  rcases mem_calls_moved.mp hd with ⟨hold, _⟩ | ⟨b, hb, hseq, rfl⟩
  · exact h d hold
  · rw [ho.eq_of_seq_eq hb hc hseq]
    exact hs

theorem Discreet.left (h : m.Discreet) {l : Ledger} {outcome : Except Fault Job} : (m.left l c outcome).Discreet :=
  fun d hd => h d (mem_calls_left.mp hd).1

theorem discreet_change (ho : Orderly m) (h : m.Discreet) (hch : Change m m') : m'.Discreet := by
  cases hch with
  | nothing => exact h
  | started purpose =>
      intro d hd
      rcases List.mem_append.mp hd with hold | hnew
      · exact h d hold
      · rw [List.mem_singleton.mp hnew]
        exact fun _ j => Stage.noConfusion
  | failed hc hs e => exact h.left
  | fetched hc hs t => exact h.moved ho hc fun _ j => Stage.noConfusion
  | stored hc hs => exact h.moved ho hc fun _ j => Stage.noConfusion
  | shown hc hs hp => exact h.moved ho hc fun hsession => absurd (hp.symm.trans hsession) (by decide)
  | returned hc hs hp => exact h.left
  | remembered hc hs => exact h.left

theorem discreet_run (difficulty history : Nat) (moves : List Move) :
    ((fresh (.fresh difficulty history)).run moves).Discreet := by
  have hboth : Orderly ((fresh (.fresh difficulty history)).run moves)
      ∧ ((fresh (.fresh difficulty history)).run moves).Discreet := by
    refine run_keeps (P := fun m => Orderly m ∧ m.Discreet) (fun h hch => ?_) moves ⟨orderly_fresh _ _, ?_⟩
    · exact ⟨orderly_change h.1 hch, discreet_change h.1 h.2 hch⟩
    · exact fun _ hc => absurd hc List.not_mem_nil
  exact hboth.2

/-- **No step of a call that makes a job for one miner touches the history**, whatever other calls are at. -/
theorem sameHistory_advance (ho : Orderly m) (h : m.Discreet) (hc : c ∈ m.calls) (hp : c.purpose = .session) :
    m.ledger.SameHistory (m.advance c.seq).ledger := by
  unfold advance
  dsimp only
  split
  · exact .refl _
  · rename_i d hfind
    have hseq := List.find?_some hfind
    have hd : d = c := ho.eq_of_seq_eq (List.mem_of_find?_eq_some hfind) hc (beq_iff_eq.mp hseq)
    subst hd
    split
    · exact .refl _
    · exact Ledger.sameHistory_store _ _
    · exact Ledger.sameHistory_gauge _ _
    · exact Ledger.sameHistory_gauge _ _
    · rename_i j hs
      exact absurd hs (h d hc hp j)

end Minting

/-! ## Replies -/

namespace Pool

/-- Two pools that answer the same to whoever does not log in. -/
structure AnswersLike (p q : Pool) : Prop where
  settings : q.settings = p.settings
  history : p.ledger.SameHistory q.ledger

variable {p q r : Pool}

theorem AnswersLike.refl (p : Pool) : AnswersLike p p := ⟨rfl, .refl p.ledger⟩

theorem AnswersLike.trans (h : AnswersLike p q) (h' : AnswersLike q r) : AnswersLike p r :=
  ⟨h'.settings.trans h.settings, h.history.trans h'.history⟩

theorem AnswersLike.objection (h : AnswersLike p q) (s : Session) (id : String) :
    q.objection s id = p.objection s id := by
  simp only [Pool.objection, knowsJob, h.settings, h.history.isKnown, h.history.isLive]
  rfl

theorem AnswersLike.submit (h : AnswersLike p q) (source : Source) (s : Session) (x : Submission) :
    (q.submit source s x).reply = (p.submit source s x).reply
      ∧ (q.submit source s x).session = (p.submit source s x).session
      ∧ (q.submit source s x).handed = (p.submit source s x).handed := by
  rw [Pool.submit, Pool.submit, h.objection]
  split
  · exact ⟨rfl, rfl, rfl⟩
  · dsimp only
    split
    · exact ⟨rfl, rfl, rfl⟩
    · exact ⟨rfl, rfl, rfl⟩

/-- **Who does not log in is answered the same**, counts the same, and has the same share handed to the source. -/
theorem AnswersLike.answer (h : AnswersLike p q) (source : Source) (s : Session) {request : Request}
    (hother : ∀ username address worker, Command.ofRequest request ≠ .ok (.authorize username address worker)) :
    (q.answer source s request).reply = (p.answer source s request).reply
      ∧ (q.answer source s request).session = (p.answer source s request).session
      ∧ (q.answer source s request).handed = (p.answer source s request).handed := by
  cases hc : Command.ofRequest request with
  | error fault =>
      rw [answer_error source p s hc, answer_error source q s hc]
      exact ⟨rfl, rfl, rfl⟩
  | ok c =>
      rw [answer_ok source p s hc, answer_ok source q s hc]
      cases c with
      | authorize username address worker => exact absurd hc (hother username address worker)
      | subscribe software =>
          simp only [route, subscribe, count, h.history.difficulty]
          exact ⟨trivial, trivial, trivial⟩
      | submit x =>
          have hcounted : AnswersLike (p.count (.request Method.submit)) (q.count (.request Method.submit)) :=
            ⟨h.settings, h.history⟩
          exact hcounted.submit source s x
      | _ => exact ⟨rfl, rfl, rfl⟩

theorem sameHistory_jobForLogin (source : Source) (p : Pool) :
    p.ledger.SameHistory (p.jobForLogin source).2.ledger := by
  have hmade := Ledger.sameHistory_mintForSession source p.ledger
  rcases h : p.ledger.mintForSession source with ⟨made, l⟩
  rw [h] at hmade
  cases made with
  | ok j => rw [jobForLogin_ok source p h]; exact hmade
  | error e => rw [jobForLogin_error source p h]; exact hmade

/-- **No request changes what others are answered.** -/
theorem answersLike_answer (source : Source) (p : Pool) (s : Session) (request : Request) :
    AnswersLike p (p.answer source s request).pool := by
  refine ⟨(sameRooms_answer source p s request).settings, ?_⟩
  by_cases hlogin : ∃ username address worker, Command.ofRequest request = .ok (.authorize username address worker)
  · obtain ⟨username, address, worker, hc⟩ := hlogin
    obtain ⟨_, _, hledger, _⟩ := answer_login source p s hc
    rw [hledger]
    exact sameHistory_jobForLogin source p
  · obtain ⟨_, _, hledger⟩ := answer_other source p s fun username address worker hc =>
      hlogin ⟨username, address, worker, hc⟩
    rw [hledger]
    exact .refl _

end Pool
end MiningPool

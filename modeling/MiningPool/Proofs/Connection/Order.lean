import MiningPool.Proofs.Connection.Telling

/-!
# Which deed may follow which

A share that was counted is told to admission before anything else is done, and a verdict that leads to a ban
is the last but one thing a connection does. `Due` is what a deed leaves to be done at once, and the phase of
a connection is where it keeps that in mind: `inOrder_turn` says that the two agree.

The session works the same way. Each request is carried out for the session that the one before it left.
-/

namespace MiningPool

open Wire

namespace Connection

variable {source : Source} {now : Instant} {p : Pool} {c : Connection} {ds : List Deed} {t : Turn}

/-! ## What has to be done next -/

/-- What has to be done before anything else. -/
inductive Due where
  | nothing
  /-- Admission has to hear of a share. -/
  | report (accepted : Bool)
  /-- The address is to be banned. -/
  | ban
  /-- Nothing may be done any more. -/
  | silence
  deriving DecidableEq, Repr

/-- What a deed leaves to be done at once. -/
def Deed.due : Deed → Due
  | .served source p s r =>
    match shareBetween s (p.answer source s r).session with
    | .nothing => .nothing
    | .report accepted => .report accepted
  | .noted _ .banned | .reported _ .banned => .ban
  | .ended _ => .silence
  | _ => .nothing

/-- Whether a deed may be done when something is due. A share is reported and an address banned only when
that is due, and only an abrupt end keeps a share from being reported. -/
def Due.Admits : Due → Deed → Prop
  | .nothing, d => d ≠ .ended .banned ∧ ∀ accepted verdict, d ≠ .reported accepted verdict
  | .report accepted, d => (∃ verdict, d = .reported accepted verdict)
      ∨ ∃ why, d = .ended why ∧ why.isAbrupt = true
  | .ban, d => d = .ended .banned
  | .silence, _ => False

def dueAfter (u : Due) (log : List Deed) : Due := log.foldl (fun _ d => d.due) u

/-- Each deed was due or allowed when it was done. -/
def InOrder (u : Due) : List Deed → Prop
  | [] => True
  | d :: log => u.Admits d ∧ InOrder d.due log

theorem dueAfter_append (u : Due) (log ds : List Deed) :
    dueAfter u (log ++ ds) = dueAfter (dueAfter u log) ds := List.foldl_append

theorem inOrder_append {u : Due} {log ds : List Deed} :
    InOrder u (log ++ ds) ↔ InOrder u log ∧ InOrder (dueAfter u log) ds := by
  induction log generalizing u with
  | nil => simp only [List.nil_append, InOrder, true_and]; rfl
  | cons d log ih =>
      rw [List.cons_append, InOrder, InOrder, ih, and_assoc]
      rfl

/-- What a connection in some phase has to do before anything else. -/
def dueIn : Phase → Due
  | .waiting => .nothing
  | .writing _ .nothing => .nothing
  | .writing _ (.report accepted) => .report accepted
  | .closed _ => .silence

/-- Any other deed may be done when nothing is due. -/
theorem admits_nothing {d : Deed} (hb : d ≠ .ended .banned)
    (hr : ∀ accepted verdict, d ≠ .reported accepted verdict) : InOrder .nothing [d] :=
  ⟨⟨hb, hr⟩, trivial⟩

/-- **A turn does what is due, and leaves what its deeds leave.** -/
theorem inOrder_turn (h : Takes source now p c ds t) :
    InOrder (dueIn c.phase) ds ∧ dueAfter (dueIn c.phase) ds = dueIn t.connection.phase := by
  cases h with
  | stays hp => exact ⟨trivial, rfl⟩
  | @broken left afterwards hp hg =>
      rw [hp]
      -- a broken write may leave a share unreported
      cases afterwards with
      | nothing => exact ⟨admits_nothing (by simp) (by simp), rfl⟩
      | report accepted => exact ⟨⟨.inr ⟨.broken, rfl, rfl⟩, trivial⟩, rfl⟩
  | @writes left rest afterwards client hp hg hw hr =>
      rw [hp]
      cases afterwards with
      | nothing => exact ⟨trivial, rfl⟩
      | report accepted => exact ⟨trivial, rfl⟩
  | wrote hp hg hw => rw [hp]; exact ⟨trivial, rfl⟩
  | reports hp hg hw hv => rw [hp]; exact ⟨⟨.inl ⟨.allowed, rfl⟩, trivial⟩, rfl⟩
  | condemned hp hg hw hv => rw [hp]; exact ⟨⟨.inl ⟨.banned, rfl⟩, rfl, trivial⟩, rfl⟩
  | stops hp hs => rw [hp]; exact ⟨admits_nothing (by simp) (by simp), rfl⟩
  | yields hp hs hk => rw [hp]; exact ⟨admits_nothing (by simp) (by simp), rfl⟩
  | forwards ha hm => rw [ha.phase]; exact ⟨admits_nothing (by simp) (by simp), rfl⟩
  | @serves r f o hl hn ho =>
      rw [hl.phase]
      refine ⟨admits_nothing (by simp) (by simp), ?_⟩
      -- what is due is what the phase keeps for after the write
      show (Deed.served source p c.session r).due = dueIn (.writing _ (shareBetween c.session o.session))
      rw [Deed.due, ho]
      cases shareBetween c.session o.session with
      | nothing => rfl
      | report accepted => rfl
  | refuses hl hn hv => rw [hl.phase]; exact ⟨admits_nothing (by simp) (by simp), rfl⟩
  | @drops fault f a hl hn hf hv =>
      rw [hl.phase]
      refine ⟨admits_nothing (by simp) (by simp), ?_⟩
      show (Deed.noted fault .allowed).due = .nothing
      cases fault <;> rfl
  | bans hl hn hv =>
      rw [hl.phase]
      exact ⟨⟨⟨by simp, by simp⟩, rfl, trivial⟩, rfl⟩
  | hangsUp hl hn he => rw [hl.phase]; exact ⟨admits_nothing (by simp) (by simp), rfl⟩
  | idles hl hn he hd => rw [hl.phase]; exact ⟨admits_nothing (by simp) (by simp), rfl⟩
  | @waits f hl hn he hd =>
      refine ⟨trivial, ?_⟩
      rfl

/-! ## What follows for a whole log -/

variable {u : Due} {earlier later : List Deed} {d : Deed}

theorem inOrder_middle (h : InOrder u (earlier ++ d :: later)) :
    (dueAfter u earlier).Admits d ∧ InOrder d.due later := (inOrder_append.mp h).2

theorem eq_nil_of_ended {why : Ending} (h : InOrder u (earlier ++ .ended why :: later)) : later = [] := by
  obtain ⟨_, hlater⟩ := inOrder_middle h
  cases later with
  | nil => rfl
  | cons d later => exact hlater.1.elim

/-- What is due is what the last deed left. -/
theorem dueAfter_ne {v : Due} (hu : u ≠ v) (h : dueAfter u earlier = v) :
    ∃ log d, earlier = log ++ [d] ∧ d.due = v := by
  rcases List.eq_nil_or_concat earlier with rfl | ⟨log, d, heq⟩
  · exact absurd h hu
  · rw [List.concat_eq_append] at heq
    subst heq
    rw [dueAfter_append] at h
    exact ⟨log, d, rfl, h⟩

/-- A deed that leaves a share to be reported is a request that had it counted. -/
theorem served_of_due {accepted : Bool} (h : d.due = .report accepted) :
    ∃ source p s r, d = .served source p s r
      ∧ shareBetween s (p.answer source s r).session = .report accepted := by
  cases d with
  | served source p s r =>
      refine ⟨source, p, s, r, rfl, ?_⟩
      rw [Deed.due] at h
      split at h
      · exact absurd h (by simp)
      · rename_i a ha
        injection h with h
        rw [ha, h]
  | forwarded m => exact absurd h (by simp [Deed.due])
  | noted fault verdict => cases verdict <;> exact absurd h (by simp [Deed.due])
  | reported b verdict => cases verdict <;> exact absurd h (by simp [Deed.due])
  | ended why => exact absurd h (by simp [Deed.due])

/-- A deed that leaves nothing to be done any more is an end. -/
theorem ended_of_due (h : d.due = .silence) : ∃ why, d = .ended why := by
  cases d with
  | ended why => exact ⟨why, rfl⟩
  | forwarded m => exact absurd h (by simp [Deed.due])
  | noted fault verdict => cases verdict <;> exact absurd h (by simp [Deed.due])
  | reported accepted verdict => cases verdict <;> exact absurd h (by simp [Deed.due])
  | served source p s r =>
      rw [Deed.due] at h
      split at h <;> exact absurd h (by simp)

/-- **A share is reported right after the request that had it counted.** -/
theorem served_of_reported {accepted : Bool} {verdict : Verdict} (hu : u = .nothing)
    (h : InOrder u (earlier ++ .reported accepted verdict :: later)) :
    ∃ log source p s r, earlier = log ++ [.served source p s r]
      ∧ shareBetween s (p.answer source s r).session = .report accepted := by
  subst hu
  obtain ⟨hadmits, _⟩ := inOrder_middle h
  have hdue : dueAfter .nothing earlier = .report accepted := by
    cases hd : dueAfter .nothing earlier with
    | nothing => rw [hd] at hadmits; exact absurd rfl (hadmits.2 accepted verdict)
    | report b =>
        rw [hd] at hadmits
        rcases hadmits with ⟨v, hv⟩ | ⟨why, hv, _⟩
        · injection hv with hb _
          rw [hb]
        · exact absurd hv (by simp)
    | ban => rw [hd] at hadmits; exact absurd hadmits (by simp [Due.Admits])
    | silence => rw [hd] at hadmits; exact hadmits.elim
  obtain ⟨log, d, rfl, hd⟩ := dueAfter_ne (by simp) hdue
  obtain ⟨source, p, s, r, rfl, hshare⟩ := served_of_due hd
  exact ⟨log, source, p, s, r, rfl, hshare⟩

/-- **A ban comes right after the line or the share that led to it.** -/
theorem noted_or_reported_of_banned (h : InOrder .nothing (earlier ++ .ended .banned :: later)) :
    (∃ log fault, earlier = log ++ [.noted fault .banned])
      ∨ ∃ log accepted, earlier = log ++ [.reported accepted .banned] := by
  obtain ⟨hadmits, _⟩ := inOrder_middle h
  have hdue : dueAfter .nothing earlier = .ban := by
    cases hd : dueAfter .nothing earlier with
    | nothing => rw [hd] at hadmits; exact absurd rfl hadmits.1
    | report b =>
        rw [hd] at hadmits
        rcases hadmits with ⟨v, hv⟩ | ⟨why, hv, habrupt⟩
        · exact absurd hv (by simp)
        · injection hv with hwhy
          rw [← hwhy] at habrupt
          exact absurd habrupt (by decide)
    | ban => rfl
    | silence => rw [hd] at hadmits; exact hadmits.elim
  obtain ⟨log, d, rfl, hd⟩ := dueAfter_ne (by simp) hdue
  cases d with
  | noted fault verdict =>
      cases verdict with
      | allowed => exact absurd hd (by simp [Deed.due])
      | banned => exact .inl ⟨log, fault, rfl⟩
  | reported accepted verdict =>
      cases verdict with
      | allowed => exact absurd hd (by simp [Deed.due])
      | banned => exact .inr ⟨log, accepted, rfl⟩
  | forwarded m => exact absurd hd (by simp [Deed.due])
  | served source p s r =>
      rw [Deed.due] at hd
      split at hd <;> exact absurd hd (by simp)
  | ended why => exact absurd hd (by simp [Deed.due])

/-- **After a verdict that leads to a ban there is the ban and nothing else.** -/
theorem eq_banned_of_due (h : InOrder u (earlier ++ d :: later)) (hd : d.due = .ban)
    (hlast : dueAfter u (earlier ++ d :: later) ≠ .ban) : later = [.ended .banned] := by
  obtain ⟨_, hlater⟩ := inOrder_middle h
  rw [hd] at hlater
  cases later with
  | nil =>
      rw [dueAfter_append] at hlast
      exact absurd hd hlast
  | cons e later =>
      obtain ⟨he, hrest⟩ := hlater
      have heq : e = .ended .banned := he
      subst heq
      cases later with
      | nil => rfl
      | cons e' later => exact hrest.1.elim

/-! ## Sessions -/

def Deed.leave (s : Session) : Deed → Session
  | .served source p s' r => (p.answer source s' r).session
  | _ => s

def sessionAfter (s : Session) (log : List Deed) : Session := log.foldl Deed.leave s

/-- Each request is carried out for the session that the deeds before it left. -/
def Continues (s : Session) : List Deed → Prop
  | [] => True
  | d :: log => (∀ source p s' r, d = .served source p s' r → s' = s) ∧ Continues (d.leave s) log

theorem sessionAfter_append (s : Session) (log ds : List Deed) :
    sessionAfter s (log ++ ds) = sessionAfter (sessionAfter s log) ds := List.foldl_append

theorem continues_append {s : Session} {log ds : List Deed} :
    Continues s (log ++ ds) ↔ Continues s log ∧ Continues (sessionAfter s log) ds := by
  induction log generalizing s with
  | nil => simp only [List.nil_append, Continues, true_and]; rfl
  | cons d log ih =>
      rw [List.cons_append, Continues, Continues, ih, and_assoc]
      rfl

/-- **A turn carries out a request for the session as it is.** -/
theorem session_turn (h : Takes source now p c ds t) :
    Continues c.session ds ∧ t.connection.session = sessionAfter c.session ds := by
  cases h with
  | @serves r f o hl hn ho =>
      refine ⟨⟨fun source' p' s' r' hd => ?_, trivial⟩, ?_⟩
      · injection hd with _ _ hs _
        exact hs.symm
      · show o.session = (p.answer source c.session r).session
        rw [ho]
  | condemned hp hg hw hv => exact ⟨⟨by simp, by simp, trivial⟩, rfl⟩
  | bans hl hn hv => exact ⟨⟨by simp, by simp, trivial⟩, rfl⟩
  | stays hp => exact ⟨trivial, rfl⟩
  | writes hp hg hw hr => exact ⟨trivial, rfl⟩
  | wrote hp hg hw => exact ⟨trivial, rfl⟩
  | waits hl hn he hd => exact ⟨trivial, rfl⟩
  | _ => exact ⟨⟨by simp, trivial⟩, rfl⟩

/-- The session that a request of a log was carried out for. -/
theorem session_of_served {s s' : Session} {r : Request}
    (h : Continues s (earlier ++ .served source p s' r :: later)) : s' = sessionAfter s earlier :=
  (continues_append.mp h).2.1 source p s' r rfl

end Connection
end MiningPool

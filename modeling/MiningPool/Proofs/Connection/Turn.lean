import MiningPool.Connection

/-!
# What a connection does in a turn

A `Deed` is something a connection does that others may notice. `deeds` are those of one turn, and `Takes`
lists all that a turn can come to: what held before it, the deeds, and what it leaves. `turn_takes` says that
the list is complete, so whatever is proved of connections is proved case by case along `Takes` and no proof
opens a turn again.
-/

namespace MiningPool

open Json Net Wire

/-! ## What a turn leaves -/

def Turn.connection : Turn → Connection
  | .waits c => c
  | .acts progress => progress.connection

/-- The pool after a turn that began with some pool. -/
def Turn.pool (p : Pool) : Turn → Pool
  | .waits _ => p
  | .acts progress => progress.pool

namespace Connection

/-! ## Deeds -/

/-- Why a connection is over. -/
inductive Ending where
  | shutdown
  /-- It was asked to close, or is registered no more. -/
  | killed
  | banned
  /-- Its miner sends no more. -/
  | hungUp
  /-- Its miner was not heard for too long. -/
  | idle
  | broken
  /-- It was ended from outside, whatever it was doing. -/
  | cutOff
  deriving DecidableEq, Repr

/-- Whether something may be left unwritten. -/
def Ending.isAbrupt : Ending → Bool
  | .broken | .cutOff => true
  | _ => false

/-- Something that a connection does. -/
inductive Deed where
  /-- It writes a message that waited. -/
  | forwarded (m : Message)
  /-- It has a request carried out, in a pool and for a session as they were, and writes the answer. -/
  | served (source : Source) (p : Pool) (s : Session) (r : Request)
  /-- It tells admission of a line that is no request, and answers it if it was too large and went unpunished. -/
  | noted (fault : Fault) (verdict : Verdict)
  /-- It tells admission of a share. -/
  | reported (accepted : Bool) (verdict : Verdict)
  | ended (why : Ending)

/-- A deed that admission has a say about. If it says that the address should be banned, that is the end. -/
def judged (d : Verdict → Deed) : Verdict → List Deed
  | .allowed => [d .allowed]
  | .banned => [d .banned, .ended .banned]

/-- What a connection does in its next turn. -/
def deeds (source : Source) (now : Instant) (p : Pool) (c : Connection) : List Deed :=
  match c.phase with
  | .closed _ => []
  | .writing left afterwards =>
    if c.client.gone then [.ended .broken]
    else if (c.client.write left).1.isEmpty then
      match afterwards with
      | .nothing => []
      | .report accepted => judged (.reported accepted) (p.admission.recordShare c.peer.ip accepted).1
    else []
  | .waiting =>
    if c.stopping then [.ended .shutdown]
    else if p.roster.mustClose c.id then [.ended .killed]
    else
      match (p.roster.take c.id).1 with
      | .message m => [.forwarded m]
      | _ =>
        match (c.nextLine p).1 with
        | some (.message r) => [.served source p c.session r]
        | some (.faulty fault) => judged (.noted fault) (p.admission.recordMalformed c.peer.ip).1
        | none =>
          if c.client.finished || c.client.gone then [.ended .hungUp]
          else if c.deadline ≤ now then [.ended .idle]
          else []

/-! ## All that a turn can come to -/

/-- It has nothing to write and is not to close. -/
structure Attends (p : Pool) (c : Connection) : Prop where
  phase : c.phase = .waiting
  stopping : c.stopping = false
  mustClose : p.roster.mustClose c.id = false

/-- No message waits for it either. -/
structure Listens (p : Pool) (c : Connection) : Prop extends Attends p c where
  take : ∀ m, (p.roster.take c.id).1 ≠ .message m

/-- The answer to a line that was too large. -/
def refusal (limit : Nat) : Message := .response (.ofError .null (Fault.tooLarge limit).triple)

/-- What one turn may come to, with its deeds. -/
inductive Takes (source : Source) (now : Instant) (p : Pool) (c : Connection) : List Deed → Turn → Prop
  | stays {fault : Option Fault} (hp : c.phase = .closed fault) : Takes source now p c [] (.waits c)
  | broken {left : Bytes} {afterwards : Afterwards} (hp : c.phase = .writing left afterwards)
      (hg : c.client.gone = true) :
      Takes source now p c [.ended .broken] (.acts (c.close p (some brokenPipe) none))
  | writes {left rest : Bytes} {afterwards : Afterwards} {client : Client}
      (hp : c.phase = .writing left afterwards) (hg : c.client.gone = false)
      (hw : c.client.write left = (rest, client)) (hr : rest ≠ []) :
      Takes source now p c [] (.waits { c with client := client, phase := .writing rest afterwards })
  | wrote {left : Bytes} {client : Client} (hp : c.phase = .writing left .nothing)
      (hg : c.client.gone = false) (hw : c.client.write left = ([], client)) :
      Takes source now p c [] (.acts ⟨{ c with client := client, phase := .waiting }, p, none⟩)
  | reports {left : Bytes} {accepted : Bool} {client : Client} {a : Admission}
      (hp : c.phase = .writing left (.report accepted)) (hg : c.client.gone = false)
      (hw : c.client.write left = ([], client))
      (hv : p.admission.recordShare c.peer.ip accepted = (.allowed, a)) :
      Takes source now p c [.reported accepted .allowed]
        (.acts ⟨{ c with client := client, phase := .waiting }, { p with admission := a }, none⟩)
  | condemned {left : Bytes} {accepted : Bool} {client : Client} {a : Admission}
      (hp : c.phase = .writing left (.report accepted)) (hg : c.client.gone = false)
      (hw : c.client.write left = ([], client))
      (hv : p.admission.recordShare c.peer.ip accepted = (.banned, a)) :
      Takes source now p c [.reported accepted .banned, .ended .banned]
        (.acts ({ c with client := client, phase := .writing [] (.report accepted) }.banPeer now
          { p with admission := a }))
  | stops (hp : c.phase = .waiting) (hs : c.stopping = true) :
      Takes source now p c [.ended .shutdown] (.acts (c.close p none none))
  | yields (hp : c.phase = .waiting) (hs : c.stopping = false) (hk : p.roster.mustClose c.id = true) :
      Takes source now p c [.ended .killed] (.acts (c.close p none none))
  | forwards {m : Message} {q : Roster} (ha : c.Attends p) (hm : p.roster.take c.id = (.message m, q)) :
      Takes source now p c [.forwarded m] (.acts ⟨c.write m.bytes .nothing, { p with roster := q }, none⟩)
  | serves {r : Request} {f : Framer} {o : Outcome} (hl : c.Listens p)
      (hn : c.nextLine p = (some (.message r), f)) (ho : p.answer source c.session r = o) :
      Takes source now p c [.served source p c.session r]
        (.acts
          ⟨{ c with
              framer := f
              deadline := now + p.settings.mining.idleTimeout
              session := o.session
              phase := .writing ((o.messages r.id).flatMap Message.bytes)
                (shareBetween c.session o.session) },
            { o.pool with roster := o.pool.roster.publish c.id (o.session.snapshot c.peer) }, o.handed⟩)
  | refuses {limit : Nat} {f : Framer} {a : Admission} (hl : c.Listens p)
      (hn : c.nextLine p = (some (.faulty (.tooLarge limit)), f))
      (hv : p.admission.recordMalformed c.peer.ip = (.allowed, a)) :
      Takes source now p c [.noted (.tooLarge limit) .allowed]
        (.acts
          ⟨{ c with
              framer := f
              deadline := now + p.settings.mining.idleTimeout
              phase := .writing (refusal limit).bytes .nothing },
            { p.count .malformedLine with admission := a }, none⟩)
  | drops {fault : Fault} {f : Framer} {a : Admission} (hl : c.Listens p)
      (hn : c.nextLine p = (some (.faulty fault), f)) (hf : ∀ limit, fault ≠ .tooLarge limit)
      (hv : p.admission.recordMalformed c.peer.ip = (.allowed, a)) :
      Takes source now p c [.noted fault .allowed]
        (.acts
          ⟨{ c with framer := f, deadline := now + p.settings.mining.idleTimeout },
            { p.count .malformedLine with admission := a }, none⟩)
  | bans {fault : Fault} {f : Framer} {a : Admission} (hl : c.Listens p)
      (hn : c.nextLine p = (some (.faulty fault), f))
      (hv : p.admission.recordMalformed c.peer.ip = (.banned, a)) :
      Takes source now p c [.noted fault .banned, .ended .banned]
        (.acts ({ c with framer := f, deadline := now + p.settings.mining.idleTimeout }.banPeer now
          { p.count .malformedLine with admission := a }))
  | hangsUp {f : Framer} (hl : c.Listens p) (hn : c.nextLine p = (none, f))
      (he : (c.client.finished || c.client.gone) = true) :
      Takes source now p c [.ended .hungUp] (.acts ({ c with framer := f }.close p none none))
  | idles {f : Framer} (hl : c.Listens p) (hn : c.nextLine p = (none, f))
      (he : (c.client.finished || c.client.gone) = false) (hd : c.deadline ≤ now) :
      Takes source now p c [.ended .idle] (.acts ({ c with framer := f }.close p none none))
  | waits {f : Framer} (hl : c.Listens p) (hn : c.nextLine p = (none, f))
      (he : (c.client.finished || c.client.gone) = false) (hd : now < c.deadline) :
      Takes source now p c [] (.waits { c with framer := f })

variable {source : Source} {now : Instant} {p : Pool} {c : Connection}

theorem flush_takes {left : Bytes} {afterwards : Afterwards} (hp : c.phase = .writing left afterwards) :
    Takes source now p c (deeds source now p c) (c.flush now p left afterwards) := by
  rw [deeds, hp, flush]
  dsimp only
  by_cases hg : c.client.gone = true
  · rw [if_pos hg, if_pos hg]
    exact .broken hp hg
  · rw [if_neg hg, if_neg hg]
    rw [Bool.not_eq_true] at hg
    rcases hw : c.client.write left with ⟨rest, client⟩
    dsimp only
    cases rest with
    | cons b bs => exact .writes hp hg hw (List.cons_ne_nil b bs)
    | nil =>
        cases afterwards with
        | nothing => exact .wrote hp hg hw
        | report accepted =>
            rcases hv : p.admission.recordShare c.peer.ip accepted with ⟨verdict, a⟩
            simp only [List.isEmpty_nil, if_true, wrote, hv]
            cases verdict with
            | allowed => exact .reports hp hg hw hv
            | banned => exact .condemned hp hg hw hv

theorem complain_takes {fault : Fault} {f : Framer} (hl : c.Listens p)
    (hn : c.nextLine p = (some (.faulty fault), f)) :
    Takes source now p c (judged (.noted fault) (p.admission.recordMalformed c.peer.ip).1)
      (.acts ({ c with framer := f }.receive source now p (.faulty fault))) := by
  rcases hv : p.admission.recordMalformed c.peer.ip with ⟨verdict, a⟩
  have hcount : (p.count .malformedLine).admission.recordMalformed c.peer.ip = (verdict, a) := hv
  rw [receive, complain]
  dsimp only
  rw [hcount]
  cases verdict with
  | banned => exact .bans hl hn hv
  | allowed =>
      dsimp only
      split
      · rename_i h; simp at h
      · exact .refuses hl hn hv
      · rename_i hf
        exact .drops hl hn (fun limit he => hf limit he) hv

theorem deeds_of_listens (hl : c.Listens p) :
    deeds source now p c
      = match (c.nextLine p).1 with
        | some (.message r) => [.served source p c.session r]
        | some (.faulty fault) => judged (.noted fault) (p.admission.recordMalformed c.peer.ip).1
        | none =>
          if c.client.finished || c.client.gone then [.ended .hungUp]
          else if c.deadline ≤ now then [.ended .idle]
          else [] := by
  rw [deeds, hl.phase]
  dsimp only
  rw [hl.stopping, hl.mustClose]
  simp only [Bool.false_eq_true, if_false]
  split
  · rename_i m hm
    exact absurd hm (hl.take m)
  · rfl

theorem listen_takes (hl : c.Listens p) :
    Takes source now p c (deeds source now p c) (c.listen source now p) := by
  rw [deeds_of_listens hl, listen]
  rcases hn : c.nextLine p with ⟨item, f⟩
  dsimp only
  cases item with
  | some item =>
      cases item with
      | message r => exact .serves hl hn rfl
      | faulty fault => exact complain_takes hl hn
  | none =>
      dsimp only
      by_cases he : (c.client.finished || c.client.gone) = true
      · simp only [he, if_true, Bool.true_or]
        exact .hangsUp hl hn he
      · rw [Bool.not_eq_true] at he
        by_cases hd : c.deadline ≤ now
        · simp only [he, hd, Bool.false_eq_true, if_false, if_true, decide_true, Bool.or_true]
          exact .idles hl hn he hd
        · simp only [he, hd, Bool.false_eq_true, if_false, decide_false, Bool.or_false]
          exact .waits hl hn he (Nat.lt_of_not_le hd)

/-- **A turn comes to one of what `Takes` lists, with the deeds it says.** -/
theorem turn_takes (source : Source) (now : Instant) (p : Pool) (c : Connection) :
    Takes source now p c (deeds source now p c) (c.turn source now p) := by
  cases hp : c.phase with
  | closed fault =>
      rw [turn, deeds, hp]
      exact .stays hp
  | writing left afterwards =>
      have h : Takes source now p c (deeds source now p c) (c.flush now p left afterwards) := flush_takes hp
      rw [turn, hp]
      exact h
  | waiting =>
      by_cases hs : c.stopping = true
      · rw [turn, deeds, hp]
        simp only [hs, if_true, Bool.true_or]
        exact .stops hp hs
      rw [Bool.not_eq_true] at hs
      by_cases hk : p.roster.mustClose c.id = true
      · rw [turn, deeds, hp]
        simp only [hs, hk, if_true, Bool.false_or, Bool.false_eq_true, if_false]
        exact .yields hp hs hk
      rw [Bool.not_eq_true] at hk
      have ha : c.Attends p := ⟨hp, hs, hk⟩
      rw [turn, hp]
      simp only [hs, hk, Bool.or_self, Bool.false_eq_true, if_false]
      split
      · rename_i m q hm
        have hdeeds : deeds source now p c = [.forwarded m] := by
          rw [deeds, hp]
          simp only [hs, hk, hm, Bool.false_eq_true, if_false]
        rw [hdeeds]
        exact .forwards ha hm
      · rename_i hm
        refine listen_takes ⟨ha, fun m hc => ?_⟩
        exact hm m (p.roster.take c.id).2 (Prod.ext hc rfl)

end Connection
end MiningPool

import Mathlib.Logic.Relation
import MiningPool.Proofs.World.Bans

/-!
# Between being let in and being registered

Admission lets a connection in first, and only then is it registered, where a ban can reach it. A `Doorway` keeps
those in between. Others may act while they are there, and a ban that comes then finds nobody to ask: whoever slips
past it is connected from a banned address and was not asked to close.

Nobody else does. When an address is banned, all its connections were asked to close but those that stood at the
door at the last ban.
-/

namespace MiningPool

open Net Wire Connection

/-- A pool with those that were let in and are not registered yet. -/
structure Doorway where
  pool : Pool
  now : Instant
  /-- The ids and addresses of those that were let in and are not registered yet. -/
  pending : List (Nat × Socket)

namespace Doorway

/-! ## What may happen -/

def fresh (settings : Settings) : Doorway := ⟨.fresh settings, 0, []⟩

/-- Someone has an address banned, or the turn of one of its connections leads to it. -/
inductive Bans (ip : Ip) (d : Doorway) : Pool → Prop where
  | asked : Bans ip d (d.pool.banPeer d.now ip).2
  | earned (source : Source) (c : Connection) (hip : c.peer.ip = ip)
      (h : .ended .banned ∈ deeds source d.now d.pool c) : Bans ip d ((c.turn source d.now d.pool).pool d.pool)

/-- What may happen next. Turns are those of any connection, whatever its state. -/
inductive Step : Doorway → Doorway → Prop where
  | enters {d : Doorway} (peer : Socket) (limit : Option Nat) {id : Nat} {p : Pool}
      (h : d.pool.enter d.now peer.ip limit = (.ok id, p)) :
      Step d { d with pool := p, pending := d.pending ++ [(id, peer)] }
  | registers {d : Doorway} {id : Nat} {peer : Socket} (h : (id, peer) ∈ d.pending) :
      Step d { d with pool := d.pool.register id peer, pending := d.pending.erase (id, peer) }
  | turn {d : Doorway} (source : Source) (c : Connection) :
      Step d { d with pool := (c.turn source d.now d.pool).pool d.pool }
  /-- A connection is ended from outside. -/
  | cuts {d : Doorway} (c : Connection) : Step d { d with pool := (c.close d.pool none none).pool }
  | meanwhile {d : Doorway} {p : Pool} (h : Pool.Meanwhile d.now d.pool p) : Step d { d with pool := p }
  | passes {d : Doorway} {now : Instant} (h : d.now ≤ now) : Step d { d with now := now }

abbrev Steps : Doorway → Doorway → Prop := Relation.ReflTransGen Step

/-- What can be reached under some settings. -/
def Reachable (settings : Settings) (d : Doorway) : Prop := Steps (fresh settings) d

/-- A ban is a step, whichever way it comes about. -/
theorem Bans.step {ip : Ip} {d : Doorway} {p : Pool} (h : Bans ip d p) : Step d { d with pool := p } := by
  cases h with
  | asked => exact .meanwhile (.banned ip)
  | earned source c hip h => exact .turn source c

/-! ## What a step does -/

variable {d d' u : Doorway} {ip : Ip} {settings : Settings}

/-- What a step does to those that are registered, to those at the door, and to bans. -/
structure Proceeds (d d' : Doorway) : Prop where
  now : d.now ≤ d'.now
  admission : ∃ cs, d'.pool.admission = d.pool.admission.calls d.now cs
    ∧ ∀ ip, .ban ip ∈ cs → ∃ p, Bans ip d p ∧ d' = { d with pool := p }
  /-- An entry was there before, or it is that of someone at the door. -/
  entries : ∀ id, d.pool.roster.Stays id d'.pool.roster
    ∨ ∃ peer, (id, peer) ∈ d.pending ∧ ∀ e, d'.pool.roster.get? id = some e → e.peer = peer ∧ e.listening = true
  /-- Whoever comes to the door was let in by admission. -/
  pending : ∀ g ∈ d'.pending, g ∈ d.pending ∨ (d.pool.admission.letIn d.now g.2.ip).1 = .admitted

theorem proceeds_of_step (h : Step d d') : Proceeds d d' := by
  cases h with
  | @enters peer limit id p henter =>
      obtain ⟨_, _, a, hin, hp⟩ := Pool.enter_seat henter
      refine ⟨Nat.le_refl _, ⟨[.letIn peer.ip], ?_, by simp⟩, fun id => Or.inl ?_, fun g hg => ?_⟩
      · show p.admission = (d.pool.admission.letIn d.now peer.ip).2
        rw [hp, hin]
      · exact (Roster.lasts_of_same (congrArg (·.get? id) (Pool.enter_ok henter).2.2.2)).stays
      · rcases List.mem_append.mp hg with hold | hnew
        · exact Or.inl hold
        · rw [List.mem_singleton.mp hnew, hin]
          exact Or.inr rfl
  | @registers id peer hpending =>
      refine ⟨Nat.le_refl _, ⟨[], rfl, by simp⟩, fun l => ?_, fun g hg => Or.inl (List.mem_of_mem_erase hg)⟩
      by_cases hl : l = id
      · subst hl
        refine Or.inr ⟨peer, hpending, fun e he => ?_⟩
        have hregistered := Roster.get?_register_self d.pool.roster l
          (.fresh peer Roster.outboxCapacity ((d.pool.session l).snapshot peer))
        have hsome := hregistered.symm.trans he
        rw [Option.some.injEq] at hsome
        rw [← hsome]
        exact ⟨rfl, rfl⟩
      · exact Or.inl (Roster.lasts_register d.pool.roster hl _).stays
  | turn source c =>
      have htakes := turn_takes source d.now d.pool c
      refine ⟨Nat.le_refl _, ⟨_, admission_turn htakes, fun ip hmem => ⟨_, ?_, rfl⟩⟩,
        fun id => Or.inl (stays_turn htakes id), fun g hg => Or.inl hg⟩
      obtain ⟨deed, hdeed, hcall⟩ := List.mem_flatMap.mp hmem
      obtain ⟨hip, rfl⟩ := eq_banned_of_call hcall
      exact .earned source c hip hdeed
  | cuts c =>
      exact ⟨Nat.le_refl _, ⟨[.release c.peer.ip], rfl, by simp⟩, fun id => Or.inl (lasts_close d.pool c none id).stays,
        fun g hg => Or.inl hg⟩
  | meanwhile hm =>
      obtain ⟨cs, hcs, _, hbans⟩ := Pool.calls_meanwhile hm
      refine ⟨Nat.le_refl _, ⟨cs, hcs, fun ip hmem => ⟨_, .asked, by rw [hbans ip hmem]⟩⟩,
        fun id => Or.inl (Pool.lasts_meanwhile hm id).stays, fun g hg => Or.inl hg⟩
  | passes hle => exact ⟨hle, ⟨[], rfl, by simp⟩, fun id => Or.inl (Roster.Lasts.refl id _).stays, fun g hg => Or.inl hg⟩

/-! ## What holds at all times -/

/-- No address is remembered twice, and everyone would notice being asked to close. -/
structure Sound (d : Doorway) : Prop where
  distinct : d.pool.admission.Distinct
  listening : ∀ id e, d.pool.roster.get? id = some e → e.listening = true

theorem sound_fresh (settings : Settings) : (fresh settings).Sound :=
  ⟨Admission.distinct_fresh settings.policy, fun _ _ he => absurd he (by simp [fresh, Pool.fresh, Roster.empty,
    Roster.get?, Keyed.get?])⟩

theorem sound_step (h : Step d d') (hs : d.Sound) : d'.Sound := by
  have hproceeds := proceeds_of_step h
  constructor
  case distinct =>
    obtain ⟨cs, hcs, _⟩ := hproceeds.admission
    rw [hcs]
    exact (Admission.limits_calls hs.distinct d.now cs).2
  case listening =>
    intro id e' he'
    rcases hproceeds.entries id with hstays | ⟨_, _, hnew⟩
    · obtain ⟨e, he, hcontinues⟩ := hstays e' he'
      rw [hcontinues.listening]
      exact hs.listening id e he
    · exact (hnew e' he').2

theorem sound_reachable (h : Reachable settings d) : d.Sound := by
  induction h with
  | refl => exact sound_fresh settings
  | tail _ hstep ih => exact sound_step hstep ih

/-! ## Since a ban -/

/-- Whoever is connected from an address was asked to close, but for those that stood at the door once. -/
structure Since (ip : Ip) (u d : Doorway) : Prop where
  applies : d.pool.admission.appliesTo ip = true
  entries : ∀ id e, d.pool.roster.get? id = some e → e.peer.ip = ip → e.killed = true ∨ (id, e.peer) ∈ u.pending
  pending : ∀ g ∈ d.pending, g.2.ip = ip → g ∈ u.pending

/-- **A ban asks all that are registered.** -/
theorem since_ban {p : Pool} (hs : d.Sound) (happlies : d.pool.admission.appliesTo ip = true) (h : Bans ip d p) :
    Since ip d { d with pool := p } := by
  have hasked : ∀ id e, (d.pool.roster.killIp ip).2.get? id = some e → e.peer.ip = ip → e.killed = true := by
    intro id e' he' hip
    rw [Roster.get?_killIp] at he'
    obtain ⟨e, he, rfl⟩ := Option.map_eq_some_iff.mp he'
    split at hip
    · rename_i hyes
      rw [if_pos hyes, Roster.Entry.askToClose, if_pos (hs.listening id e he)]
    · rename_i hno
      exact absurd hip hno
  cases h with
  | asked =>
      obtain ⟨hroster, hadmission⟩ := Pool.banPeer_of_applies d.now happlies
      refine ⟨?_, fun id e he hip => Or.inl ?_, fun g hg _ => hg⟩
      · dsimp only
        rw [hadmission]
        exact (Admission.appliesTo_calls hs.distinct d.now [.ban ip] ip).trans happlies
      · dsimp only at he
        rw [hroster] at he
        exact hasked id e he hip
  | earned source c hip hdeed =>
      subst hip
      have htakes := turn_takes source d.now d.pool c
      have hroster := roster_of_banned htakes hdeed hs.distinct happlies
      refine ⟨?_, fun id e he hip => Or.inl ?_, fun g hg _ => hg⟩
      · dsimp only
        rw [admission_turn htakes, Admission.appliesTo_calls hs.distinct]
        exact happlies
      · dsimp only at he
        rw [hroster] at he
        -- the offender itself is not registered any more
        by_cases hid : id = c.id
        · rw [hid, Roster.get?_leave_self] at he
          exact absurd he (by simp)
        · exact hasked id e ((Roster.get?_deregister_of_ne _ hid).symm.trans he) hip

/-- **Whatever follows a ban while it runs, nobody else slips in.** -/
theorem since_step (hs : d.Sound) (h : Step d d') (hbanned : (d.pool.admission.record ip).isBanned d.now = true)
    (hsince : Since ip u d) : Since ip u d' := by
  have hproceeds := proceeds_of_step h
  obtain ⟨cs, hcs, _⟩ := hproceeds.admission
  refine ⟨?_, fun id e' he' hip => ?_, fun g hg hip => ?_⟩
  · rw [hcs, Admission.appliesTo_calls hs.distinct]
    exact hsince.applies
  · rcases hproceeds.entries id with hstays | ⟨peer, hpending, hnew⟩
    · obtain ⟨e, he, hcontinues⟩ := hstays e' he'
      rw [hcontinues.peer] at hip ⊢
      rcases hsince.entries id e he hip with hkilled | hdoor
      · exact Or.inl (hcontinues.killed hkilled)
      · exact Or.inr hdoor
    · obtain ⟨hpeer, _⟩ := hnew e' he'
      rw [hpeer] at hip ⊢
      exact Or.inr (hsince.pending (id, peer) hpending hip)
  · rcases hproceeds.pending g hg with hold | hlet
    · exact hsince.pending g hold hip
    · rw [hip, Admission.letIn_of_isBanned hsince.applies hbanned] at hlet
      exact absurd hlet (by simp)

/-- A ban that runs after a step was made by it, or it ran before. -/
theorem banned_of_step (hs : d.Sound) (h : Step d d') (hbanned : (d'.pool.admission.record ip).isBanned d'.now = true) :
    (∃ p, Bans ip d p ∧ d' = { d with pool := p } ∧ d.pool.admission.appliesTo ip = true)
      ∨ (d.pool.admission.record ip).isBanned d.now = true := by
  have hproceeds := proceeds_of_step h
  obtain ⟨cs, hcs, hbans⟩ := hproceeds.admission
  by_cases hmem : .ban ip ∈ cs ∧ d.pool.admission.appliesTo ip = true
  · obtain ⟨p, hp, hd'⟩ := hbans ip hmem.1
    exact Or.inl ⟨p, hp, hd', hmem.2⟩
  · refine Or.inr ?_
    rw [Record.isBanned] at hbanned
    cases hdeadline : (d'.pool.admission.record ip).bannedUntil with
    | none => rw [hdeadline] at hbanned; exact absurd hbanned (by simp)
    | some deadline =>
        rw [hdeadline] at hbanned
        have hlt : d.now < deadline := Nat.lt_of_le_of_lt hproceeds.now (of_decide_eq_true hbanned)
        rw [hcs] at hdeadline
        have hnone : .ban ip ∈ cs → d.pool.admission.appliesTo ip = false := by
          intro hin
          rw [← Bool.not_eq_true]
          exact fun happlies => hmem ⟨hin, happlies⟩
        rcases Admission.bannedUntil_calls hs.distinct d.now hnone with hsame | ⟨_, hgone⟩
        · exact Record.isBanned_eq_true (hsame.symm.trans hdeadline) hlt
        · rw [hgone] at hdeadline
          exact absurd hdeadline (by simp)

/--
**Whoever is connected from a banned address and was not asked to close stood at the door.**

While an address is banned, look back at its last ban: all of its connections that are registered now were asked to
close, but for those that had been let in and were not registered yet when the ban came.
-/
theorem unasked_stood_at_the_door (h : Reachable settings d)
    (hbanned : (d.pool.admission.record ip).isBanned d.now = true) :
    ∃ u p, Reachable settings u ∧ Bans ip u p ∧ Steps { u with pool := p } d
      ∧ (∀ id e, d.pool.roster.get? id = some e → e.peer.ip = ip → e.killed = true ∨ (id, e.peer) ∈ u.pending)
      ∧ ∀ g ∈ d.pending, g.2.ip = ip → g ∈ u.pending := by
  have hsince : ∃ u p, Reachable settings u ∧ Bans ip u p ∧ Steps { u with pool := p } d ∧ Since ip u d := by
    induction h with
    | refl => exact absurd hbanned (by simp [fresh, Pool.fresh, Admission.fresh, Admission.record, Keyed.get?,
        Record.blank, Record.isBanned])
    | @tail d d' hd hstep ih =>
        have hs := sound_reachable hd
        rcases banned_of_step hs hstep hbanned with ⟨p, hp, rfl, happlies⟩ | hearlier
        · exact ⟨d, p, hd, hp, .refl, since_ban hs happlies hp⟩
        · obtain ⟨u, p, hu, hp, hsteps, hsince⟩ := ih hearlier
          exact ⟨u, p, hu, hp, hsteps.tail hstep, since_step hs hstep hearlier hsince⟩
  obtain ⟨u, p, hu, hp, hsteps, hsince⟩ := hsince
  exact ⟨u, p, hu, hp, hsteps, hsince.entries, hsince.pending⟩

/-- One miner is registered and a second one of its address stands at the door when the address is banned. The first
was asked to close, and the second stood at the door. -/
theorem unasked_stood_at_the_door_second :
    let first : Socket := ⟨.v4 1, 50001⟩
    let second : Socket := ⟨.v4 1, 50002⟩
    let registered := (((Pool.fresh .standard).enter 0 (.v4 1) none).2).register 1 first
    let banned := ((registered.enter 0 (.v4 1) none).2.banPeer 0 (.v4 1)).2
    let d : Doorway := ⟨banned.register 2 second, 0, []⟩
    Reachable .standard d ∧ (d.pool.admission.record (.v4 1)).isBanned d.now = true
      ∧ d.pool.roster.entries.map (fun e => (e.1, e.2.killed)) = [(1, true), (2, false)]
      ∧ ∃ u : Doorway, Reachable .standard u ∧ (2, second) ∈ u.pending := by
  intro first second registered banned d
  have hone : Steps (fresh .standard) ⟨registered, 0, []⟩ :=
    (Relation.ReflTransGen.single (Step.enters first none rfl)).tail
      (.registers List.mem_cons_self)
  have htwo : Steps ⟨registered, 0, []⟩ d :=
    ((Relation.ReflTransGen.single (Step.enters second none rfl)).tail
      (.meanwhile (.banned (.v4 1)))).tail (.registers List.mem_cons_self)
  have hd : Reachable .standard d := hone.trans htwo
  have hbanned : (d.pool.admission.record (.v4 1)).isBanned d.now = true := by decide +kernel
  refine ⟨hd, hbanned, by decide +kernel, ?_⟩
  obtain ⟨u, p, hu, _, _, hentries, _⟩ := unasked_stood_at_the_door hd hbanned
  have hsecond := hentries 2 (.fresh second Roster.outboxCapacity ((banned.session 2).snapshot second))
    (by decide +kernel) rfl
  rcases hsecond with hkilled | hdoor
  · exact absurd hkilled (by decide)
  · exact ⟨u, hu, hdoor⟩

/-- A miner is let in, its address is banned, and the miner is registered: it is connected from a banned address and
nobody has asked it to close. -/
theorem slips_past_a_ban :
    let peer : Socket := ⟨.v4 1, 50001⟩
    let entered := ((Pool.fresh .standard).enter 0 (.v4 1) none).2
    let d : Doorway := ⟨(entered.banPeer 0 (.v4 1)).2.register 1 peer, 0, []⟩
    Reachable .standard d ∧ (d.pool.admission.record (.v4 1)).isBanned d.now = true
      ∧ ∃ e, d.pool.roster.get? 1 = some e ∧ e.peer.ip = .v4 1 ∧ e.killed = false := by
  intro peer entered d
  have hd : Steps (fresh .standard) d :=
    ((Relation.ReflTransGen.single (Step.enters peer none rfl)).tail
      (.meanwhile (.banned (.v4 1)))).tail (.registers List.mem_cons_self)
  refine ⟨hd, by decide +kernel,
    .fresh peer Roster.outboxCapacity (((entered.banPeer 0 (.v4 1)).2.session 1).snapshot peer), ?_⟩
  exact ⟨by decide +kernel, rfl, rfl⟩

end Doorway
end MiningPool

import MiningPool.Proofs.Admission.Offences
import MiningPool.Proofs.Admission.Terms

/-!
# Sweeps go unnoticed

A sweep lifts the bans that have run out and forgets every address that has no connection and no ban. What it throws
away nobody asks for: whether an address is banned depends on when it was last banned, and how many connections are
counted for it on who was let in and let go. So two admissions of which only one is swept are `Alike` from call to
call, and all who ask to be let in, ask for a ban or ban somebody get the same answer from both.

What a sweep leaves is exactly what matters. Bad lines and shares are not among it, so their verdicts are left out here.
-/

namespace MiningPool

open Net

namespace Admission

/-! ## What is asked, and what is answered -/

/-- The calls whose answer tells of bans and connections. -/
def Call.asks : Call → Bool
  | .letIn _ | .isBanned _ | .ban _ => true
  | _ => false

/-- The address whose connection a call lets go. -/
def Call.released? : Call → Option Ip
  | .release ip => some ip
  | _ => none

/-- Calls that are made one after the other, each with its answer. -/
def answered (a : Admission) : List (Instant × Call) → List (Call × Answer)
  | [] => []
  | (now, c) :: log => (c, a.answer now c) :: answered (a.call now c) log

/-- How many connections from an address were let in. -/
def entrances (ip : Ip) (a : Admission) (log : List (Instant × Call)) : Nat :=
  (a.answered log).count (.letIn ip, .entrance .admitted)

/-- How many connections from an address were let go. -/
def exits (ip : Ip) (log : List (Instant × Call)) : Nat := (log.map (·.2)).count (.release ip)

/-- Each connection that is let go was let in before, and is not let go twice. -/
def Paired (a : Admission) (log : List (Instant × Call)) : Prop :=
  ∀ n (h : n < log.length), ∀ ip ∈ log[n].2.released?, exits ip (log.take n) < entrances ip a (log.take n)

instance (a : Admission) (log : List (Instant × Call)) : Decidable (Paired a log) :=
  inferInstanceAs (Decidable (∀ n (_ : n < log.length), _))

/-- A log without its sweeps. -/
def unswept (log : List (Instant × Call)) : List (Instant × Call) := log.filter (·.2 ≠ .sweep)

variable {limits : Settings.Limits} {a b : Admission} {ip l : Ip} {now t : Instant} {c : Call}
  {log more : List (Instant × Call)}

theorem answered_append (a : Admission) (log more : List (Instant × Call)) :
    a.answered (log ++ more) = a.answered log ++ (a.replay log).answered more := by
  induction log generalizing a with
  | nil => rfl
  | cons e log ih => exact congrArg ((e.2, a.answer e.1 e.2) :: ·) (ih (a.call e.1 e.2))

theorem entrances_append (ip : Ip) (a : Admission) (log more : List (Instant × Call)) :
    entrances ip a (log ++ more) = entrances ip a log + entrances ip (a.replay log) more := by
  rw [entrances, answered_append, List.count_append]
  rfl

theorem exits_append (ip : Ip) (log more : List (Instant × Call)) :
    exits ip (log ++ more) = exits ip log + exits ip more := by
  rw [exits, List.map_append, List.count_append]
  rfl

theorem paired_append_singleton {e : Instant × Call} (h : Paired a (log ++ [e])) :
    Paired a log ∧ ∀ ip ∈ e.2.released?, exits ip log < entrances ip a log := by
  refine ⟨fun n hn ip hip => ?_, fun ip hip => ?_⟩
  · have hlonger : n < (log ++ [e]).length := by simp; omega
    have hbefore := h n hlonger ip (by rwa [List.getElem_append_left hn])
    rwa [List.take_append_of_le_length (Nat.le_of_lt hn)] at hbefore
  · have hlast := h log.length (by simp) ip (by simpa using hip)
    rwa [List.take_left' rfl] at hlast

/-! ## What answers and counts depend on -/

/-- Whether a connection is let in depends on whether its address is banned, and how many it has. -/
theorem letIn_eq (a : Admission) (now : Instant) (ip : Ip) :
    (a.letIn now ip).1 = if (a.isBanned now ip).1 = true then .banned
      else if a.appliesTo ip = true ∧ a.limits.maxConnectionsPerIp ≤ a.connectionsFrom ip then .tooManyConnections
      else .admitted := by
  rw [isBanned_eq]
  cases happlies : a.appliesTo ip with
  | false =>
      rw [letIn, happlies]
      simp
  | true =>
      have hsettled : (a.modify ip (·.settle now)).record ip = (a.record ip).settle now := record_modify_self a ip _
      have hconnections : ((a.record ip).settle now).connections = a.connectionsFrom ip :=
        (a.record ip).settle_connections now
      rw [letIn, happlies]
      dsimp only [Bool.not_true]
      rw [if_neg (by decide), hsettled, Record.isSome_settle, hconnections, Bool.true_and]
      by_cases hbanned : (a.record ip).isBanned now = true
      · rw [if_pos hbanned, if_pos hbanned]
      · rw [if_neg hbanned, if_neg hbanned]
        show (if a.limits.maxConnectionsPerIp ≤ a.connectionsFrom ip then (_ : Entrance × Admission) else _).1 = _
        by_cases hmany : a.limits.maxConnectionsPerIp ≤ a.connectionsFrom ip
        · rw [if_pos hmany, if_pos ⟨rfl, hmany⟩]
        · rw [if_neg hmany, if_neg fun hboth => hmany hboth.2]

/-- Only letting in and letting go changes a count. -/
theorem keeps_call (hd : a.Distinct) (now : Instant) (hin : ∀ l, c ≠ .letIn l) (hout : ∀ l, c ≠ .release l) :
    Keeps a (a.call now c) := by
  cases c with
  | letIn l => exact absurd rfl (hin l)
  | release l => exact absurd rfl (hout l)
  | isBanned l => exact keeps_isBanned hd now l
  | ban l => exact keeps_ban hd now l
  | malformed l => exact keeps_recordMalformed hd l
  | share l accepted => exact keeps_recordShare hd l accepted
  | sweep => exact keeps_sweep hd now

/-- **Whoever is let in is counted, and whoever is let go is so no more.** -/
theorem connectionsFrom_call (hd : a.Distinct) (happlies : a.appliesTo ip = true) (now : Instant) (c : Call) :
    (a.call now c).connectionsFrom ip
      = a.connectionsFrom ip + entrances ip a [(now, c)] - exits ip [(now, c)] := by
  have hentrances : entrances ip a [(now, c)]
      = if c = .letIn ip ∧ a.answer now c = .entrance .admitted then 1 else 0 := by
    simp [entrances, answered, List.count_singleton]
  have hexits : exits ip [(now, c)] = if c = .release ip then 1 else 0 := by
    simp [exits, List.count_singleton]
  rw [hentrances, hexits]
  -- two kinds of calls change a count, and only that of their own address
  by_cases hin : ∃ l, c = .letIn l
  · obtain ⟨l, rfl⟩ := hin
    show (a.letIn now l).2.connectionsFrom ip = _
    rw [if_neg (by simp : ¬ Call.letIn l = .release ip), Nat.sub_zero]
    rcases letIn_cases hd now l with ⟨hrefused, hkept⟩ | ⟨hadmitted, hadmits⟩
    · rw [hkept.connections ip, if_neg fun hboth => hrefused (Answer.entrance.inj hboth.2), Nat.add_zero]
    · rw [hadmits.connections ip]
      by_cases hl : ip = l
      · subst hl
        rw [if_pos ⟨rfl, happlies⟩, if_pos ⟨rfl, congrArg Answer.entrance hadmitted⟩]
      · rw [if_neg fun hboth => hl hboth.1, if_neg fun hboth => hl (Call.letIn.inj hboth.1).symm]
  by_cases hout : ∃ l, c = .release l
  · obtain ⟨l, rfl⟩ := hout
    show (a.release l).connectionsFrom ip = _
    rw [if_neg (by simp : ¬ (Call.release l = .letIn ip ∧ _)), Nat.add_zero, connectionsFrom_release]
    by_cases hl : ip = l
    · subst hl
      rw [if_pos rfl, if_pos rfl]
    · rw [if_neg hl, if_neg fun he => hl (Call.release.inj he).symm, Nat.sub_zero]
  · have hkept := keeps_call hd now (fun l he => hin ⟨l, he⟩) fun l he => hout ⟨l, he⟩
    rw [hkept.connections ip, if_neg fun hboth => hin ⟨ip, hboth.1⟩, if_neg fun he => hout ⟨ip, he⟩]
    rfl

/-! ## With sweeps and without -/

/-- Two admissions look the same from outside. -/
structure Alike (now : Instant) (a b : Admission) : Prop where
  limits : b.limits = a.limits
  connections : ∀ ip, b.connectionsFrom ip = a.connectionsFrom ip
  banned : ∀ ip, (b.isBanned now ip).1 = (a.isBanned now ip).1

/-- **Who looks the same answers the same** when asked about bans and connections. -/
theorem Alike.answer (h : Alike now a b) (hasks : c.asks = true) : b.answer now c = a.answer now c := by
  have happlies : ∀ ip, b.appliesTo ip = a.appliesTo ip := appliesTo_congr h.limits
  cases c with
  | letIn ip => exact congrArg Answer.entrance (by rw [letIn_eq, letIn_eq, h.banned, happlies, h.limits, h.connections])
  | isBanned ip => exact congrArg Answer.flag (h.banned ip)
  | ban ip =>
      refine congrArg Answer.flag ?_
      unfold ban
      rw [happlies]
      split
      · rfl
      · rfl
  | _ => exact absurd hasks (by simp [Call.asks])

theorem banRuns_unswept {length : Span} : BanRuns length (unswept log) ip now ↔ BanRuns length log ip now := by
  refine exists_congr fun t => and_congr_left fun _ => ?_
  rw [unswept, List.mem_filter]
  exact and_iff_left (by simp)

theorem InOrder.unswept (h : InOrder log now) : InOrder (unswept log) now :=
  ⟨h.1.filter _, fun e he => h.2 e (List.mem_filter.mp he).1⟩

theorem InOrder.of_append {e : Instant × Call} (h : InOrder (log ++ [e]) now) : InOrder log e.1 :=
  have hparts := List.pairwise_append.mp h.1
  ⟨hparts.1, fun d hd => hparts.2.2 d hd e List.mem_cons_self⟩

theorem Terms.connectionsFrom_free (h : Terms limits log a) (hfree : a.appliesTo ip = false) :
    a.connectionsFrom ip = 0 := by
  rw [connectionsFrom, record, h.free ip hfree]
  rfl

/-- **Sweeps make no difference to the next call**, if they made none to the counts so far. -/
theorem alike_replay (horder : InOrder log now)
    (hcounts : ∀ ip, ((fresh limits).replay (unswept log)).connectionsFrom ip
      = ((fresh limits).replay log).connectionsFrom ip) :
    Alike now ((fresh limits).replay log) ((fresh limits).replay (unswept log)) := by
  have ha := terms_replay limits log horder.1
  have hb := terms_replay limits (unswept log) horder.unswept.1
  refine ⟨hb.limits_eq.trans ha.limits_eq.symm, hcounts, fun ip => ?_⟩
  cases happlies : (fresh limits).appliesTo ip with
  | false => rw [isBanned_eq, isBanned_eq, ha.appliesTo, hb.appliesTo, happlies, Bool.false_and, Bool.false_and]
  | true =>
      refine Bool.eq_iff_iff.mpr ?_
      rw [ha.isBanned_iff ((ha.appliesTo ip).trans happlies) horder.2,
        hb.isBanned_iff ((hb.appliesTo ip).trans happlies) horder.unswept.2, banRuns_unswept]

/-- Who looks the same lets the same connection in. -/
theorem Alike.entrances (h : Alike now a b) (ip : Ip) (c : Call) :
    entrances ip b [(now, c)] = entrances ip a [(now, c)] := by
  cases hasks : c.asks with
  | true => rw [Admission.entrances, Admission.entrances, answered, answered, h.answer hasks]; rfl
  | false =>
      have hnone : ∀ a : Admission, Admission.entrances ip a [(now, c)] = 0 := by
        intro a
        refine List.count_eq_zero.mpr fun hmem => ?_
        obtain ⟨rfl, _⟩ := Prod.mk.inj (List.mem_singleton.mp hmem)
        exact absurd hasks (by simp [Call.asks])
      rw [hnone, hnone]

/-- **Whatever was asked, the sweeps before it made no difference.** -/
theorem answered_unswept (limits : Settings.Limits) (log : List (Instant × Call)) : ∀ {now}, InOrder log now →
    ((fresh limits).answered (unswept log)).filter (·.1.asks) = ((fresh limits).answered log).filter (·.1.asks)
      ∧ ∀ ip, ((fresh limits).replay (unswept log)).connectionsFrom ip
          = ((fresh limits).replay log).connectionsFrom ip := by
  -- on the last call, which is made to two admissions that have looked the same up to it
  induction log using List.reverseRecOn with
  | nil => exact fun _ => ⟨rfl, fun _ => rfl⟩
  | append_singleton log e ih =>
      intro now horder
      obtain ⟨t, c⟩ := e
      have hearlier : InOrder log t := horder.of_append
      obtain ⟨hsaid, hcounts⟩ := ih hearlier
      have halike := alike_replay hearlier hcounts
      have ha := terms_replay limits log hearlier.1
      have hb := terms_replay limits (unswept log) hearlier.unswept.1
      by_cases hswept : c = .sweep
      · subst hswept
        have hsame : unswept (log ++ [(t, .sweep)]) = unswept log := by
          rw [unswept, List.filter_append]
          exact List.append_nil _
        rw [hsame, answered_append, List.filter_append, replay_append]
        refine ⟨?_, fun ip => ?_⟩
        · rw [hsaid]
          exact (List.append_nil _).symm
        · exact (hcounts ip).trans ((keeps_sweep ha.distinct t).connections ip).symm
      · have hkept : unswept (log ++ [(t, c)]) = unswept log ++ [(t, c)] := by
          rw [unswept, List.filter_append, List.filter_cons_of_pos (by simpa using hswept)]
          rfl
        rw [hkept, answered_append, answered_append, List.filter_append, List.filter_append, hsaid, replay_append,
          replay_append]
        refine ⟨congrArg _ ?_, fun ip => ?_⟩
        · cases hasks : c.asks with
          | true => rw [answered, answered, halike.answer hasks]; rfl
          | false => simp [answered, hasks]
        · cases happlies : (fresh limits).appliesTo ip with
          | false =>
              have ha' := terms_call ha hearlier.2 c
              have hb' := terms_call hb hearlier.unswept.2 c
              exact (hb'.connectionsFrom_free ((hb'.appliesTo ip).trans happlies)).trans
                (ha'.connectionsFrom_free ((ha'.appliesTo ip).trans happlies)).symm
          | true =>
              show (call _ t c).connectionsFrom ip = (call _ t c).connectionsFrom ip
              rw [connectionsFrom_call hb.distinct ((hb.appliesTo ip).trans happlies),
                connectionsFrom_call ha.distinct ((ha.appliesTo ip).trans happlies), hcounts, halike.entrances]

/-! ## How many connections there are -/

/-- Nobody is let in from an address that holds as many connections as it may. -/
theorem lt_of_entrances (happlies : a.appliesTo ip = true) (h : entrances ip a [(now, c)] ≠ 0) :
    entrances ip a [(now, c)] = 1 ∧ a.connectionsFrom ip < a.limits.maxConnectionsPerIp := by
  have hmem : (Call.letIn ip, Answer.entrance .admitted) ∈ a.answered [(now, c)] :=
    List.count_pos_iff.mp (Nat.pos_of_ne_zero h)
  obtain ⟨rfl, hadmitted⟩ := Prod.mk.inj (List.mem_singleton.mp hmem)
  have hentrance : (a.letIn now ip).1 = .admitted := (Answer.entrance.inj hadmitted).symm
  refine ⟨?_, Nat.lt_of_not_le fun hmany => ?_⟩
  · rw [entrances, answered, ← hadmitted]
    simp [answered]
  · rw [letIn_eq] at hentrance
    split at hentrance
    · exact absurd hentrance (by simp)
    · rw [if_pos ⟨happlies, hmany⟩] at hentrance
      exact absurd hentrance (by simp)

/-- **Whoever was let in and not let go yet is counted**, and there are never too many of them. -/
theorem held_replay (happlies : (fresh limits).appliesTo ip = true) (hpaired : Paired (fresh limits) log) :
    ((fresh limits).replay log).connectionsFrom ip + exits ip log = entrances ip (fresh limits) log
      ∧ ((fresh limits).replay log).connectionsFrom ip ≤ limits.maxConnectionsPerIp := by
  induction log using List.reverseRecOn with
  | nil => exact ⟨rfl, Nat.zero_le _⟩
  | append_singleton log e ih =>
      obtain ⟨t, c⟩ := e
      obtain ⟨hearlier, hlast⟩ := paired_append_singleton hpaired
      obtain ⟨hheld, hcap⟩ := ih hearlier
      have hb := (binds_fresh happlies).replay log
      have hcall := connectionsFrom_call hb.distinct hb.applies t c
      -- who is let go was let in before
      have hout : exits ip [(t, c)] ≠ 0 → exits ip [(t, c)] = 1 ∧ exits ip log < entrances ip (fresh limits) log := by
        intro hsome
        have hmem : Call.release ip ∈ [c] := List.count_pos_iff.mp (Nat.pos_of_ne_zero hsome)
        obtain rfl := List.mem_singleton.mp hmem
        exact ⟨by simp [exits], hlast ip rfl⟩
      have hin : entrances ip ((fresh limits).replay log) [(t, c)] ≠ 0 → _ := lt_of_entrances hb.applies
      rw [hb.limits_eq] at hin
      have hreplay : (fresh limits).replay (log ++ [(t, c)]) = ((fresh limits).replay log).call t c :=
        replay_append _ log [(t, c)]
      rw [exits_append, entrances_append, hreplay, hcall]
      omega

/-! ## What a sweep leaves -/

theorem matters_settle (r : Record) (now : Instant) :
    (r.settle now).matters = (decide (0 < r.connections) || r.isBanned now) := by
  rw [Record.matters, Record.settle_connections, Record.isSome_settle]

/-- **An address is remembered after a sweep just if it has limits and a connection or a ban.** -/
theorem Terms.mem_sweep (h : Terms limits log a) (hpast : ∀ e ∈ log, e.1 ≤ now) (ip : Ip) :
    ip ∈ (a.sweep now).2.records.map (·.1)
      ↔ a.appliesTo ip = true ∧ (0 < a.connectionsFrom ip ∨ BanRuns limits.banDuration log ip now) := by
  have hmem : ip ∈ (a.sweep now).2.records.map (·.1) ↔ (a.sweep now).2.records.get? ip ≠ none :=
    (not_iff_comm.mp Keyed.get?_eq_none_iff.symm).symm
  rw [hmem, found_sweep h.distinct]
  cases happlies : a.appliesTo ip with
  | false => simp [h.free ip happlies]
  | true =>
      rw [← h.banned ip now happlies hpast, connectionsFrom, record]
      cases hfound : a.records.get? ip with
      | none => simp [Record.blank, Record.isBanned]
      | some r => simp [Option.filter_some, matters_settle, Nat.pos_iff_ne_zero, or_iff_not_imp_left]

/-! ## The whole of it -/

/--
**Sweeping is not noticed.**

Take any calls in the order of their instants, so that each connection that is let go was let in before, and take the
same calls without the sweeps. Whoever asks to be let in, asks for a ban or bans somebody gets the same answer, as many
connections are counted for each address, and as many bans. For an address with limits these are the connections that
were let in and not let go yet, never more than it may have, and whoever is refused changes no count. Right after a
sweep those addresses with limits are remembered that have a connection or a ban that runs, and no others.
-/
theorem sweeps_unnoticed (limits : Settings.Limits) (log : List (Instant × Call)) (now : Instant)
    (horder : InOrder log now) (hpaired : Paired (fresh limits) log) :
    let start := fresh limits
    let a := start.replay log
    let b := start.replay (unswept log)
    let held := {ip | start.appliesTo ip = true
      ∧ (exits ip log < entrances ip start log ∨ BanRuns limits.banDuration log ip now)}
    (start.answered (unswept log)).filter (·.1.asks) = (start.answered log).filter (·.1.asks)
      ∧ (∀ ip, b.connectionsFrom ip = a.connectionsFrom ip) ∧ b.bannedCount now = a.bannedCount now
      ∧ (∀ ip, start.appliesTo ip = true → a.connectionsFrom ip + exits ip log = entrances ip start log
          ∧ a.connectionsFrom ip ≤ limits.maxConnectionsPerIp)
      ∧ (∀ ip, (a.letIn now ip).1 ≠ .admitted → ∀ l, (a.letIn now ip).2.connectionsFrom l = a.connectionsFrom l)
      ∧ {ip | ip ∈ (a.sweep now).2.records.map (·.1)} = held ∧ held.encard = (a.sweep now).2.tracked := by
  intro start a b held
  obtain ⟨hanswers, hcounts⟩ := answered_unswept limits log horder
  have ha : Terms limits log a := terms_replay limits log horder.1
  have hb : Terms limits (unswept log) b := terms_replay limits (unswept log) horder.unswept.1
  have halike : Alike now a b := alike_replay horder hcounts
  have hheld : {ip | ip ∈ (a.sweep now).2.records.map (·.1)} = held := by
    ext ip
    rw [Set.mem_ofPred_eq, ha.mem_sweep horder.2, ha.appliesTo]
    refine and_congr_right fun happlies => or_congr_left ?_
    have hcount : a.connectionsFrom ip + exits ip log = entrances ip start log := (held_replay happlies hpaired).1
    omega
  refine ⟨hanswers, hcounts, ?_, fun ip happlies => held_replay happlies hpaired, fun ip hrefused => ?_, hheld, ?_⟩
  · have hsame : {ip | (b.isBanned now ip).1 = true} = {ip | (a.isBanned now ip).1 = true} := by
      ext ip
      rw [Set.mem_ofPred_eq, Set.mem_ofPred_eq, halike.banned]
    have hcard : (b.bannedCount now : ℕ∞) = a.bannedCount now := by
      rw [← hb.encard_banned, hsame, ha.encard_banned]
    exact Nat.cast_injective hcard
  · rcases letIn_cases ha.distinct now ip with ⟨_, hkept⟩ | ⟨hadmitted, _⟩
    · exact hkept.connections
    · exact absurd hadmitted hrefused
  · have hdistinct : ((a.sweep now).2.records.map (·.1)).Nodup := (keeps_sweep ha.distinct now).distinct
    rw [← hheld, encard_of_nodup hdistinct, List.length_map, tracked]

/-- Three sweeps, the first of which forgets a bad line. An address may have one connection, is refused a second one,
and is let in again when the first one is gone. Another one is banned. In the end these two are remembered. -/
theorem sweeps_unnoticed_three_times :
    let limits : Settings.Limits := { Settings.Limits.standard with maxConnectionsPerIp := 1 }
    let log : List (Instant × Call) :=
      [(0, .letIn (.v4 1)), (1, .malformed (.v4 2)), (2, .sweep), (2, .letIn (.v4 1)), (3, .release (.v4 1)),
        (3, .sweep), (4, .ban (.v4 2)), (5, .letIn (.v4 1)), (6, .sweep), (6, .letIn (.v4 2)), (7, .isBanned (.v4 1))]
    let start := fresh limits
    InOrder log 8 ∧ Paired start log
      ∧ (start.answered (unswept log)).filter (·.1.asks)
        = [(.letIn (.v4 1), .entrance .admitted), (.letIn (.v4 1), .entrance .tooManyConnections),
          (.ban (.v4 2), .flag true), (.letIn (.v4 1), .entrance .admitted), (.letIn (.v4 2), .entrance .banned),
          (.isBanned (.v4 1), .flag false)]
      ∧ {ip | start.appliesTo ip = true
          ∧ (exits ip log < entrances ip start log ∨ BanRuns limits.banDuration log ip 8)}.encard = 2 := by
  intro limits log start
  have horder : InOrder log 8 := by decide
  have hpaired : Paired start log := by decide
  obtain ⟨hanswers, _, _, _, _, _, hremembered⟩ := sweeps_unnoticed limits log 8 horder hpaired
  refine ⟨horder, hpaired, ?_, ?_⟩
  · rw [hanswers]
    decide
  · rw [hremembered]
    exact congrArg Nat.cast (show ((start.replay log).sweep 8).2.tracked = 2 by decide)

end Admission
end MiningPool

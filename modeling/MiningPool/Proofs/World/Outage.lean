import MiningPool.Proofs.Admission.Windows
import MiningPool.Proofs.World.Guests
import MiningPool.Proofs.World.Shares
import MiningPool.Settings.Checking

/-!
# While the work source is down

A share that the work source fails to judge counts as a bad one, and admission is told of it like of any other. So an
address can be banned for its shares although the work source has rejected none of them. When that happens, as many
shares as the threshold says were told of in a row, there are too many bad ones among them, and each of the bad ones
is one that the work source failed to judge: shares that were accepted never add up to a ban.
-/

namespace MiningPool

open Net Wire Connection

/-! ## What becomes of a share -/

namespace Pool

variable {source : Source} {p : Pool} {s : Session}

/-- When every share is handed to the work source, a bad one is one that it rejects or fails to judge. -/
theorem judge_of_bad (hlenient : p.settings.mining.submitPolicy = .lenient) {x : Submission}
    (h : (p.submit source s x).session = s.recordShare false) :
    source.judge (share s x) = .ok false ∨ ∃ e, source.judge (share s x) = .error e := by
  have hnone : p.objection s x.jobId = none := by rw [objection, hlenient]
  cases hjudge : source.judge (share s x) with
  | error e => exact Or.inr ⟨e, rfl⟩
  | ok accepted =>
      cases accepted with
      | false => exact Or.inl rfl
      | true =>
          have hgood : (p.submit source s x).session = s.recordShare true := by
            rw [submit, hnone]
            dsimp only
            rw [verdict, hjudge]
            rfl
          -- it would be counted as a good one
          have hshares := congrArg (·.shares true) (hgood.symm.trans h)
          simp only [Session.shares_recordShare] at hshares
          simp at hshares

end Pool

namespace World

variable {w w' : World} {as h : List Act} {c d : Connection} {ip : Ip} {settings : Settings} {tasks : Bool}

/-- The work source has rejected no share that it was asked to judge. -/
def NeverRejects (h : List Act) : Prop :=
  ∀ id source p s r x, .served source p s r ∈ deedsOf h id → Command.ofRequest r = .ok (.submit x) →
    source.judge (Pool.share s x) ≠ .ok false

theorem NeverRejects.append {k : List Act} (hh : NeverRejects h) (hk : NeverRejects k) : NeverRejects (h ++ k) := by
  intro id source p s r x hd
  rw [deedsOf_append] at hd
  rcases List.mem_append.mp hd with hold | hnew
  · exact hh id source p s r x hold
  · exact hk id source p s r x hnew

/-- Whatever a turn carries out, it does for its own work source and pool. -/
theorem served_of_takes {source source' : Source} {now : Instant} {p p' : Pool} {s : Session} {r : Request}
    {ds : List Deed} {t : Turn} (h : Takes source now p c ds t) (hd : .served source' p' s r ∈ ds) :
    source' = source ∧ p' = p := by
  cases h with
  | serves hl hn ho =>
      have heq := List.mem_singleton.mp hd
      injection heq with hsource hp _ _
      exact ⟨hsource, hp⟩
  | _ => exact absurd hd (by simp)

theorem neverRejects_turn {source : Source} (hsource : ∀ x, source.judge x ≠ .ok false) (w : World)
    (c : Connection) : NeverRejects [.did c.id (deeds source w.now w.pool c)] := by
  intro id source' p s r x hd _
  by_cases hid : c.id = id
  · rw [← hid, deedsOf_self] at hd
    rw [(served_of_takes (turn_takes source w.now w.pool c) hd).1]
    exact hsource _
  · rw [deedsOf_of_ne hid] at hd
    exact absurd hd List.not_mem_nil

theorem neverRejects_cue {source : Source} (hsource : ∀ x, source.judge x ≠ .ok false) (w : World) (q : Cue) :
    NeverRejects (w.cue source q).1 := by
  have hnone : ∀ {as : List Act}, (∀ id, deedsOf as id = []) → NeverRejects as := by
    intro as has id source p s r x hd
    rw [has id] at hd
    exact absurd hd List.not_mem_nil
  cases q with
  | enters peer room =>
      refine hnone fun id => ?_
      rw [cue]
      split <;> rfl
  | sends id bs =>
      refine hnone fun id => ?_
      rw [cue]
      split
      · rfl
      · split <;> rfl
  | vanishes id =>
      refine hnone fun id => ?_
      rw [cue]
      split <;> rfl
  | turns id =>
      rw [cue]
      split
      · exact hnone fun _ => rfl
      · exact neverRejects_turn hsource w _

/-- A script tells of no share that is rejected if its work source rejects none. -/
theorem neverRejects_play {source : Source} (hsource : ∀ x, source.judge x ≠ .ok false) (w : World)
    (script : List Cue) : NeverRejects (w.play source script).1 := by
  induction script generalizing w with
  | nil => exact fun _ _ _ _ _ _ hd => absurd hd List.not_mem_nil
  | cons q script ih => exact (neverRejects_cue hsource w q).append (ih _)

/-- Requests are carried out under the settings that the pool was started with. -/
theorem settings_of_served (hmoves : Moves (fresh settings tasks) h w) :
    (w.Booked ∧ w.pool.settings = settings)
      ∧ ∀ id source p s r, .served source p s r ∈ deedsOf h id → p.settings = settings := by
  induction hmoves with
  | refl => exact ⟨⟨booked_fresh settings tasks, rfl⟩, fun _ _ _ _ _ hd => absurd hd List.not_mem_nil⟩
  | @tail v w' h as _ hstep ih =>
      obtain ⟨⟨hbooked, hsettings⟩, hserved⟩ := ih
      refine ⟨⟨booked_move hstep hbooked, (settings_move hstep hbooked).trans hsettings⟩, fun id source p s r hd => ?_⟩
      rw [deedsOf_append] at hd
      rcases List.mem_append.mp hd with hold | hnew
      · exact hserved id source p s r hold
      · rcases deedsOf_move hstep id with hnone | ⟨source', c, _, _, hturn⟩ | hcut
        · rw [hnone] at hnew
          exact absurd hnew List.not_mem_nil
        · rw [hturn] at hnew
          rw [(served_of_takes (turn_takes source' v.now v.pool c) hnew).2, hsettings]
        · rw [hcut] at hnew
          exact absurd hnew (by simp)

/-- **A bad share that was told of is one that the work source failed to judge**, if it rejects none. -/
theorem failed_of_reported (hlenient : settings.mining.submitPolicy = .lenient)
    (hmoves : Moves (fresh settings tasks) h w) (hnever : NeverRejects h) (hd : d ∈ w.connections)
    {earlier later : List Deed} {verdict : Verdict}
    (hreported : deedsOf h d.id = earlier ++ .reported false verdict :: later) :
    ∃ log source p s r x e, earlier = log ++ [.served source p s r] ∧ Command.ofRequest r = .ok (.submit x)
      ∧ source.judge (Pool.share s x) = .error e := by
  obtain ⟨_, _, hfaithful⟩ := faithful_of_moves hmoves hd
  have horder : InOrder .nothing (deedsOf h d.id) := hfaithful.inOrder
  rw [hreported] at horder
  obtain ⟨log, source, p, s, r, rfl, hshare⟩ := served_of_reported rfl horder
  have hserved : .served source p s r ∈ deedsOf h d.id := by
    rw [hreported]
    simp
  have hsettings := (settings_of_served hmoves).2 d.id source p s r hserved
  rcases shares_cases source p s r with ⟨x, accepted, hcommand, hsession⟩ | hsame
  · rw [hsession, shareBetween_recordShare] at hshare
    injection hshare with hbad
    rw [hbad, Pool.answer_ok source p s hcommand] at hsession
    have hjudge := Pool.judge_of_bad (p := p.count (.request Method.submit)) (hsettings ▸ hlenient) hsession
    rcases hjudge with hrejected | ⟨e, hfailed⟩
    · exact absurd hrejected (hnever d.id source p s r x hserved hcommand)
    · exact ⟨log, source, p, s, r, x, e, rfl, hcommand, hfailed⟩
  · rw [shareBetween_of_same hsame] at hshare
    exact absurd hshare (by simp)

/-! ## Verdicts on shares -/

/-- What admission answered to the shares that deeds tell of. -/
def verdictsOf (ds : List Deed) : List Verdict :=
  ds.filterMap fun
    | .reported _ verdict => some verdict
    | _ => none

/-- One of the connections of an address has just told of a share, and there was a verdict. -/
inductive Judged (ip : Ip) (verdict : Verdict) (w : World) : List Act → World → Prop where
  | turn {c : Connection} (source : Source) (hc : c ∈ w.connections) (hip : c.peer.ip = ip)
      (hd : verdictsOf (deeds source w.now w.pool c) = [verdict]) :
      Judged ip verdict w [.did c.id (deeds source w.now w.pool c)] (w.took (c.turn source w.now w.pool))

variable {verdict : Verdict}

theorem Judged.move (h : Judged ip verdict w as w') : Move w as w' := by
  cases h with
  | turn source hc hip hd => exact .turn source (.turn hc)

theorem recordShare_of_takes {source : Source} {now : Instant} {p : Pool} {ds : List Deed} {t : Turn}
    (h : Takes source now p c ds t) (hd : verdictsOf ds = [verdict]) :
    ∃ accepted, reportsOf ds = [accepted] ∧ (p.admission.recordShare c.peer.ip accepted).1 = verdict := by
  cases h with
  | @reports left accepted client a hp hg hw hv =>
      have hallowed : [Verdict.allowed] = [verdict] := hd
      exact ⟨accepted, rfl, by rw [hv]; exact List.head_eq_of_cons_eq hallowed⟩
  | @condemned left accepted client a hp hg hw hv =>
      have hbanned : [Verdict.banned] = [verdict] := hd
      exact ⟨accepted, rfl, by rw [hv]; exact List.head_eq_of_cons_eq hbanned⟩
  | _ => exact absurd hd (by simp [verdictsOf])

theorem judged_play (w : World) (source : Source) (id : Nat)
    (h : (w.find? id).any (fun c => c.peer.ip = ip && verdictsOf (deeds source w.now w.pool c) = [verdict]) = true) :
    Judged ip verdict w (w.play source [.turns id]).1 (w.play source [.turns id]).2 := by
  cases hfind : w.find? id with
  | none => rw [hfind] at h; exact absurd h (by simp)
  | some c =>
      rw [hfind, Option.any_some, Bool.and_eq_true, decide_eq_true_eq, decide_eq_true_eq] at h
      have hplay : w.play source [.turns id]
          = ([.did c.id (deeds source w.now w.pool c)], w.took (c.turn source w.now w.pool)) := by
        simp only [play, cue, hfind, List.append_nil]
      rw [hplay]
      exact .turn source (List.mem_of_find?_eq_some hfind) h.1 h.2

/-- What sound settings say of the limits that addresses are held to. -/
theorem limits_of_sound (hsound : settings.Sound) (henabled : settings.policy.enabled = true) :
    0 < settings.policy.shareCheckThreshold ∧ settings.policy.invalidSharePercent.isPositive = true := by
  have hnone : ∀ e ∈ settings.flaws, e.1 = false := by
    intro e he
    rw [Settings.Sound, Settings.check] at hsound
    split at hsound
    · exact absurd hsound (by simp)
    · rename_i hfind
      simpa using List.find?_eq_none.mp hfind e he
  have hmem : ∀ e ∈ settings.policy.flaws, e.1 = false := fun e he => hnone e (List.mem_append_right _ he)
  rw [Settings.Limits.flaws, if_pos henabled] at hmem
  have hthreshold := hmem (settings.policy.shareCheckThreshold == 0, .noShareThreshold) (by simp)
  have hpercent := hmem (!settings.policy.invalidSharePercent.isPositive, .noInvalidShares) (by simp)
  exact ⟨Nat.pos_of_ne_zero (by simpa using hthreshold), by simpa using hpercent⟩

/--
**While the work source is down, nobody is banned for shares but for those that it failed to judge.**

The shares of an address that are counted are the last ones that it told of. When it tells of one more, it is to be
banned just if there are then as many as the threshold says and too many bad ones among them, which is one at least.
If the work source rejects none, each bad share is one that it failed to judge.
-/
theorem banned_for_failures (hsound : settings.Sound) (hlenient : settings.mining.submitPolicy = .lenient)
    (hmoves : Moves (fresh settings tasks) h w) (hjudged : Judged ip verdict w as w')
    (hnever : NeverRejects (h ++ as)) :
    (∃ counted accepted, (∀ k, (w.pool.admission.record ip).shares k = counted.count k)
        ∧ counted ++ [accepted] <:+ w'.reports ip (h ++ as)
        ∧ (verdict = .banned ↔ w.pool.admission.appliesTo ip = true
          ∧ (counted ++ [accepted]).length = settings.policy.shareCheckThreshold
          ∧ settings.policy.invalidSharePercent.le
              (invalidPercent ((counted ++ [accepted]).count true) ((counted ++ [accepted]).count false)) = true)
        ∧ (verdict = .banned → false ∈ counted ++ [accepted]))
      ∧ ∀ d ∈ w'.connections, ∀ earlier later v, deedsOf (h ++ as) d.id = earlier ++ .reported false v :: later →
          ∃ log source p s r x e, earlier = log ++ [.served source p s r] ∧ Command.ofRequest r = .ok (.submit x)
            ∧ source.judge (Pool.share s x) = .error e := by
  have hmoves' : Moves (fresh settings tasks) (h ++ as) w' := hmoves.tail hjudged.move
  refine ⟨?_, fun d hd earlier later v heq => failed_of_reported hlenient hmoves' hnever hd heq⟩
  obtain ⟨hbooked, hsettings⟩ := (settings_of_served hmoves).1
  have hlimits : w.pool.admission.limits = settings.policy := by rw [hbooked.books.limits, hsettings]
  have hlogged := logged_moves hmoves
  obtain ⟨log, hlog, hshares⟩ := hlogged.log
  -- what is counted now
  obtain ⟨counted, hcounted⟩ := Admission.exists_window_replay (Admission.distinct_fresh settings.policy)
    (Admission.window_fresh (fun henabled => (limits_of_sound hsound henabled).1) ip) log
  rw [← hlog, hshares, List.nil_append] at hcounted
  have hreports : w'.reports ip (h ++ as) = w.reports ip h ++ w.reports ip as := by
    have htold : Told (h ++ as) w := fun a ha => (List.mem_append.mp ha).elim (hlogged.told a) (id_of_move hjudged.move)
    rw [reports_move hlogged.numbered hjudged.move htold, reports_append]
  cases hjudged with
  | @turn c source hc hip hd =>
      obtain ⟨accepted, hone, hverdict⟩ := recordShare_of_takes (turn_takes source w.now w.pool c) hd
      have hiff := Admission.banned_iff hcounted accepted
      rw [hip] at hverdict
      rw [hverdict, hlimits] at hiff
      refine ⟨counted, accepted, hcounted.counted, ?_, hiff, fun hbanned => ?_⟩
      · obtain ⟨before, hbefore⟩ := hcounted.suffix
        rw [hreports, reports_did hlogged.numbered hc, if_pos hip, hone, ← hbefore]
        exact ⟨before, (List.append_assoc before counted [accepted]).symm⟩
      · obtain ⟨happlies, _, hmany⟩ := hiff.mp hbanned
        have henabled : settings.policy.enabled = true := by
          rw [Admission.appliesTo, hlimits, Bool.and_eq_true] at happlies
          exact happlies.1
        exact Admission.mem_false_of_percent (limits_of_sound hsound henabled).2 hmany

/-- The work source accepts a first share and fails to judge a second one, and the address is banned for the two of
them: the second one is among them. -/
theorem banned_for_failures_second :
    let settings : Settings := { Settings.standard with
      policy := { Settings.Limits.standard with shareCheckThreshold := 2 } }
    let accepts : Source := ⟨fun _ => .ok default, fun _ => .ok true⟩
    let fails : Source := ⟨fun _ => .ok default, fun _ => .error (.workSource "down")⟩
    let first := (fresh settings false).play accepts
      [.enters ⟨.v4 1, 50001⟩ none, .sends 1 (submitLine ++ submitLine), .turns 1, .turns 1]
    let second := first.2.play fails [.turns 1]
    let last := second.2.play fails [.turns 1]
    Moves (fresh settings false) (first.1 ++ second.1) second.2 ∧ Judged (.v4 1) .banned second.2 last.1 last.2
      ∧ last.2.reports (.v4 1) (first.1 ++ second.1 ++ last.1) = [true, false]
      ∧ ∃ judged, judged <:+ last.2.reports (.v4 1) (first.1 ++ second.1 ++ last.1) ∧ judged.length = 2
        ∧ false ∈ judged := by
  intro settings accepts fails first second last
  have hmoves : Moves (fresh settings false) (first.1 ++ second.1) second.2 :=
    (moves_play accepts _ _).trans (moves_play fails _ _)
  have hjudged : Judged (.v4 1) .banned second.2 last.1 last.2 := judged_play second.2 fails 1 (by decide +kernel)
  have haccepts : ∀ x, accepts.judge x ≠ .ok false := fun _ => by simp [accepts]
  have hfails : ∀ x, fails.judge x ≠ .ok false := fun _ => by simp [fails]
  have hnever : NeverRejects (first.1 ++ second.1 ++ last.1) :=
    ((neverRejects_play haccepts _ _).append (neverRejects_play hfails _ _)).append (neverRejects_play hfails _ _)
  have hsound : settings.Sound := by decide +kernel
  obtain ⟨⟨counted, accepted, _, hsuffix, hiff, hbad⟩, _⟩ := banned_for_failures hsound rfl hmoves hjudged hnever
  obtain ⟨_, hlength, _⟩ := hiff.mp rfl
  exact ⟨hmoves, hjudged, by decide +kernel, counted ++ [accepted], hsuffix, hlength, hbad rfl⟩

/-- The work source fails to judge a share, and its address is banned for it. -/
theorem banned_in_an_outage :
    let settings : Settings := { Settings.standard with
      policy := { Settings.Limits.standard with shareCheckThreshold := 1 } }
    let fails : Source := ⟨fun _ => .ok default, fun _ => .error (.workSource "down")⟩
    let told := (fresh settings false).play fails [.enters ⟨.v4 1, 50001⟩ none, .sends 1 submitLine, .turns 1]
    let banned := told.2.play fails [.turns 1]
    settings.Sound ∧ settings.mining.submitPolicy = .lenient ∧ (∀ x, fails.judge x ≠ .ok false)
      ∧ Moves (fresh settings false) told.1 told.2 ∧ NeverRejects (told.1 ++ banned.1)
      ∧ Judged (.v4 1) .banned told.2 banned.1 banned.2
      ∧ (banned.2.pool.admission.record (.v4 1)).isBanned banned.2.now = true := by
  intro settings fails told banned
  have hfails : ∀ x, fails.judge x ≠ .ok false := fun _ => by simp [fails]
  have hjudged : Judged (.v4 1) .banned told.2 banned.1 banned.2 := judged_play told.2 fails 1 (by decide +kernel)
  exact ⟨by decide +kernel, rfl, hfails, moves_play fails _ _,
    (neverRejects_play hfails _ _).append (neverRejects_play hfails _ _), hjudged, by decide +kernel⟩

end World
end MiningPool

import MiningPool.Proofs.Pool.Sessions
import MiningPool.Proofs.World.Ledger
import MiningPool.Proofs.World.Outage

/-!
# Sessions of a world

The session of a connection changes when the connection carries out a request, and at no other time. So whatever goes on
in a world, a session is what its own miner's commands have made of it, one after the other (`sessions_move_forward`).
All pools in which requests are carried out have the difficulty that the settings say.
-/

namespace MiningPool

open Net Wire

/-! ## The commands of a log -/

namespace Connection

/-- The command that a deed carries out. A request that is none is left out. -/
def Deed.command? : Deed → Option Command
  | .served _ _ _ r => Command.ofRequest? r
  | _ => none

/-- The commands that deeds have carried out, in order. -/
def commandsOf (ds : List Deed) : List Command := ds.filterMap Deed.command?

theorem commandsOf_append (ds es : List Deed) : commandsOf (ds ++ es) = commandsOf ds ++ commandsOf es :=
  List.filterMap_append

theorem commandsOf_singleton (d : Deed) : commandsOf [d] = d.command?.toList := by
  cases h : d.command? with
  | none => exact List.filterMap_cons_none h
  | some c => exact List.filterMap_cons_some h

/-- Some deeds have left a session as it is now, each request carried out for the session as it was then. -/
structure Carries (s : Session) (ds : List Deed) (s' : Session) : Prop where
  continues : Continues s ds
  session : s' = sessionAfter s ds

theorem Carries.refl (s : Session) : Carries s [] s := ⟨trivial, rfl⟩

theorem Carries.trans {s s' s'' : Session} {ds es : List Deed} (h : Carries s ds s') (h' : Carries s' es s'') :
    Carries s (ds ++ es) s'' := by
  obtain ⟨hcontinues, rfl⟩ := h
  exact ⟨continues_append.mpr ⟨hcontinues, h'.continues⟩, by rw [sessionAfter_append]; exact h'.session⟩

/-- All requests were carried out in pools of one difficulty. -/
def Priced (difficulty : Nat) (ds : List Deed) : Prop :=
  ∀ source p s r, Deed.served source p s r ∈ ds → p.ledger.difficulty = difficulty

theorem Priced.of_subset {difficulty : Nat} {ds es : List Deed} (h : Priced difficulty es) (hsub : ds ⊆ es) :
    Priced difficulty ds := fun source p s r hd => h source p s r (hsub hd)

variable {s s' : Session}

/-- What a deed makes of a session is what its command says. -/
theorem after_leave {d : Deed} (hserved : ∀ source p s' r, d = .served source p s' r → s' = s)
    (hpriced : Priced s.difficulty [d]) : Session.After (commandsOf [d]) s (d.leave s) := by
  rw [commandsOf_singleton]
  cases d with
  | served source p s' r =>
      obtain rfl := hserved source p s' r rfl
      exact Pool.after_answer source (hpriced source p s' r List.mem_cons_self) r
  | _ => exact .refl s

/-- **What deeds make of a session is what their commands say.** -/
theorem Carries.after {ds : List Deed} (h : Carries s ds s') (hpriced : Priced s.difficulty ds) :
    Session.After (commandsOf ds) s s' := by
  obtain ⟨hcontinues, rfl⟩ := h
  induction ds generalizing s with
  | nil => exact .refl s
  | cons d ds ih =>
      obtain ⟨hserved, hrest⟩ := hcontinues
      have hone := after_leave hserved (hpriced.of_subset (by simp))
      -- the session still has its difficulty, and so have the later pools
      have hlater := ih (hone.difficulty ▸ hpriced.of_subset (by simp)) hrest
      have hboth := hone.trans hlater
      rw [← commandsOf_append] at hboth
      exact hboth

end Connection

open Connection

namespace World

variable {w w' : World} {as h k : List Act} {c c' : Connection} {settings : Settings} {tasks : Bool}

/-! ## What moves do to sessions -/

/-- Someone comes in, and the session starts from nothing. -/
def Starts (w : World) (c : Connection) : Prop :=
  ∃ ip limit p, w.pool.enter w.now ip limit = (.ok c.id, p) ∧ c.session = p.session c.id

/-- Someone was there before some acts, and the deeds among them have left that session as it is now. -/
def Carried (w : World) (as : List Act) (c' : Connection) : Prop :=
  ∃ c ∈ w.connections, c.id = c'.id ∧ Carries c.session (deedsOf as c'.id) c'.session

theorem carried_of_rests (hc : c ∈ w.connections) (hid : c.id = c'.id) (hsession : c'.session = c.session)
    (hnone : deedsOf as c'.id = []) : w.Carried as c' := by
  refine ⟨c, hc, hid, ?_⟩
  rw [hnone, hsession]
  exact .refl c.session

/-- One connection is changed in something else than its session. -/
theorem carried_replace {d : Connection} (hc' : c' ∈ (w.replace d).connections) (hc : c ∈ w.connections)
    (hid : d.id = c.id) (hsession : d.session = c.session) (hnone : ∀ id, deedsOf as id = []) : w.Carried as c' := by
  rcases mem_replace hc' with rfl | ⟨hold, _⟩
  · exact carried_of_rests hc hid.symm hsession (hnone _)
  · exact carried_of_rests hold rfl rfl (hnone _)

/-- One connection does something. -/
theorem carried_did {d : Connection} {ds : List Deed} (hc' : c' ∈ (w.replace d).connections) (hc : c ∈ w.connections)
    (hid : d.id = c.id) (hcarries : Carries c.session ds d.session) : w.Carried [.did c.id ds] c' := by
  rcases mem_replace hc' with rfl | ⟨hold, hne⟩
  · refine ⟨c, hc, hid.symm, ?_⟩
    rw [hid, deedsOf_self]
    exact hcarries
  · rw [hid] at hne
    exact carried_of_rests hold rfl rfl (deedsOf_of_ne hne.symm ds)

/-- **The deeds of a move leave each session as it is after the move**, if it was there before. -/
theorem session_move (hm : Move w as w') (hc' : c' ∈ w'.connections) : w.Carried as c' ∨ (as = [] ∧ w.Starts c') := by
  cases hm with
  | turn source hturn =>
      obtain ⟨hc⟩ := hturn
      rename_i c
      have htakes := turn_takes source w.now w.pool c
      obtain ⟨hcontinues, hsession⟩ := session_turn htakes
      exact .inl (carried_did hc' hc (kept_turn htakes).id ⟨hcontinues, hsession⟩)
  | cuts hc hopen => exact .inl (carried_did hc' hc rfl ⟨⟨by simp, trivial⟩, rfl⟩)
  | arrives bs hc hover => exact .inl (carried_replace hc' hc rfl rfl fun id => deedsOf_arrived id _ bs)
  | finishes hc => exact .inl (carried_replace hc' hc rfl rfl fun _ => rfl)
  | vanishes hc => exact .inl (carried_replace hc' hc rfl rfl fun _ => rfl)
  | reads room hc => exact .inl (carried_replace hc' hc rfl rfl fun _ => rfl)
  | stops =>
      obtain ⟨c, hc, rfl⟩ := List.mem_map.mp hc'
      exact .inl (carried_of_rests hc rfl rfl rfl)
  | @admits peer room limit id p henter =>
      rcases List.mem_append.mp hc' with hold | hnew
      · exact .inl (carried_of_rests hold rfl rfl rfl)
      · rw [List.mem_singleton.mp hnew]
        exact .inr ⟨rfl, peer.ip, limit, p, henter, rfl⟩
  | meanwhile hothers => exact .inl (carried_of_rests hc' rfl rfl rfl)
  | passes r s hle => exact .inl (carried_of_rests hc' rfl rfl rfl)

/-- Whoever comes in gets an id that no one had before. -/
theorem Starts.lt (h : w.Starts c) : w.pool.lastSession < c.id := by
  obtain ⟨ip, limit, p, henter, _⟩ := h
  rw [(Pool.enter_ok henter).1]
  exact Nat.lt_succ_self _

/-- **So do the deeds of all moves together.** -/
theorem session_moves (hk : Moves w k w') (hn : w.Numbered) (hc : c ∈ w.connections) (hc' : c' ∈ w'.connections)
    (hid : c'.id = c.id) : Carries c.session (deedsOf k c.id) c'.session := by
  have hboth : w.pool.lastSession ≤ w'.pool.lastSession
      ∧ ∀ c' ∈ w'.connections, c'.id = c.id → Carries c.session (deedsOf k c.id) c'.session := by
    clear hc' hid
    induction hk with
    | refl =>
        refine ⟨Nat.le_refl _, fun c' hc' hid => ?_⟩
        rw [hn.eq_of_id hc hc' hid]
        exact .refl c.session
    | tail _ hstep ih =>
        obtain ⟨hle, ih⟩ := ih
        refine ⟨Nat.le_trans hle (lastSession_move hstep), fun c' hc' hid => ?_⟩
        rcases session_move hstep hc' with ⟨d, hd, hsame, hcarries⟩ | ⟨_, hstarts⟩
        · rw [deedsOf_append]
          rw [hid] at hcarries
          exact (ih d hd (hsame.trans hid)).trans hcarries
        · -- an id that was there before is not given out again
          have hlt := hstarts.lt
          have hused := hn.used c hc
          omega
  exact hboth.2 c' hc' hid

/-! ## Difficulty -/

/-- **Requests are carried out under the difficulty of the settings.** -/
theorem priced_of_moves (hmoves : Moves (fresh settings tasks) h w) (id : Nat) :
    Priced settings.mining.initialDifficulty (deedsOf h id) := by
  induction hmoves with
  | refl => exact fun _ _ _ _ hd => absurd hd List.not_mem_nil
  | @tail v w' h as hmoves hstep ih =>
      intro source p s r hd
      rw [deedsOf_append] at hd
      rcases List.mem_append.mp hd with hold | hnew
      · exact ih source p s r hold
      · obtain ⟨hsettings, moves, hattained⟩ := attained_of_moves hmoves
        rcases deedsOf_move hstep id with hnone | ⟨source', c, _, _, hturn⟩ | hcut
        · rw [hnone] at hnew
          exact absurd hnew List.not_mem_nil
        · rw [hturn] at hnew
          rw [(served_of_takes (turn_takes source' v.now v.pool c) hnew).2, hattained.difficulty, hsettings]
        · rw [hcut] at hnew
          exact absurd hnew (by simp)

/-- A session as it starts under some settings. -/
def sessionFrom (settings : Settings) (id : Nat) : Session :=
  .fresh id settings.mining.extranonce2Size settings.mining.initialDifficulty

/-- Whoever comes in starts under the settings. -/
theorem session_of_starts (hmoves : Moves (fresh settings tasks) h w) (hstarts : w.Starts c) :
    c.session = sessionFrom settings c.id ∧ deedsOf h c.id = [] := by
  have hlt := hstarts.lt
  obtain ⟨ip, limit, p, henter, hsession⟩ := hstarts
  obtain ⟨_, _, a, _, rfl⟩ := Pool.enter_seat henter
  obtain ⟨hsettings, moves, hattained⟩ := attained_of_moves hmoves
  constructor
  · rw [hsession, Pool.session, sessionFrom, ← hsettings, ← hattained.difficulty]
  · refine (told_nothing fun b hb heq => ?_).2
    have hle := (staged_moves hmoves).told b hb
    omega

/-- A session is what the deeds of its connection have left of it since it started. -/
theorem session_from_start (hmoves : Moves (fresh settings tasks) h w) :
    ∀ c ∈ w.connections, Carries (sessionFrom settings c.id) (deedsOf h c.id) c.session := by
  induction hmoves with
  | refl => exact fun _ hc => absurd hc List.not_mem_nil
  | tail hmoves hstep ih =>
      intro c hc
      rcases session_move hstep hc with ⟨d, hd, hid, hcarries⟩ | ⟨rfl, hstarts⟩
      · rw [deedsOf_append, ← hid]
        rw [← hid] at hcarries
        exact (ih d hd).trans hcarries
      · obtain ⟨hsession, hnone⟩ := session_of_starts hmoves hstarts
        rw [List.append_nil, hnone, hsession]
        exact .refl _

/--
**Sessions only move forward.**

Whatever requests a miner makes, whatever the work source does and whatever happens to others: its session is what its
commands have made of a session that started under the settings, at each request it is what the commands before it have
made of it, and what comes later only adds to it. And all its subscriptions get the same answer.
-/
theorem sessions_move_forward (hmoves : Moves (fresh settings tasks) h w) (hc : c ∈ w.connections) :
    let first := sessionFrom settings c.id
    Session.After (commandsOf (deedsOf h c.id)) first c.session
      ∧ (∀ earlier source p s r later, deedsOf h c.id = earlier ++ .served source p s r :: later →
          Session.After (commandsOf earlier) first s
            ∧ Session.After (Command.ofRequest? r).toList s (p.answer source s r).session
            ∧ ∀ software, Command.ofRequest r = .ok (.subscribe software) →
              (p.answer source s r).reply = .ok first.welcome)
      ∧ ∀ k w' c', Moves w k w' → c' ∈ w'.connections → c'.id = c.id →
          Session.After (commandsOf (deedsOf k c.id)) c.session c'.session := by
  intro first
  have hcarries := session_from_start hmoves c hc
  have hpriced : Priced first.difficulty (deedsOf h c.id) := priced_of_moves hmoves c.id
  have hafter := hcarries.after hpriced
  refine ⟨hafter, fun earlier source p s r later hlog => ?_, fun k w' c' hk hc' hid => ?_⟩
  · rw [hlog] at hcarries hpriced
    have hs : s = sessionAfter first earlier := session_of_served hcarries.continues
    have hbefore : Session.After (commandsOf earlier) first s :=
      Carries.after ⟨(continues_append.mp hcarries.continues).1, hs⟩ (hpriced.of_subset (by simp))
    have hdifficulty : p.ledger.difficulty = s.difficulty := by
      rw [hbefore.difficulty]
      exact hpriced source p s r (by simp)
    refine ⟨hbefore, Pool.after_answer source hdifficulty r, fun software hr => ?_⟩
    rw [Pool.answer_subscribe source hdifficulty hr, hbefore.welcome]
  · refine (session_moves hk (staged_moves hmoves).numbered hc hc' hid).after ?_
    -- the later pools are those of a longer run
    have hall := priced_of_moves (hmoves.trans hk) c.id
    rw [deedsOf_append] at hall
    rw [hafter.difficulty]
    exact hall.of_subset (List.subset_append_right _ _)

/-- Five lines: a subscription, a login that names no one, a login, a share, and a subscription that says nothing. -/
def chatter : Bytes :=
  ["[1,\"mining.subscribe\",[\"rig/1\"]]", "[2,\"mining.authorize\",[]]",
    "[3,\"mining.authorize\",[\"wallet.rig\"]]", "[4,\"mining.submit\",[\"\",\"\",\"\",\"\"]]",
    "[5,\"mining.subscribe\",[]]"].flatMap fun text => Utf8.encodeText text ++ [lineFeed]

theorem sessions_move_forward_second_subscription :
    let source : Source := ⟨fun _ => .error .unauthorized, fun _ => .ok false⟩
    let played := (fresh .standard false).play source
      ([.enters ⟨.v4 1, 50001⟩ none, .sends 1 chatter] ++ List.replicate 10 (.turns 1))
    Moves (fresh .standard false) played.1 played.2
      ∧ ∃ c ∈ played.2.connections, c.id = 1 ∧ c.session.software = some "rig/1"
        ∧ (c.session.address, c.session.worker) = ("wallet", "rig")
        ∧ c.session.validShares + c.session.invalidShares = 1 := by
  intro source played
  have hmoves : Moves (fresh .standard false) played.1 played.2 := moves_play source _ _
  have hcommands : commandsOf (deedsOf played.1 1)
      = [.subscribe (some "rig/1"), .authorize "wallet.rig" "wallet" "rig", .submit ⟨"", "", "", none, ""⟩,
        .subscribe none] := by
    decide +kernel
  obtain ⟨c, hc, hid⟩ : ∃ c ∈ played.2.connections, c.id = 1 := by decide +kernel
  have hafter := (sessions_move_forward hmoves hc).1
  rw [hid, hcommands] at hafter
  exact ⟨hmoves, c, hc, hid, hafter.software, hafter.login, hafter.shares⟩

end World
end MiningPool

import MiningPool.Proofs.Connection.Transcript
import MiningPool.Proofs.World.Events

/-!
# Every connection of a run has its transcript

Whatever happens in a world, each of its connections is on a scene that can come of its start: a move of its
own is a step of that scene, and a move of anyone else is something that happens elsewhere. So what was shown
of scenes holds of all connections at all times.
-/

namespace MiningPool

open Net Wire Connection

namespace World

variable {w w' : World} {c d : Connection} {h l : List Act} {p q : Pool}

/-! ## Scenes of a world -/

/-- A connection is on a scene with the bytes and deeds that were told of it. -/
def OnScene (h : List Act) (p : Pool) (c : Connection) : Prop :=
  ∃ first now peer room queued, Scene.Reachable (.start first now c.id peer room)
    ⟨p, c, streamOf h c.id, queued, deedsOf h c.id⟩

theorem OnScene.step (hs : OnScene h p c) (hid : d.id = c.id)
    (hstep : ∀ queued, Scene.Step ⟨p, c, streamOf h c.id, queued, deedsOf h c.id⟩
      ⟨q, d, streamOf h c.id ++ streamOf l c.id, queued, deedsOf h c.id ++ deedsOf l c.id⟩) :
    OnScene (h ++ l) q d := by
  obtain ⟨first, now, peer, room, queued, hreach⟩ := hs
  refine ⟨first, now, peer, room, queued, ?_⟩
  rw [hid, streamOf_append, deedsOf_append]
  exact hreach.tail (hstep queued)

/-- Something happens to a connection, and no bytes arrive and it does nothing. -/
theorem OnScene.silently (hs : OnScene h p c) (hid : d.id = c.id)
    (hstep : ∀ stream queued log, Scene.Step ⟨p, c, stream, queued, log⟩ ⟨q, d, stream, queued, log⟩) :
    OnScene (h ++ []) q d := by
  obtain ⟨first, now, peer, room, queued, hreach⟩ := hs
  refine ⟨first, now, peer, room, queued, ?_⟩
  rw [hid, List.append_nil]
  exact hreach.tail (hstep _ queued _)

theorem OnScene.elsewhere (hs : OnScene h p c) (hothers : ∃ ms, Elsewhere c.id p q ms)
    (hstream : streamOf l c.id = []) (hdeeds : deedsOf l c.id = []) : OnScene (h ++ l) q c := by
  obtain ⟨first, now, peer, room, queued, hreach⟩ := hs
  obtain ⟨ms, hms⟩ := hothers
  refine ⟨first, now, peer, room, queued ++ ms, ?_⟩
  rw [streamOf_append, deedsOf_append, hstream, hdeeds, List.append_nil, List.append_nil]
  exact hreach.tail (.meanwhile hms)

theorem OnScene.same (hs : OnScene h p c) : OnScene (h ++ []) p c := by
  rw [List.append_nil]
  exact hs

/-- One connection goes on, and to all others that happens elsewhere. -/
theorem onScene_replace (hs : ∀ c ∈ w.connections, OnScene h w.pool c) {c' : Connection}
    (hgoes : OnScene (h ++ l) q c')
    (hothers : ∀ d ∈ w.connections, d.id ≠ c'.id →
      (∃ ms, Elsewhere d.id w.pool q ms) ∧ streamOf l d.id = [] ∧ deedsOf l d.id = []) :
    ∀ d ∈ (w.replace c').connections, OnScene (h ++ l) q d := by
  intro d hd
  rcases mem_replace hd with rfl | ⟨hold, hne⟩
  · exact hgoes
  · obtain ⟨hms, hstream, hdeeds⟩ := hothers d hold hne
    exact (hs d hold).elsewhere hms hstream hdeeds

/-- The acts of a move are those of connections that are there. -/
theorem id_of_move (hmove : Move w l w') {a : Act} (ha : a ∈ l) : ∃ c ∈ w.connections, c.id = a.id := by
  cases hmove with
  | turn source hturn =>
      obtain ⟨hc⟩ := hturn
      exact ⟨_, hc, by rw [List.mem_singleton.mp ha]; rfl⟩
  | arrives bs hc hover => exact ⟨_, hc, by rw [List.mem_singleton.mp ha]; rfl⟩
  | cuts hc hopen => exact ⟨_, hc, by rw [List.mem_singleton.mp ha]; rfl⟩
  | _ => exact absurd ha List.not_mem_nil

theorem lastSession_move (hmove : Move w l w') : w.pool.lastSession ≤ w'.pool.lastSession := by
  cases hmove with
  | turn source hturn =>
      obtain ⟨_⟩ := hturn
      exact Nat.le_of_eq (kept_turn (turn_takes source w.now w.pool _)).lastSession.symm
  | @admits peer room limit id p henter =>
      obtain ⟨hid, hlast, _, _⟩ := Pool.enter_ok henter
      have hregister : (p.register id peer).lastSession = w.pool.lastSession + 1 := hlast.trans hid
      show _ ≤ (p.register id peer).lastSession
      rw [hregister]
      exact Nat.le_succ _
  | meanwhile hothers => exact Pool.lastSession_meanwhile hothers
  | _ => exact Nat.le_refl _

/-- Nothing is told of an id that no act has. -/
theorem told_nothing {id : Nat} (hnone : ∀ a ∈ h, a.id ≠ id) : streamOf h id = [] ∧ deedsOf h id = [] := by
  rw [streamOf, deedsOf, List.flatMap_eq_nil_iff, List.flatMap_eq_nil_iff]
  constructor
  · intro a ha
    cases a with
    | did k ds => rfl
    | arrived k bs => exact if_neg (hnone _ ha)
  · intro a ha
    cases a with
    | did k ds => exact if_neg (hnone _ ha)
    | arrived k bs => rfl

/-- Ids are told only of those who were let in, and these are all on their scenes. -/
structure Staged (h : List Act) (w : World) : Prop where
  numbered : w.Numbered
  told : ∀ a ∈ h, a.id ≤ w.pool.lastSession
  onScene : ∀ c ∈ w.connections, OnScene h w.pool c

theorem staged_fresh (settings : Settings) (tasks : Bool) : Staged [] (fresh settings tasks) where
  numbered := numbered_fresh settings tasks
  told := fun _ ha => absurd ha List.not_mem_nil
  onScene := fun _ hc => absurd hc List.not_mem_nil

/-- Whoever is let in starts its scene, and nothing was told of it before. -/
theorem onScene_admitted (hs : Staged h w) {peer : Socket} {room limit : Option Nat} {id : Nat}
    (henter : w.pool.enter w.now peer.ip limit = (.ok id, p)) :
    OnScene h (p.register id peer) (.fresh p w.now id peer room) := by
  obtain ⟨hid, _, _, _⟩ := Pool.enter_ok henter
  have hnone : ∀ a ∈ h, a.id ≠ id := by
    intro a ha heq
    have hle := hs.told a ha
    rw [heq, hid] at hle
    exact absurd hle (Nat.not_succ_le_self _)
  obtain ⟨hstream, hdeeds⟩ := told_nothing hnone
  refine ⟨p, w.now, peer, room, [], ?_⟩
  have hnew : (Connection.fresh p w.now id peer room).id = id := rfl
  rw [hnew, hstream, hdeeds]
  exact .refl

/-- **Every move keeps all connections on their scenes.** -/
theorem onScene_move (hs : Staged h w) (hmove : Move w l w') :
    ∀ d ∈ w'.connections, OnScene (h ++ l) w'.pool d := by
  cases hmove with
  | turn source hturn =>
      obtain ⟨hc⟩ := hturn
      rename_i c
      have htakes := turn_takes source w.now w.pool c
      have hid := (kept_turn htakes).id
      refine onScene_replace hs.onScene ((hs.onScene c hc).step hid fun queued => ?_) fun d _ hne => ?_
      · rw [streamOf_did, List.append_nil, deedsOf_self]
        exact .turn source w.now
      · rw [hid] at hne
        exact ⟨⟨[], elsewhere_turn htakes hne⟩, streamOf_did _ _ _, deedsOf_of_ne hne.symm _⟩
  | @arrives c bs hc hover =>
      refine onScene_replace hs.onScene ((hs.onScene c hc).step (by rfl) fun queued => ?_) fun d _ hne => ?_
      · rw [streamOf_self, deedsOf_arrived, List.append_nil]
        exact .arrives bs hover
      · exact ⟨⟨[], elsewhere_of_roster rfl rfl⟩, streamOf_of_ne hne.symm _, deedsOf_arrived _ _ _⟩
  | @finishes c hc =>
      refine onScene_replace hs.onScene ((hs.onScene c hc).silently (by rfl) fun _ _ _ => .finishes) ?_
      exact fun d _ _ => ⟨⟨[], elsewhere_of_roster rfl rfl⟩, rfl, rfl⟩
  | @vanishes c hc =>
      refine onScene_replace hs.onScene ((hs.onScene c hc).silently (by rfl) fun _ _ _ => .vanishes) ?_
      exact fun d _ _ => ⟨⟨[], elsewhere_of_roster rfl rfl⟩, rfl, rfl⟩
  | @reads c room hc =>
      refine onScene_replace hs.onScene ((hs.onScene c hc).silently (by rfl) fun _ _ _ => .reads room) ?_
      exact fun d _ _ => ⟨⟨[], elsewhere_of_roster rfl rfl⟩, rfl, rfl⟩
  | stops =>
      intro d hd
      obtain ⟨c, hc, rfl⟩ := List.mem_map.mp hd
      exact (hs.onScene c hc).silently (by rfl) fun _ _ _ => .stops
  | @cuts c hc hopen =>
      refine onScene_replace hs.onScene ((hs.onScene c hc).step (by rfl) fun queued => ?_) fun d _ hne => ?_
      · rw [streamOf_did, List.append_nil, deedsOf_self]
        exact .cut hopen
      · exact ⟨⟨[], elsewhere_leave _ _⟩, streamOf_did _ _ _, deedsOf_of_ne hne.symm _⟩
  | @admits peer room limit id p henter =>
      obtain ⟨hid, _, hsettings, hroster⟩ := Pool.enter_ok henter
      rw [List.append_nil]
      intro d hd
      rcases List.mem_append.mp hd with hold | hnew
      · have hne : d.id ≠ id := by
          have hle := hs.numbered.used d hold
          rw [hid]
          exact Nat.ne_of_lt (Nat.lt_succ_of_le hle)
        have hothers : Elsewhere d.id w.pool (p.register id peer) [] :=
          (elsewhere_of_roster hsettings hroster).trans (elsewhere_register peer hne)
        have hscene := (hs.onScene d hold).elsewhere (l := []) ⟨[], hothers⟩ rfl rfl
        rw [List.append_nil] at hscene
        exact hscene
      · rw [List.mem_singleton.mp hnew]
        exact onScene_admitted hs henter
  | meanwhile hothers =>
      exact fun d hd => (hs.onScene d hd).elsewhere (Pool.elsewhere_meanwhile d.id hothers) rfl rfl
  | passes r s hle => exact fun d hd => (hs.onScene d hd).same

theorem staged_move (hmove : Move w l w') (hs : Staged h w) : Staged (h ++ l) w' where
  numbered := numbered_move hmove hs.numbered
  told := by
    intro a ha
    have hkeeps := lastSession_move hmove
    rcases List.mem_append.mp ha with hold | hnew
    · exact Nat.le_trans (hs.told a hold) hkeeps
    · obtain ⟨c, hc, hid⟩ := id_of_move hmove hnew
      rw [← hid]
      exact Nat.le_trans (hs.numbered.used c hc) hkeeps
  onScene := onScene_move hs hmove

theorem staged_moves {settings : Settings} {tasks : Bool} (hmoves : Moves (fresh settings tasks) h w) :
    Staged h w := by
  induction hmoves with
  | refl => exact staged_fresh settings tasks
  | tail _ hstep ih => exact staged_move hstep ih

/-! ## Transcripts -/

/--
**Every connection has its transcript, in whatever order things happen.**

Its bytes and its deeds are those that the moves tell of it.
-/
theorem transcript_of_moves {settings : Settings} {tasks : Bool} (hmoves : Moves (fresh settings tasks) h w)
    (hc : c ∈ w.connections) : ∃ first queued,
      Scene.Transcript (Pool.session first c.id) ⟨w.pool, c, streamOf h c.id, queued, deedsOf h c.id⟩ := by
  obtain ⟨first, now, peer, room, queued, hreach⟩ := (staged_moves hmoves).onScene c hc
  exact ⟨first, queued, Scene.transcript_of_faithful (Scene.faithful_reachable hreach)⟩

/-- **Every connection of a run has its transcript, with the bytes that the run sent it.** -/
theorem transcript_of_run {settings : Settings} {tasks : Bool} {events : List (Source × Event)}
    (hc : c ∈ ((fresh settings tasks).run events).connections) : ∃ first queued log,
      Scene.Transcript (Pool.session first c.id) ⟨((fresh settings tasks).run events).pool, c,
        (fresh settings tasks).stream events c.id, queued, log⟩ := by
  obtain ⟨h, hmoves, hstream⟩ := run_moves events (fresh settings tasks) (numbered_fresh settings tasks)
    (fun d hd => absurd hd List.not_mem_nil)
  obtain ⟨first, queued, htranscript⟩ := transcript_of_moves hmoves hc
  rw [hstream] at htranscript
  exact ⟨first, queued, _, htranscript⟩

end World
end MiningPool

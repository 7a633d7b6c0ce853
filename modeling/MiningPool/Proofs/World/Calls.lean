import MiningPool.Proofs.Admission.Calls
import MiningPool.Proofs.Connection.Shares
import MiningPool.Proofs.Roster.Closing
import MiningPool.Proofs.World.Moves

/-!
# What admission hears, and who is asked to close

The deeds of a connection say what it tells admission: of a bad line or a share when it has seen to it, of a ban
and of its own end. Whatever else happens in a world tells admission of no share, and bans an address only by asking
it to close as well (`Bans`). No move takes back that someone was asked to close.
-/

namespace MiningPool

open Net Wire

/-! ## The turn of a connection -/

namespace Connection

/-- What a connection from an address tells admission with a deed. -/
def Deed.calls (ip : Ip) : Deed → List Admission.Call
  | .noted _ _ => [.malformed ip]
  | .reported accepted _ => [.share ip accepted]
  | .ended .banned => [.ban ip, .release ip]
  | .ended _ => [.release ip]
  | _ => []

/-- The shares that a connection tells of are those that its deeds report. -/
theorem sharesOf_calls (ip l : Ip) (ds : List Deed) :
    Admission.sharesOf l (ds.flatMap (Deed.calls ip)) = if ip = l then reportsOf ds else [] := by
  induction ds with
  | nil =>
      split
      · rfl
      · rfl
  | cons d ds ih =>
      rw [List.flatMap_cons, Admission.sharesOf_append, ih]
      cases d with
      | reported accepted verdict =>
          by_cases h : ip = l
          · simp [Deed.calls, Admission.sharesOf, Admission.Call.share?, reportsOf, h]
          · simp [Deed.calls, Admission.sharesOf, Admission.Call.share?, h]
      | ended why => cases why <;> rfl
      | _ => rfl

/-- A connection bans its own address, and only when it ends with a ban. -/
theorem eq_banned_of_call {ip l : Ip} {d : Deed} (h : .ban l ∈ d.calls ip) : ip = l ∧ d = .ended .banned := by
  cases d with
  | ended why =>
      cases why with
      | banned => exact ⟨by simpa [Deed.calls, eq_comm] using h, rfl⟩
      | _ => exact absurd h (by simp [Deed.calls])
  | _ => exact absurd h (by simp [Deed.calls])

variable {source : Source} {now : Instant} {p : Pool} {c : Connection} {ds : List Deed} {t : Turn}

theorem admission_banPeer (now : Instant) (p : Pool) (ip : Ip) :
    (p.banPeer now ip).2.admission = (p.admission.ban now ip).2 := by
  unfold Pool.banPeer
  rcases hb : p.admission.ban now ip with ⟨banned, a⟩
  cases banned with
  | false => exact (Admission.eq_of_ban_false hb).symm
  | true => rfl

/-- **What a turn leaves of admission is what its deeds tell it.** -/
theorem admission_turn (h : Takes source now p c ds t) :
    (t.pool p).admission = p.admission.calls now (ds.flatMap (Deed.calls c.peer.ip)) := by
  cases h with
  | stays hp => rfl
  | broken hp hg => rfl
  | writes hp hg hw hr => rfl
  | wrote hp hg hw => rfl
  | reports hp hg hw hv =>
      show _ = (p.admission.recordShare c.peer.ip _).2
      rw [hv]
      rfl
  | condemned hp hg hw hv =>
      show ((Pool.banPeer _ now c.peer.ip).2.admission).release c.peer.ip
        = (((p.admission.recordShare c.peer.ip _).2.ban now c.peer.ip).2).release c.peer.ip
      rw [admission_banPeer, hv]
  | stops hp hs => rfl
  | yields hp hs hk => rfl
  | forwards ha hm => rfl
  | @serves r f o hl hn ho =>
      have hrooms := Pool.sameRooms_answer source p c.session r
      rw [ho] at hrooms
      exact hrooms.admission
  | refuses hl hn hv =>
      show _ = (p.admission.recordMalformed c.peer.ip).2
      rw [hv]
      rfl
  | drops hl hn hf hv =>
      show _ = (p.admission.recordMalformed c.peer.ip).2
      rw [hv]
      rfl
  | bans hl hn hv =>
      show ((Pool.banPeer _ now c.peer.ip).2.admission).release c.peer.ip
        = (((p.admission.recordMalformed c.peer.ip).2.ban now c.peer.ip).2).release c.peer.ip
      rw [admission_banPeer, hv]
  | hangsUp hl hn he => rfl
  | idles hl hn he hd => rfl
  | waits hl hn he hd => rfl

theorem lasts_banPeer (now : Instant) (p : Pool) (ip : Ip) (id : Nat) :
    p.roster.Lasts id (p.banPeer now ip).2.roster := by
  unfold Pool.banPeer
  split
  · exact .refl id p.roster
  · exact Roster.lasts_killIp p.roster id ip

theorem lasts_close (p : Pool) (c : Connection) (fault : Option Fault) (id : Nat) :
    p.roster.Lasts id (c.close p fault none).pool.roster := Roster.lasts_leave p.roster id c.id

/-- **A turn shows the session that it leaves, or it leaves the session and all that is shown as they are.** -/
theorem shows_turn (h : Takes source now p c ds t) :
    (t.pool p).roster = p.roster.publish c.id (t.connection.session.snapshot c.peer)
      ∨ t.connection.session = c.session ∧ ∀ id, p.roster.Lasts id (t.pool p).roster := by
  cases h with
  | broken hp hg => exact .inr ⟨rfl, lasts_close p c _⟩
  | @condemned left accepted client a hp hg hw hv =>
      refine .inr ⟨rfl, fun id => ?_⟩
      exact (lasts_banPeer now { p with admission := a } c.peer.ip id).trans (Roster.lasts_leave _ id c.id)
  | stops hp hs => exact .inr ⟨rfl, lasts_close p c none⟩
  | yields hp hs hk => exact .inr ⟨rfl, lasts_close p c none⟩
  | @forwards m q ha hm =>
      refine .inr ⟨rfl, fun id => ?_⟩
      have htake := Roster.lasts_take p.roster id c.id
      rw [hm] at htake
      exact htake
  | @serves r f o hl hn ho =>
      have hrooms := Pool.sameRooms_answer source p c.session r
      rw [ho] at hrooms
      exact .inl (congrArg (·.publish c.id (o.session.snapshot c.peer)) hrooms.roster)
  | @bans fault f a hl hn hv =>
      refine .inr ⟨rfl, fun id => ?_⟩
      exact (lasts_banPeer now { p.count .malformedLine with admission := a } c.peer.ip id).trans
        (Roster.lasts_leave _ id c.id)
  | hangsUp hl hn he => exact .inr ⟨rfl, lasts_close p _ none⟩
  | idles hl hn he hd => exact .inr ⟨rfl, lasts_close p _ none⟩
  | _ => exact .inr ⟨rfl, fun id => .refl id p.roster⟩

/-- **No turn takes back that someone was asked to close.** -/
theorem stays_turn (h : Takes source now p c ds t) (id : Nat) : p.roster.Stays id (t.pool p).roster := by
  rcases shows_turn h with hshows | ⟨_, hlasts⟩
  · rw [hshows]
    exact Roster.stays_publish p.roster id c.id _
  · exact (hlasts id).stays

theorem peer_turn (h : Takes source now p c ds t) : t.connection.peer = c.peer := by
  cases h with
  | _ => rfl

end Connection

/-! ## What happens to the pool alone -/

namespace Pool

variable {now : Instant} {p q : Pool}

/-- What may happen to a pool while all connections stay as they are, with what admission is told of it. -/
inductive Hears (now : Instant) (p : Pool) : List Admission.Call → Pool → Prop
  | pushed (id : Nat) (m : Message) : Hears now p [] { p with roster := (p.roster.sendTo id m).2 }
  | killed (id : Nat) : Hears now p [] { p with roster := (p.roster.kill id).2 }
  | banned (ip : Ip) : Hears now p [.ban ip] (p.banPeer now ip).2
  | asked (ip : Ip) : Hears now p [.isBanned ip] { p with admission := (p.admission.isBanned now ip).2 }
  | swept : Hears now p [.sweep] (p.sweep now).2
  | ticked (source : Source) : Hears now p [] (p.tick source).2
  | minted (source : Source) : Hears now p [] (p.mint source).2
  | skipped (last : Nat) : Hears now p [] (p.skipSessions last)
  | counted (h : Happening) : Hears now p [] (p.count h)
  | refused {ip : Ip} {limit : Option Nat} {why : Refusal} {q : Pool}
      (h : p.enter now ip limit = (.error why, q)) (hout : (p.admission.letIn now ip).1 ≠ .admitted) :
      Hears now p [.letIn ip] q
  /-- Admission lets someone in for whom there is no seat or no id. -/
  | turnedAway {ip : Ip} {limit : Option Nat} {why : Refusal} {q : Pool}
      (h : p.enter now ip limit = (.error why, q)) (hin : (p.admission.letIn now ip).1 = .admitted) :
      Hears now p [.letIn ip, .release ip] q

variable {cs : List Admission.Call}

theorem Hears.meanwhile (h : Hears now p cs q) : Meanwhile now p q := by
  cases h with
  | pushed id m => exact .pushed id m
  | killed id => exact .killed id
  | banned ip => exact .banned ip
  | asked ip => exact .asked ip
  | swept => exact .swept
  | ticked source => exact .ticked source
  | minted source => exact .minted source
  | skipped last => exact .skipped last
  | counted what => exact .counted what
  | refused henter hout => exact .refused henter
  | turnedAway henter hin => exact .refused henter

theorem exists_hears (h : Meanwhile now p q) : ∃ cs, Hears now p cs q := by
  cases h with
  | pushed id m => exact ⟨_, .pushed id m⟩
  | killed id => exact ⟨_, .killed id⟩
  | banned ip => exact ⟨_, .banned ip⟩
  | asked ip => exact ⟨_, .asked ip⟩
  | swept => exact ⟨_, .swept⟩
  | ticked source => exact ⟨_, .ticked source⟩
  | minted source => exact ⟨_, .minted source⟩
  | skipped last => exact ⟨_, .skipped last⟩
  | counted what => exact ⟨_, .counted what⟩
  | @refused ip limit why q henter =>
      by_cases hin : (p.admission.letIn now ip).1 = .admitted
      · exact ⟨_, .turnedAway henter hin⟩
      · exact ⟨_, .refused henter hin⟩

/-- **What happens to a pool leaves of admission what it tells it.** -/
theorem Hears.admission (h : Hears now p cs q) : q.admission = p.admission.calls now cs := by
  cases h with
  | banned ip => exact Connection.admission_banPeer now p ip
  | ticked source =>
      unfold tick
      split
      · rfl
      · rcases hmint : p.mint source with ⟨made, v⟩
        have hv : v.admission = p.admission := by
          have hsecond : v = (p.mint source).2 := by rw [hmint]
          rw [hsecond]
          rfl
        cases made with
        | error fault => exact hv
        | ok job => exact hv
  | refused henter hout =>
      rcases enter_no_seat henter with ⟨_, rfl⟩ | ⟨hin, _⟩
      · rfl
      · exact absurd hin hout
  | turnedAway henter hin =>
      rcases enter_no_seat henter with ⟨hout, _⟩ | ⟨_, rfl⟩
      · exact absurd hin hout
      · rfl
  | _ => rfl

/-- **Nothing else that happens to a pool tells admission of a share or a bad line**, and whatever bans an address asks
it to close. -/
theorem Hears.accuses (h : Hears now p cs q) : (∀ ip accepted, .share ip accepted ∉ cs)
    ∧ (∀ ip, .malformed ip ∉ cs) ∧ ∀ ip, .ban ip ∈ cs → q = (p.banPeer now ip).2 := by
  cases h with
  | banned ip =>
      refine ⟨by simp, by simp, fun l hl => ?_⟩
      rw [List.mem_singleton, Admission.Call.ban.injEq] at hl
      rw [hl]
  | _ => exact ⟨by simp, by simp, by simp⟩

theorem calls_meanwhile (h : Meanwhile now p q) : ∃ cs, q.admission = p.admission.calls now cs
    ∧ (∀ ip accepted, .share ip accepted ∉ cs) ∧ ∀ ip, .ban ip ∈ cs → q = (p.banPeer now ip).2 := by
  obtain ⟨cs, hhears⟩ := exists_hears h
  obtain ⟨hshare, _, hban⟩ := hhears.accuses
  exact ⟨cs, hhears.admission, hshare, hban⟩

/-- **Nothing that happens to a pool changes what is shown**, and nothing takes back that someone was asked to close. -/
theorem lasts_meanwhile (h : Meanwhile now p q) (id : Nat) : p.roster.Lasts id q.roster := by
  cases h with
  | pushed l m => exact Roster.lasts_offer p.roster id l m
  | killed l => exact Roster.lasts_kill p.roster id l
  | banned ip => exact Connection.lasts_banPeer now p ip id
  | ticked source =>
      unfold tick
      split
      · exact .refl id p.roster
      · rcases hmint : p.mint source with ⟨made, v⟩
        have hv : v.roster = p.roster := by
          have hsecond : v = (p.mint source).2 := by rw [hmint]
          rw [hsecond]
          rfl
        cases made with
        | error fault => exact Roster.lasts_of_same (congrArg (·.get? id) hv)
        | ok job =>
            rw [← hv]
            exact Roster.lasts_offerAll id _ v.roster.ids (.nothing, v.roster)
  | refused henter =>
      have hroster := (enter_error henter).2.2
      exact Roster.lasts_of_same (congrArg (·.get? id) hroster)
  | _ => exact .refl id p.roster

end Pool

/-! ## Moves -/

namespace World

open Connection

variable {w w' : World} {as : List Act} {c d : Connection} {ip : Ip}

theorem Numbered.find?_of_mem (hn : w.Numbered) (hc : c ∈ w.connections) : w.find? c.id = some c := by
  cases hfind : w.find? c.id with
  | none => exact absurd (List.find?_eq_none.mp hfind c hc) (by simp)
  | some d =>
      have hid : d.id = c.id := by simpa using List.find?_some hfind
      rw [hn.eq_of_id hc (List.mem_of_find?_eq_some hfind) hid]

/-- **Connections keep their ids and addresses**, and whoever is new behind them was let in just then. -/
theorem connections_move (hn : w.Numbered) (h : Move w as w') : ∃ f new,
    w'.connections = w.connections.map f ++ new
      ∧ (∀ c ∈ w.connections, (f c).id = c.id ∧ (f c).peer = c.peer)
      ∧ ∀ d ∈ new, ∃ limit p, w.pool.enter w.now d.peer.ip limit = (.ok d.id, p)
        ∧ w'.pool = p.register d.id d.peer := by
  -- most moves replace one connection, or none
  have hmap : ∀ {f : Connection → Connection} {v : World}, v.connections = w.connections.map f →
      (∀ c ∈ w.connections, (f c).id = c.id ∧ (f c).peer = c.peer) → ∃ f new,
        v.connections = w.connections.map f ++ new
          ∧ (∀ c ∈ w.connections, (f c).id = c.id ∧ (f c).peer = c.peer)
          ∧ ∀ d ∈ new, ∃ limit p, w.pool.enter w.now d.peer.ip limit = (.ok d.id, p)
            ∧ v.pool = p.register d.id d.peer :=
    fun hv hf => ⟨_, [], hv.trans (List.append_nil _).symm, hf, by simp⟩
  have hreplace : ∀ {c c' : Connection}, c ∈ w.connections → c'.id = c.id → c'.peer = c.peer →
      ∀ d ∈ w.connections, (if d.id = c'.id then c' else d).id = d.id
        ∧ (if d.id = c'.id then c' else d).peer = d.peer := by
    intro c c' hc hid hpeer d hd
    split
    · rename_i heq
      rw [hn.eq_of_id hc hd (heq.trans hid)]
      exact ⟨hid, hpeer⟩
    · exact ⟨rfl, rfl⟩
  cases h with
  | turn source h =>
      obtain ⟨hc⟩ := h
      rename_i c
      have htakes := turn_takes source w.now w.pool c
      exact hmap rfl (hreplace hc (kept_turn htakes).id (peer_turn htakes))
  | arrives bs hc h => exact hmap rfl (hreplace hc rfl rfl)
  | finishes hc => exact hmap rfl (hreplace hc rfl rfl)
  | vanishes hc => exact hmap rfl (hreplace hc rfl rfl)
  | reads room hc => exact hmap rfl (hreplace hc rfl rfl)
  | stops => exact hmap rfl fun _ _ => ⟨rfl, rfl⟩
  | cuts hc h => exact hmap rfl (hreplace hc rfl rfl)
  | @admits peer room limit id p henter =>
      refine ⟨fun c => c, [.fresh p w.now id peer room], ?_, fun _ _ => ⟨rfl, rfl⟩, fun d hd => ?_⟩
      · rw [List.map_id']
      · rw [List.mem_singleton.mp hd]
        exact ⟨limit, p, henter, rfl⟩
  | meanwhile h => exact hmap (List.map_id' _).symm fun _ _ => ⟨rfl, rfl⟩
  | passes r s h => exact hmap (List.map_id' _).symm fun _ _ => ⟨rfl, rfl⟩

/-- **What a move tells of a connection is its turn, or that it was cut off, or nothing.** -/
theorem deedsOf_move (h : Move w as w') (id : Nat) :
    deedsOf as id = []
      ∨ (∃ source, ∃ c ∈ w.connections, c.id = id ∧ deedsOf as id = deeds source w.now w.pool c)
      ∨ deedsOf as id = [.ended .cutOff] := by
  cases h with
  | turn source h =>
      obtain ⟨hc⟩ := h
      rename_i c
      by_cases hid : c.id = id
      · rw [← hid, deedsOf_self]
        exact Or.inr (Or.inl ⟨source, c, hc, rfl, rfl⟩)
      · exact Or.inl (deedsOf_of_ne hid _)
  | @cuts c hc hopen =>
      by_cases hid : c.id = id
      · rw [← hid, deedsOf_self]
        exact Or.inr (Or.inr rfl)
      · exact Or.inl (deedsOf_of_ne hid _)
  | _ => exact Or.inl rfl

/-! ### Bans -/

/-- An address is banned at once: someone has it banned, or one of its own connections has done what leads to it. -/
inductive Bans (ip : Ip) (w : World) : List Act → World → Prop where
  | asked : Bans ip w [] { w with pool := (w.pool.banPeer w.now ip).2 }
  | earned {c : Connection} (source : Source) (hc : c ∈ w.connections) (hip : c.peer.ip = ip)
      (hd : .ended .banned ∈ deeds source w.now w.pool c) :
      Bans ip w [.did c.id (deeds source w.now w.pool c)] (w.took (c.turn source w.now w.pool))

theorem Bans.move (h : Bans ip w as w') : Move w as w' := by
  cases h with
  | asked => exact .meanwhile (.banned ip)
  | earned source hc hip hd => exact .turn source (.turn hc)

/-! ### What admission is told -/

/-- All that can happen, with what admission is told of it. -/
inductive Tells : World → List Act → List Admission.Call → World → Prop
  | turn {w : World} {c : Connection} (source : Source) (hc : c ∈ w.connections) :
      Tells w [.did c.id (deeds source w.now w.pool c)]
        ((deeds source w.now w.pool c).flatMap (Deed.calls c.peer.ip)) (w.took (c.turn source w.now w.pool))
  | cuts {w : World} {c : Connection} (hc : c ∈ w.connections) (h : c.isOpen = true) :
      Tells w [.did c.id [.ended .cutOff]] [.release c.peer.ip]
        { w.replace (c.close w.pool none none).connection with pool := (c.close w.pool none none).pool }
  | admits {w : World} {peer : Socket} {room limit : Option Nat} {id : Nat} {p : Pool}
      (h : w.pool.enter w.now peer.ip limit = (.ok id, p)) :
      Tells w [] [.letIn peer.ip] { w with
        pool := p.register id peer
        connections := w.connections ++ [.fresh p w.now id peer room] }
  | meanwhile {w : World} {p : Pool} {cs : List Admission.Call} (h : Pool.Hears w.now w.pool cs p) :
      Tells w [] cs { w with pool := p }
  /-- What does not concern the pool. -/
  | silent {w w' : World} {as : List Act} (h : Move w as w') (hpool : w'.pool = w.pool)
      (hdeeds : ∀ id, deedsOf as id = []) : Tells w as [] w'

variable {cs : List Admission.Call}

theorem Tells.move (h : Tells w as cs w') : Move w as w' := by
  cases h with
  | turn source hc => exact .turn source (.turn hc)
  | cuts hc h => exact .cuts hc h
  | admits h => exact .admits h
  | meanwhile h => exact .meanwhile h.meanwhile
  | silent h hpool hdeeds => exact h

theorem exists_tells (h : Move w as w') : ∃ cs, Tells w as cs w' := by
  have hsilent : ∀ {v : World} {ds : List Act}, Move w ds v → v.pool = w.pool → (∀ id, deedsOf ds id = []) →
      ∃ cs, Tells w ds cs v := fun hm hpool hdeeds => ⟨[], .silent hm hpool hdeeds⟩
  cases h with
  | turn source h =>
      obtain ⟨hc⟩ := h
      exact ⟨_, .turn source hc⟩
  | cuts hc h => exact ⟨_, .cuts hc h⟩
  | admits h => exact ⟨_, .admits h⟩
  | meanwhile h =>
      obtain ⟨cs, hcs⟩ := Pool.exists_hears h
      exact ⟨cs, .meanwhile hcs⟩
  | arrives bs hc h => exact hsilent (.arrives bs hc h) rfl fun _ => rfl
  | finishes hc => exact hsilent (.finishes hc) rfl fun _ => rfl
  | vanishes hc => exact hsilent (.vanishes hc) rfl fun _ => rfl
  | reads room hc => exact hsilent (.reads room hc) rfl fun _ => rfl
  | stops => exact hsilent .stops rfl fun _ => rfl
  | passes r s h => exact hsilent (.passes r s h) rfl fun _ => rfl

/-- **What a move leaves of admission is what it was told.** -/
theorem Tells.admission (h : Tells w as cs w') : w'.pool.admission = w.pool.admission.calls w.now cs := by
  cases h with
  | @turn c source hc => exact admission_turn (turn_takes source w.now w.pool c)
  | cuts hc h => rfl
  | admits henter =>
      obtain ⟨_, _, a, hin, rfl⟩ := Pool.enter_seat henter
      exact (congrArg Prod.snd hin).symm
  | meanwhile h => exact h.admission
  | silent h hpool hdeeds => exact congrArg Pool.admission hpool

/-- It was told of a ban only if the move is one. -/
theorem Tells.bans (h : Tells w as cs w') (hban : .ban ip ∈ cs) : Bans ip w as w' := by
  cases h with
  | @turn c source hc =>
      obtain ⟨d, hd, hcall⟩ := List.mem_flatMap.mp hban
      obtain ⟨hip, rfl⟩ := eq_banned_of_call hcall
      exact .earned source hc hip hd
  | cuts hc h => exact absurd hban (by simp)
  | admits henter => exact absurd hban (by simp)
  | meanwhile h =>
      rw [h.accuses.2.2 ip hban]
      exact .asked
  | silent h hpool hdeeds => exact absurd hban List.not_mem_nil

/-! ### What an address has to show -/

variable {β : Type} {f : List Deed → List β}

/-- What the connections from an address have to show of some acts, in order. -/
def gather (f : List Deed → List β) (w : World) (ip : Ip) (h : List Act) : List β :=
  h.flatMap fun
    | .did k ds => if (w.find? k).any (·.peer.ip = ip) then f ds else []
    | .arrived _ _ => []

theorem gather_append (f : List Deed → List β) (w : World) (ip : Ip) (h k : List Act) :
    w.gather f ip (h ++ k) = w.gather f ip h ++ w.gather f ip k := List.flatMap_append

theorem gather_did (hn : w.Numbered) (hc : c ∈ w.connections) (ip : Ip) (ds : List Deed) :
    w.gather f ip [.did c.id ds] = if c.peer.ip = ip then f ds else [] := by
  refine (List.flatMap_singleton _ _).trans ?_
  dsimp only
  rw [hn.find?_of_mem hc, Option.any_some]
  by_cases h : c.peer.ip = ip
  · rw [if_pos h, if_pos (decide_eq_true h)]
  · rw [if_neg h, if_neg (by simpa using h)]

/-- Who did nothing has nothing to show. -/
theorem gather_of_silent (hf : f [] = []) (w : World) (ip : Ip) {h : List Act} (hnone : ∀ id, deedsOf h id = []) :
    w.gather f ip h = [] := by
  refine List.flatMap_eq_nil_iff.mpr fun a ha => ?_
  cases a with
  | arrived k bs => rfl
  | did k ds =>
      have hds : ds = [] := by
        have hall := List.flatMap_eq_nil_iff.mp (hnone k) _ ha
        simpa using hall
      dsimp only
      rw [hds, hf]
      exact ite_self []

/-! ### Shares -/

/-- The shares of an address that some acts report, in order. -/
def reports (w : World) (ip : Ip) (h : List Act) : List Bool :=
  h.flatMap fun
    | .did k ds => if (w.find? k).any (·.peer.ip = ip) then reportsOf ds else []
    | .arrived _ _ => []

theorem reports_append (w : World) (ip : Ip) (h k : List Act) :
    w.reports ip (h ++ k) = w.reports ip h ++ w.reports ip k := List.flatMap_append

theorem reports_did (hn : w.Numbered) (hc : c ∈ w.connections) (ip : Ip) (ds : List Deed) :
    w.reports ip [.did c.id ds] = if c.peer.ip = ip then reportsOf ds else [] := gather_did hn hc ip ds

/-- The shares it was told of are those that the move reports. -/
theorem Tells.shares (h : Tells w as cs w') (hn : w.Numbered) (ip : Ip) :
    Admission.sharesOf ip cs = w.reports ip as := by
  have hsilent : ∀ cs : List Admission.Call, (∀ ip accepted, .share ip accepted ∉ cs) →
      Admission.sharesOf ip cs = [] := by
    intro cs hcs
    refine List.filterMap_eq_nil_iff.mpr fun call hcall => ?_
    cases call with
    | share l accepted => exact absurd hcall (hcs l accepted)
    | _ => rfl
  cases h with
  | @turn c source hc => rw [sharesOf_calls, reports_did hn hc]
  | @cuts c hc h =>
      rw [hsilent _ (by simp), reports_did hn hc]
      exact (ite_self []).symm
  | admits henter => exact hsilent _ (by simp)
  | meanwhile h => exact hsilent cs h.accuses.1
  | silent h hpool hdeeds => exact (gather_of_silent (f := reportsOf) rfl w ip hdeeds).symm

theorem calls_move (hn : w.Numbered) (h : Move w as w') : ∃ cs,
    w'.pool.admission = w.pool.admission.calls w.now cs
      ∧ (∀ ip, Admission.sharesOf ip cs = w.reports ip as) ∧ ∀ ip, .ban ip ∈ cs → Bans ip w as w' := by
  obtain ⟨cs, htells⟩ := exists_tells h
  exact ⟨cs, htells.admission, htells.shares hn, fun _ => htells.bans⟩

/-! ### Asking to close -/

/-- **No move takes back that someone was asked to close.** -/
theorem stays_move (h : Move w as w') {id : Nat} (hid : id ≤ w.pool.lastSession) :
    w.pool.roster.Stays id w'.pool.roster := by
  cases h with
  | turn source h =>
      obtain ⟨_⟩ := h
      exact stays_turn (turn_takes source w.now w.pool _) id
  | cuts hc h => exact (lasts_close w.pool _ none id).stays
  | @admits peer room limit k p henter =>
      obtain ⟨hk, _, _, hroster⟩ := Pool.enter_ok henter
      have hne : id ≠ k := by omega
      rw [← hroster]
      exact (Roster.lasts_register p.roster hne _).stays
  | meanwhile h => exact (Pool.lasts_meanwhile h id).stays
  | _ => exact (Roster.Lasts.refl id w.pool.roster).stays

end World
end MiningPool

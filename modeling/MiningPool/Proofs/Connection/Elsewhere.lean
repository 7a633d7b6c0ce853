import MiningPool.Pool.Broadcast
import MiningPool.Proofs.Connection.Telling

/-!
# What others do meanwhile

A connection shares its pool with others, and between two of its turns they may do anything they can. To its
own queue they can do little: `Elsewhere` says that the settings stay and that messages are only added at the
end, or that the entry is gone. Everything that happens in a pool is of that kind, the turns of all other
connections included.
-/

namespace MiningPool

open Net Wire Connection

/-- What others do with the pool leaves its settings alone, and to the queue of an id they only add some
messages, if they do not remove its entry. -/
structure Elsewhere (id : Nat) (p p' : Pool) (ms : List Message) : Prop where
  settings : p'.settings = p.settings
  adds : p.roster.Adds id p'.roster ms

variable {id : Nat} {p : Pool}

/-- What is not noticed may come before anything. -/
theorem Elsewhere.trans {q q' : Pool} {ms : List Message} (h₁ : Elsewhere id p q [])
    (h₂ : Elsewhere id q q' ms) : Elsewhere id p q' ms :=
  ⟨h₂.settings.trans h₁.settings, h₁.adds.trans h₂.adds⟩

/-- Nothing that leaves the roster alone is noticed. -/
theorem elsewhere_of_roster {q : Pool} (hs : q.settings = p.settings) (hr : q.roster = p.roster) :
    Elsewhere id p q [] :=
  ⟨hs, Roster.adds_of_same (congrArg (·.get? id) hr)⟩

theorem elsewhere_push (l : Nat) (m : Message) :
    Elsewhere id p { p with roster := (p.roster.sendTo l m).2 }
      (if l = id ∧ (p.roster.sendTo l m).1 = true then [m] else []) := by
  refine ⟨rfl, ?_⟩
  have h : p.roster.Adds id (p.roster.offer l m).2
      (if l = id ∧ (p.roster.offer l m).1 = some .taken then [m] else []) := Roster.adds_offer m
  have hsent : (p.roster.sendTo l m).1 = true ↔ (p.roster.offer l m).1 = some .taken := beq_iff_eq
  simp only [hsent]
  exact h

theorem elsewhere_kill (l : Nat) : Elsewhere id p { p with roster := (p.roster.kill l).2 } [] :=
  ⟨rfl, Roster.adds_kill⟩

theorem elsewhere_banPeer (now : Instant) (ip : Ip) : Elsewhere id p (p.banPeer now ip).2 [] := by
  unfold Pool.banPeer
  split
  · exact elsewhere_of_roster rfl rfl
  · exact ⟨rfl, Roster.adds_killIp ip⟩

theorem elsewhere_register {l : Nat} (peer : Socket) (h : id ≠ l) : Elsewhere id p (p.register l peer) [] :=
  ⟨rfl, Roster.adds_of_same (Roster.get?_register_of_ne p.roster h _)⟩

theorem elsewhere_leave (l : Nat) (ip : Ip) : Elsewhere id p (p.leave l ip) [] :=
  ⟨rfl, Roster.adds_leave⟩

/-- A round of broadcasting offers one job to all. -/
theorem elsewhere_tick (source : Source) :
    ∃ ms, (∀ x ∈ ms, ∃ job : Job, x = .notification job.notification)
      ∧ Elsewhere id p (p.tick source).2 ms := by
  unfold Pool.tick
  split
  · exact ⟨[], by simp, elsewhere_of_roster rfl rfl⟩
  · rcases hmint : p.mint source with ⟨made, q⟩
    have hq : q.settings = p.settings ∧ q.roster = p.roster := by
      have h : q = (p.mint source).2 := by rw [hmint]
      subst h
      exact ⟨rfl, rfl⟩
    cases made with
    | error fault => exact ⟨[], by simp, elsewhere_of_roster hq.1 hq.2⟩
    | ok job =>
        have hadds : ∃ ms, (∀ x ∈ ms, x = .notification job.notification)
            ∧ q.roster.Adds id (q.roster.broadcast (.notification job.notification)).2 ms :=
          Roster.adds_broadcast _
        obtain ⟨ms, hms, hadds⟩ := hadds
        refine ⟨ms, fun x hx => ⟨job, hms x hx⟩, hq.1, ?_⟩
        rw [← hq.2]
        exact hadds

/-- A connection bans its own address and is over. -/
theorem elsewhere_banned {now : Instant} {q : Pool} {c : Connection} (hs : q.settings = p.settings)
    (hr : q.roster = p.roster) : Elsewhere id p (c.banPeer now q).pool [] :=
  (elsewhere_of_roster hs hr).trans
    ((elsewhere_banPeer now c.peer.ip).trans (elsewhere_leave c.id c.peer.ip))

/-- **The turn of any other connection is something that others do.** -/
theorem elsewhere_turn {source : Source} {now : Instant} {c : Connection} {ds : List Deed} {t : Turn}
    (h : Takes source now p c ds t) (hne : id ≠ c.id) : Elsewhere id p (t.pool p) [] := by
  cases h with
  | stays hp => exact elsewhere_of_roster rfl rfl
  | broken hp hg => exact elsewhere_leave _ _
  | writes hp hg hw hr => exact elsewhere_of_roster rfl rfl
  | wrote hp hg hw => exact elsewhere_of_roster rfl rfl
  | reports hp hg hw hv => exact elsewhere_of_roster rfl rfl
  | condemned hp hg hw hv => exact elsewhere_banned rfl rfl
  | stops hp hs => exact elsewhere_leave _ _
  | yields hp hs hk => exact elsewhere_leave _ _
  | @forwards m q ha hm =>
      have hq : q = (p.roster.take c.id).2 := by rw [hm]
      subst hq
      exact ⟨rfl, Roster.adds_take hne⟩
  | @serves r f o hl hn ho =>
      have hrooms := Pool.sameRooms_answer source p c.session r
      rw [ho] at hrooms
      refine ⟨hrooms.settings, ?_⟩
      rw [← hrooms.roster]
      exact Roster.adds_change fun e => rfl
  | refuses hl hn hv => exact elsewhere_of_roster rfl rfl
  | drops hl hn hf hv => exact elsewhere_of_roster rfl rfl
  | bans hl hn hv => exact elsewhere_banned rfl rfl
  | hangsUp hl hn he => exact elsewhere_leave _ _
  | idles hl hn he hd => exact elsewhere_leave _ _
  | waits hl hn he hd => exact elsewhere_of_roster rfl rfl

/-! ## What happens to the pool alone -/

namespace Pool

/-- What may happen to a pool while all connections stay as they are. -/
inductive Meanwhile (now : Instant) (p : Pool) : Pool → Prop
  | pushed (id : Nat) (m : Message) : Meanwhile now p { p with roster := (p.roster.sendTo id m).2 }
  | killed (id : Nat) : Meanwhile now p { p with roster := (p.roster.kill id).2 }
  | banned (ip : Ip) : Meanwhile now p (p.banPeer now ip).2
  | asked (ip : Ip) : Meanwhile now p { p with admission := (p.admission.isBanned now ip).2 }
  | swept : Meanwhile now p (p.sweep now).2
  | ticked (source : Source) : Meanwhile now p (p.tick source).2
  | minted (source : Source) : Meanwhile now p (p.mint source).2
  | skipped (last : Nat) : Meanwhile now p (p.skipSessions last)
  | counted (h : Happening) : Meanwhile now p (p.count h)
  | refused {ip : Ip} {limit : Option Nat} {why : Refusal} {q : Pool}
      (h : p.enter now ip limit = (.error why, q)) : Meanwhile now p q

variable {now : Instant} {p q : Pool} {ip : Ip} {limit : Option Nat}

/-- Whoever gets a seat was let in by admission, and there was a seat left and a session id. -/
theorem enter_seat {id : Nat} (h : p.enter now ip limit = (.ok id, q)) :
    limit.any (· ≤ p.seats) = false ∧ id = p.lastSession + 1
      ∧ ∃ a, p.admission.letIn now ip = (.admitted, a)
        ∧ q = { p with
          admission := a, lastSession := id, tally := p.tally.connection, seats := p.seats + 1 } := by
  unfold enter nextSession at h
  rcases hin : p.admission.letIn now ip with ⟨entrance, a⟩
  rw [hin] at h
  cases entrance with
  | banned => simp at h
  | tooManyConnections => simp at h
  | admitted =>
      dsimp only at h
      split at h
      · simp at h
      · rename_i hseat
        split at h
        · simp at h
        · rename_i hnext
          split at hnext
          · simp only [Prod.mk.injEq, Option.some.injEq] at hnext
            simp only [Prod.mk.injEq, Except.ok.injEq] at h
            obtain ⟨rfl, rfl⟩ := hnext
            obtain ⟨rfl, rfl⟩ := h
            exact ⟨Bool.not_eq_true _ ▸ hseat, rfl, a, rfl, rfl⟩
          · simp at hnext

/-- Whoever gets no seat was not let in by admission, or let go again at once. -/
theorem enter_no_seat {why : Refusal} (h : p.enter now ip limit = (.error why, q)) :
    ((p.admission.letIn now ip).1 ≠ .admitted ∧ q = { p with admission := (p.admission.letIn now ip).2 })
      ∨ ((p.admission.letIn now ip).1 = .admitted
        ∧ q = ({ p with admission := (p.admission.letIn now ip).2 } : Pool).release ip) := by
  unfold enter nextSession at h
  rcases hin : p.admission.letIn now ip with ⟨entrance, a⟩
  rw [hin] at h
  cases entrance with
  | banned =>
      rw [Prod.mk.injEq] at h
      exact Or.inl ⟨by simp, h.2.symm⟩
  | tooManyConnections =>
      rw [Prod.mk.injEq] at h
      exact Or.inl ⟨by simp, h.2.symm⟩
  | admitted =>
      dsimp only at h
      split at h
      · rw [Prod.mk.injEq] at h
        exact Or.inr ⟨rfl, h.2.symm⟩
      · split at h
        · rename_i hnext
          split at hnext
          · simp at hnext
          · rw [Prod.mk.injEq] at hnext h
            obtain ⟨_, rfl⟩ := hnext
            exact Or.inr ⟨rfl, h.2.symm⟩
        · simp at h

/-- Whoever is let in gets the next session id. -/
theorem enter_ok {id : Nat} (h : p.enter now ip limit = (.ok id, q)) :
    id = p.lastSession + 1 ∧ q.lastSession = id ∧ q.settings = p.settings ∧ q.roster = p.roster := by
  obtain ⟨_, hid, a, _, rfl⟩ := enter_seat h
  exact ⟨hid, rfl, rfl, rfl⟩

/-- Whoever is refused leaves ids, settings and roster alone. -/
theorem enter_error {why : Refusal} (h : p.enter now ip limit = (.error why, q)) :
    q.lastSession = p.lastSession ∧ q.settings = p.settings ∧ q.roster = p.roster := by
  rcases enter_no_seat h with ⟨_, rfl⟩ | ⟨_, rfl⟩
  · exact ⟨rfl, rfl, rfl⟩
  · exact ⟨rfl, rfl, rfl⟩

theorem tick_lastSession (source : Source) : (p.tick source).2.lastSession = p.lastSession := by
  unfold tick
  split
  · rfl
  · rcases hmint : p.mint source with ⟨made, q⟩
    have hq : q.lastSession = p.lastSession := by
      have h : q = (p.mint source).2 := by rw [hmint]
      rw [h]
      rfl
    cases made with
    | error fault => exact hq
    | ok job => exact hq

/-- No session id becomes free again. -/
theorem lastSession_meanwhile (h : Meanwhile now p q) : p.lastSession ≤ q.lastSession := by
  cases h with
  | banned ip => exact Nat.le_of_eq (banPeer_keeps now p ip).2.symm
  | ticked source => exact Nat.le_of_eq (tick_lastSession source).symm
  | skipped last => exact Nat.le_max_left _ _
  | refused h => exact Nat.le_of_eq (enter_error h).1.symm
  | _ => exact Nat.le_refl _

/-- All that happens is something that others do. -/
theorem elsewhere_meanwhile (id : Nat) (h : Meanwhile now p q) : ∃ ms, Elsewhere id p q ms := by
  cases h with
  | pushed l m => exact ⟨_, elsewhere_push l m⟩
  | killed l => exact ⟨[], elsewhere_kill l⟩
  | banned ip => exact ⟨[], elsewhere_banPeer now ip⟩
  | ticked source =>
      obtain ⟨ms, _, h⟩ := elsewhere_tick source
      exact ⟨ms, h⟩
  | refused h =>
      obtain ⟨_, hs, hr⟩ := enter_error h
      exact ⟨[], elsewhere_of_roster hs hr⟩
  | _ => exact ⟨[], elsewhere_of_roster rfl rfl⟩

end Pool

end MiningPool

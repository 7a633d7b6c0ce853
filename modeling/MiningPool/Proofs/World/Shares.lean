import Mathlib.Algebra.BigOperators.Group.List.Basic
import Mathlib.Algebra.GroupWithZero.Nat
import MiningPool.Proofs.World.Calls
import MiningPool.Proofs.World.Script
import MiningPool.Proofs.World.Transcripts

/-!
# Which shares admission hears of

Admission is told of just the shares that the connections of an address report, in the order in which they do. A
share that a session has counted is reported when its answer has been written, so it is missing while the answer
is being written, and for good if that is when the connection is broken or cut off. Nothing else is missing, and no
share is told of twice.
-/

namespace MiningPool

open Net Wire Connection

namespace World

variable {w w' : World} {as h k : List Act} {c d : Connection} {ip : Ip} {settings : Settings}

/-! ## The log of admission -/

/-- All acts are those of connections that are there. -/
def Told (h : List Act) (w : World) : Prop := ∀ a ∈ h, ∃ c ∈ w.connections, c.id = a.id

/-- A connection is found after a move as well, with the address it had. -/
theorem exists_mem_move (hn : w.Numbered) (hm : Move w as w') (hc : c ∈ w.connections) :
    ∃ c' ∈ w'.connections, c'.id = c.id ∧ c'.peer = c.peer := by
  obtain ⟨f, new, hconnections, hf, _⟩ := connections_move hn hm
  refine ⟨f c, ?_, hf c hc⟩
  rw [hconnections]
  exact List.mem_append_left new (List.mem_map_of_mem hc)

theorem told_move (hn : w.Numbered) (hm : Move w as w') (h : Told k w) : Told (k ++ as) w' := by
  have hlater : ∀ {a : Act}, (∃ c ∈ w.connections, c.id = a.id) → ∃ c ∈ w'.connections, c.id = a.id := by
    rintro a ⟨c, hc, hid⟩
    obtain ⟨c', hc', hid', _⟩ := exists_mem_move hn hm hc
    exact ⟨c', hc', hid'.trans hid⟩
  intro a ha
  rcases List.mem_append.mp ha with hold | hnew
  · exact hlater (h a hold)
  · exact hlater (id_of_move hm hnew)

/-- What there was to show stays as it was. -/
theorem gather_move {β : Type} (f : List Deed → List β) (hn : w.Numbered) (hm : Move w as w') (hk : Told k w)
    (ip : Ip) : w'.gather f ip k = w.gather f ip k := by
  have hn' := numbered_move hm hn
  induction k with
  | nil => rfl
  | cons a k ih =>
      rw [← List.singleton_append, gather_append, gather_append, ih fun b hb => hk b (List.mem_cons_of_mem a hb)]
      congr 1
      cases a with
      | arrived id bs => rfl
      | did id ds =>
          obtain ⟨c, hc, hid⟩ := hk _ List.mem_cons_self
          obtain ⟨c', hc', hid', hpeer⟩ := exists_mem_move hn hm hc
          have hid : c.id = id := hid
          subst hid
          rw [gather_did hn hc, ← hid', gather_did hn' hc', hpeer]

/-- What was reported stays reported. -/
theorem reports_move (hn : w.Numbered) (hm : Move w as w') (hk : Told k w) (ip : Ip) :
    w'.reports ip k = w.reports ip k := gather_move reportsOf hn hm hk ip

/-- What was told of admission up to now: its calls, and that the shares among them are those reported. -/
structure Logged (settings : Settings) (h : List Act) (w : World) : Prop where
  numbered : w.Numbered
  told : Told h w
  log : ∃ log, w.pool.admission = (Admission.fresh settings.policy).replay log
    ∧ ∀ ip, Admission.sharesOf ip (log.map (·.2)) = w.reports ip h

theorem logged_fresh (settings : Settings) (tasks : Bool) : Logged settings [] (fresh settings tasks) :=
  ⟨numbered_fresh settings tasks, fun _ ha => absurd ha List.not_mem_nil, [], rfl, fun _ => rfl⟩

/-- **Each move adds to the log the calls it makes.** -/
theorem logged_move (hm : Move w as w') (hw : Logged settings h w) : Logged settings (h ++ as) w' := by
  refine ⟨numbered_move hm hw.numbered, told_move hw.numbered hm hw.told, ?_⟩
  obtain ⟨log, hlog, hshares⟩ := hw.log
  obtain ⟨cs, hcs, hnew, _⟩ := calls_move hw.numbered hm
  have hnow : Told as w := fun a ha => id_of_move hm ha
  refine ⟨log ++ cs.map fun c => (w.now, c), ?_, fun ip => ?_⟩
  · rw [Admission.replay_append, ← hlog, Admission.replay_now, hcs]
  · rw [reports_append, reports_move hw.numbered hm hw.told, reports_move hw.numbered hm hnow, ← hshares, ← hnew,
      List.map_append, Admission.sharesOf_append, List.map_map]
    congr 2
    exact List.map_id' cs

theorem logged_moves {tasks : Bool} (hmoves : Moves (fresh settings tasks) h w) : Logged settings h w := by
  induction hmoves with
  | refl => exact logged_fresh settings tasks
  | tail _ hstep ih => exact logged_move hstep ih

/-! ## Adding up -/

/-- The connections from an address, past ones included. -/
def connectionsOf (w : World) (ip : Ip) : List Connection := w.connections.filter (·.peer.ip = ip)

theorem mem_connectionsOf : c ∈ w.connectionsOf ip ↔ c ∈ w.connections ∧ c.peer.ip = ip := by
  rw [connectionsOf, List.mem_filter, decide_eq_true_eq]

/-- Of a sum over connections, the part of one of them. -/
theorem sum_of_id {cs : List Connection} (hcs : cs.Pairwise fun c d => c.id < d.id) (id n : Nat) :
    (cs.map fun c => if id = c.id then n else 0).sum = if ∃ c ∈ cs, c.id = id then n else 0 := by
  induction cs with
  | nil => simp
  | cons c cs ih =>
      obtain ⟨hlt, hrest⟩ := List.pairwise_cons.mp hcs
      rw [List.map_cons, List.sum_cons, ih hrest]
      by_cases hid : id = c.id
      · -- no later one has the same id
        have hnone : ¬ ∃ d ∈ cs, d.id = id := by
          rintro ⟨d, hd, heq⟩
          exact absurd (hlt d hd) (by omega)
        rw [if_pos hid, if_neg hnone, if_pos ⟨c, List.mem_cons_self, hid.symm⟩, Nat.add_zero]
      · have hiff : (∃ d ∈ c :: cs, d.id = id) ↔ ∃ d ∈ cs, d.id = id := by
          simp [Ne.symm hid]
        rw [if_neg hid, Nat.zero_add, if_congr hiff rfl rfl]

/-- **What an address has to show is what its connections have**, each by itself. -/
theorem countP_gather {β : Type} {f : List Deed → List β} (hf : ∀ ds es, f (ds ++ es) = f ds ++ f es) (hn : w.Numbered)
    (hh : Told h w) (ip : Ip) (p : β → Bool) :
    (w.gather f ip h).countP p = ((w.connectionsOf ip).map fun c => (f (deedsOf h c.id)).countP p).sum := by
  have hnone : f [] = [] := by simpa using hf [] []
  induction h with
  | nil =>
      show 0 = (List.map (fun _ => (f []).countP p) _).sum
      simp [hnone]
  | cons a h ih =>
      have ih := ih fun b hb => hh b (List.mem_cons_of_mem a hb)
      have hsum : ((w.connectionsOf ip).map fun c => (f (deedsOf (a :: h) c.id)).countP p).sum
          = ((w.connectionsOf ip).map fun c => (f (deedsOf [a] c.id)).countP p).sum
            + ((w.connectionsOf ip).map fun c => (f (deedsOf h c.id)).countP p).sum := by
        rw [← List.sum_map_add]
        refine congrArg List.sum (List.map_congr_left fun c _ => ?_)
        rw [← List.singleton_append, deedsOf_append, hf, List.countP_append]
      rw [hsum, ← ih, ← List.singleton_append, gather_append, List.countP_append]
      congr 1
      cases a with
      | arrived id bs =>
          show 0 = (List.map (fun _ => (f []).countP p) _).sum
          simp [hnone]
      | did id ds =>
          obtain ⟨c, hc, hid⟩ := hh _ List.mem_cons_self
          have hid : c.id = id := hid
          subst hid
          have hone : (fun d : Connection => (f (deedsOf [.did c.id ds] d.id)).countP p)
              = fun d => if c.id = d.id then (f ds).countP p else 0 := by
            funext d
            split
            · rename_i heq
              rw [heq, deedsOf_self]
            · rename_i hne
              rw [deedsOf_of_ne hne, hnone]
              rfl
          have hascending : (w.connectionsOf ip).Pairwise fun c d => c.id < d.id :=
            hn.ascending.sublist List.filter_sublist
          rw [hone, sum_of_id hascending, gather_did hn hc]
          by_cases hip : c.peer.ip = ip
          · rw [if_pos hip, if_pos ⟨c, mem_connectionsOf.mpr ⟨hc, hip⟩, rfl⟩]
          · rw [if_neg hip, if_neg]
            · rfl
            · rintro ⟨d, hd, heq⟩
              obtain ⟨hd, hdip⟩ := mem_connectionsOf.mp hd
              rw [hn.eq_of_id hc hd heq] at hdip
              exact hip hdip

/-- **The shares reported from an address are those that its connections report.** -/
theorem count_reports (hn : w.Numbered) (hh : Told h w) (ip : Ip) (accepted : Bool) :
    (w.reports ip h).count accepted
      = ((w.connectionsOf ip).map fun c => (reportsOf (deedsOf h c.id)).count accepted).sum :=
  countP_gather reportsOf_append hn hh ip (· == accepted)

/-- The shares of a kind that were counted for the connections of an address. -/
def counted (w : World) (ip : Ip) (accepted : Bool) : Nat :=
  ((w.connectionsOf ip).map (·.session.shares accepted)).sum

/-- How many connections of an address have lost a share of a kind. -/
def lost (w : World) (ip : Ip) (h : List Act) (accepted : Bool) : Nat :=
  (w.connectionsOf ip).countP fun c => loses accepted (deedsOf h c.id)

/-- How many connections of an address are writing the answer to a share of a kind. -/
def underway (w : World) (ip : Ip) (accepted : Bool) : Nat :=
  (w.connectionsOf ip).countP fun c => dueIn c.phase == .report accepted

theorem sum_of_parts {cs : List Connection} {f g : Connection → Nat} {p q : Connection → Bool}
    (h : ∀ c ∈ cs, f c = g c + (p c).toNat + (q c).toNat) :
    (cs.map f).sum = (cs.map g).sum + cs.countP p + cs.countP q := by
  induction cs with
  | nil => rfl
  | cons c cs ih =>
      have hc := h c List.mem_cons_self
      have ih := ih fun d hd => h d (List.mem_cons_of_mem c hd)
      rw [List.map_cons, List.map_cons, List.sum_cons, List.sum_cons, List.countP_cons, List.countP_cons, ih, hc]
      cases p c <;> cases q c <;> simp <;> omega

/-! ## What is missing -/

theorem faithful_of_moves {tasks : Bool} (hmoves : Moves (fresh settings tasks) h w) (hc : c ∈ w.connections) :
    ∃ p queued, Scene.Faithful (Pool.session p c.id) ⟨w.pool, c, streamOf h c.id, queued, deedsOf h c.id⟩ := by
  obtain ⟨first, _, _, _, queued, hreach⟩ := (staged_moves hmoves).onScene c hc
  exact ⟨first, queued, Scene.faithful_reachable hreach⟩

/-- **What a connection has counted was reported, or lost, or is to be reported when its answer is written.** -/
theorem shares_of_moves {tasks : Bool} (hmoves : Moves (fresh settings tasks) h w) (hc : c ∈ w.connections)
    (accepted : Bool) :
    c.session.shares accepted = (reportsOf (deedsOf h c.id)).count accepted
      + (loses accepted (deedsOf h c.id)).toNat + (dueIn c.phase == .report accepted).toNat := by
  obtain ⟨p, _, hfaithful⟩ := faithful_of_moves hmoves hc
  have hshares := shares_sessionAfter (p.session c.id) accepted _ hfaithful.inOrder hfaithful.continues
  have hsession := hfaithful.session
  have hdue := hfaithful.due
  have hnew : (p.session c.id).shares accepted = 0 := by cases accepted <;> rfl
  dsimp only at hsession hdue hshares
  rw [← hsession, hnew, Nat.zero_add, accountFor, hdue] at hshares
  rw [hshares]
  by_cases h : dueIn c.phase = .report accepted
  · simp [h]
  · simp [h]

/-- A share is lost when its connection ends abruptly, right after the request that had it counted. -/
theorem served_of_loses {tasks : Bool} (hmoves : Moves (fresh settings tasks) h w) (hc : c ∈ w.connections)
    {accepted : Bool} (hloses : loses accepted (deedsOf h c.id) = true) :
    ∃ earlier source p s r why, deedsOf h c.id = earlier ++ [.served source p s r, .ended why]
      ∧ shareBetween s (p.answer source s r).session = .report accepted ∧ why.isAbrupt = true := by
  obtain ⟨_, _, hfaithful⟩ := faithful_of_moves hmoves hc
  obtain ⟨log, why, hlog, habrupt, hdue⟩ := not_finished_of_loses hfaithful.inOrder hloses
  obtain ⟨earlier, d, rfl, hd⟩ := dueAfter_ne (by simp) hdue
  obtain ⟨source, p, s, r, rfl, hshare⟩ := served_of_due hd
  refine ⟨earlier, source, p, s, r, why, hlog.trans ?_, hshare, habrupt⟩
  rw [List.append_assoc]
  rfl

/--
**Admission hears of every share whose answer was written, and of no other.**

It is told of the shares of an address just as its connections report them. What these have counted beyond that are
the shares whose answers are being written, and those whose connections ended abruptly before they were.
-/
theorem shares_told {tasks : Bool} (hmoves : Moves (fresh settings tasks) h w) (ip : Ip) :
    (∃ log, w.pool.admission = (Admission.fresh settings.policy).replay log
        ∧ Admission.sharesOf ip (log.map (·.2)) = w.reports ip h)
      ∧ (∀ accepted, w.counted ip accepted
          = (w.reports ip h).count accepted + w.lost ip h accepted + w.underway ip accepted)
      ∧ ∀ c ∈ w.connectionsOf ip, ∀ accepted, loses accepted (deedsOf h c.id) = true →
          ∃ earlier source p s r why, deedsOf h c.id = earlier ++ [.served source p s r, .ended why]
            ∧ shareBetween s (p.answer source s r).session = .report accepted ∧ why.isAbrupt = true := by
  have hlogged := logged_moves hmoves
  obtain ⟨log, hlog, hshares⟩ := hlogged.log
  refine ⟨⟨log, hlog, hshares ip⟩, fun accepted => ?_, fun c hc accepted hloses => ?_⟩
  · rw [count_reports hlogged.numbered hlogged.told, counted, lost, underway]
    exact sum_of_parts fun c hc => shares_of_moves hmoves (mem_connectionsOf.mp hc).1 accepted
  · exact served_of_loses hmoves (mem_connectionsOf.mp hc).1 hloses

/-- The line `[1,"mining.submit",["","","",""]]`. -/
def submitLine : Bytes :=
  [0x5B, 0x31, 0x2C, 0x22, 0x6D, 0x69, 0x6E, 0x69, 0x6E, 0x67, 0x2E, 0x73, 0x75, 0x62, 0x6D, 0x69, 0x74, 0x22, 0x2C,
    0x5B, 0x22, 0x22, 0x2C, 0x22, 0x22, 0x2C, 0x22, 0x22, 0x2C, 0x22, 0x22, 0x5D, 0x5D, 0x0A]

/-- A miner submits two shares in one go, both are rejected, and it goes away while the second answer is still to be
written. Admission hears of the first one, and the second one is lost. -/
theorem shares_told_one_of_two :
    let source : Source := ⟨fun _ => .ok default, fun _ => .ok false⟩
    let played := (fresh .standard false).play source
      [.enters ⟨.v4 1, 50001⟩ none, .sends 1 (submitLine ++ submitLine), .turns 1, .turns 1, .turns 1, .vanishes 1,
        .turns 1]
    Moves (fresh .standard false) played.1 played.2 ∧ played.2.counted (.v4 1) false = 2
      ∧ played.2.reports (.v4 1) played.1 = [false] ∧ played.2.lost (.v4 1) played.1 false = 1
      ∧ played.2.underway (.v4 1) false = 0 := by
  intro source played
  have hmoves : Moves (fresh .standard false) played.1 played.2 := moves_play source _ _
  have hreports : played.2.reports (.v4 1) played.1 = [false] := by decide +kernel
  have hlost : played.2.lost (.v4 1) played.1 false = 1 := by decide +kernel
  have hunderway : played.2.underway (.v4 1) false = 0 := by decide +kernel
  obtain ⟨_, hcounted, _⟩ := shares_told hmoves (.v4 1)
  refine ⟨hmoves, ?_, hreports, hlost, hunderway⟩
  rw [hcounted, hreports, hlost, hunderway]
  rfl

/-- A share is counted as rejected, its miner is gone before the answer is written, and the connection is over.
Admission, which would have banned the address for this share, has heard nothing of it. -/
theorem rejected_and_never_told :
    let settings : Settings := { Settings.standard with
      policy := { Settings.Limits.standard with shareCheckThreshold := 1 } }
    let source : Source := ⟨fun _ => .ok default, fun _ => .ok false⟩
    let played := (fresh settings false).play source
      [.enters ⟨.v4 1, 50001⟩ none, .sends 1 submitLine, .turns 1, .vanishes 1, .turns 1]
    Moves (fresh settings false) played.1 played.2 ∧ played.2.pool.admission.appliesTo (.v4 1) = true
      ∧ (∀ c ∈ played.2.connections, c.isOpen = false)
      ∧ played.2.counted (.v4 1) false = 1 ∧ (played.2.reports (.v4 1) played.1).count false = 0
      ∧ played.2.pool.admission.record (.v4 1) = .blank := by
  intro settings source played
  exact ⟨moves_play source _ _, by decide +kernel, by decide +kernel, by decide +kernel, by decide +kernel,
    by decide +kernel⟩

end World
end MiningPool

import Mathlib.Logic.Relation
import MiningPool.Proofs.Admission.Separation
import MiningPool.Proofs.Pool.Replies
import MiningPool.Proofs.Roster.Lookup
import MiningPool.Proofs.World.Bans
import MiningPool.Proofs.World.Shares

/-!
# A request concerns its own miner

All connections share the roster, the ledger, the counts and what admission knows. Still, what a connection does for a
request spares the others: their sessions and what is shown of them, what waits for them, what is known of jobs and
what admission knows of other addresses. Of the others it reaches only those of its own address, and all it does is to
ask them to close when the address is banned. So whoever does not log in is answered the same before and after.

What is spared is the same for every turn in which a connection takes no message out of its own queue, whatever it
does in it; so the proof is by cases on what a turn can come to, once for each of the things that are shared.
-/

namespace MiningPool

open Net Wire Connection

/-! ## The roster -/

namespace Roster

/-- What the connection of an id, which comes from an address, leaves alone of a roster. -/
structure Spares (id : Nat) (ip : Ip) (r r' : Roster) : Prop where
  /-- Who else is connected, and what is shown of their sessions. -/
  snapshots : ∀ l, l ≠ id → (r'.get? l).map (·.snapshot) = (r.get? l).map (·.snapshot)
  /-- What waits for others, even if they are connected no more. -/
  queues : ∀ l, l ≠ id → (r'.find? l).map (·.outbox) = (r.find? l).map (·.outbox)
  /-- What waits for itself, as long as it is connected. -/
  own : ∀ e', r'.get? id = some e' → ∃ e, r.get? id = some e ∧ e'.outbox = e.outbox
  /-- All there is of those from other addresses; so none of them is asked to close. -/
  elsewhere : ∀ l e, l ≠ id → r.get? l = some e → e.peer.ip ≠ ip → r'.get? l = some e

variable {r r' r'' : Roster} {id : Nat} {ip : Ip}

theorem Spares.refl (id : Nat) (ip : Ip) (r : Roster) : Spares id ip r r :=
  ⟨fun _ _ => rfl, fun _ _ => rfl, fun e he => ⟨e, he, rfl⟩, fun _ _ _ he _ => he⟩

theorem Spares.trans (h : Spares id ip r r') (h' : Spares id ip r' r'') : Spares id ip r r'' where
  snapshots := fun l hl => (h'.snapshots l hl).trans (h.snapshots l hl)
  queues := fun l hl => (h'.queues l hl).trans (h.queues l hl)
  own := by
    intro e'' he''
    obtain ⟨e', he', hlast⟩ := h'.own e'' he''
    obtain ⟨e, he, hfirst⟩ := h.own e' he'
    exact ⟨e, he, hlast.trans hfirst⟩
  elsewhere := fun l e hl he hip => h'.elsewhere l e hl (h.elsewhere l e hl he hip) hip

/-- A connection that is over takes only its own entry along. -/
theorem spares_leave (r : Roster) (id : Nat) (ip : Ip) : Spares id ip r (r.leave id) where
  snapshots := fun l hl => congrArg (Option.map _) (get?_deregister_of_ne r hl)
  queues := by
    intro l hl
    have hfound : (r.leave id).find? l = (r.deregister id).find? l := by
      rw [find?, find?, leave]
      exact congrArg (_ <|> ·) (Keyed.get?_erase_of_ne _ hl)
    rw [hfound, find?_deregister]
  own := by
    intro e' he'
    rw [get?_leave_self] at he'
    exact absurd he' (by simp)
  elsewhere := fun l e hl he _ => (get?_deregister_of_ne r hl).trans he

/-- A connection may change its own entry, but for what waits there. -/
theorem spares_change (r : Roster) (id : Nat) (ip : Ip) {f : Entry → Entry} (hf : ∀ e, (f e).outbox = e.outbox) :
    Spares id ip r (r.change id f) where
  snapshots := fun l hl => congrArg (Option.map _) (get?_change_of_ne r hl f)
  queues := fun l hl => congrArg (Option.map _) (find?_change_of_ne hl f)
  own := by
    intro e' he'
    rw [get?_change_self] at he'
    obtain ⟨e, he, rfl⟩ := Option.map_eq_some_iff.mp he'
    exact ⟨e, he, hf e⟩
  elsewhere := fun l e hl he _ => (get?_change_of_ne r hl f).trans he

/-- Asking an address to close concerns its connections alone, and neither their queues nor what is shown of them. -/
theorem spares_killIp (r : Roster) (id : Nat) (ip : Ip) : Spares id ip r (r.killIp ip).2 := by
  have hasked : ∀ l, (r.killIp ip).2.get? l
      = (r.get? l).map fun e => if e.peer.ip = ip then Entry.askToClose e else e := fun l => get?_killIp r l ip
  have hkeeps : ∀ e : Entry, (if e.peer.ip = ip then Entry.askToClose e else e).snapshot = e.snapshot
      ∧ (if e.peer.ip = ip then Entry.askToClose e else e).outbox = e.outbox := by
    intro e
    unfold Entry.askToClose
    split
    · split <;> exact ⟨rfl, rfl⟩
    · exact ⟨rfl, rfl⟩
  constructor
  case snapshots =>
    intro l _
    rw [hasked, Option.map_map]
    exact congrArg (Option.map · _) (funext fun e => (hkeeps e).1)
  case queues =>
    intro l _
    rw [find?, find?, hasked]
    cases r.get? l with
    | none => rfl
    | some e => exact congrArg some (hkeeps e).2
  case own =>
    intro e' he'
    rw [hasked] at he'
    obtain ⟨e, he, rfl⟩ := Option.map_eq_some_iff.mp he'
    exact ⟨e, he, (hkeeps e).2⟩
  case elsewhere =>
    intro l e _ he hip
    rw [hasked, he, Option.map_some, if_neg hip]

end Roster

/-! ## The pool -/

namespace Pool

/-- What the connection of an id, which comes from an address, leaves alone of a pool. -/
structure Spares (id : Nat) (ip : Ip) (p q : Pool) : Prop where
  roster : p.roster.Spares id ip q.roster
  replies : AnswersLike p q
  records : ∀ l, l ≠ ip → Admission.Agree l p.admission q.admission

variable {p q r : Pool} {id : Nat} {ip : Ip}

theorem Spares.refl (id : Nat) (ip : Ip) (p : Pool) : Spares id ip p p :=
  ⟨.refl id ip p.roster, .refl p, fun l _ => .refl l p.admission⟩

theorem Spares.trans (h : Spares id ip p q) (h' : Spares id ip q r) : Spares id ip p r :=
  ⟨h.roster.trans h'.roster, h.replies.trans h'.replies, fun l hl => (h.records l hl).trans (h'.records l hl)⟩

theorem ledger_banPeer (now : Instant) (p : Pool) (ip : Ip) : (p.banPeer now ip).2.ledger = p.ledger := by
  unfold banPeer
  split
  · rfl
  · rfl

theorem spares_banPeer (now : Instant) (p : Pool) (id : Nat) (ip : Ip) :
    p.roster.Spares id ip (p.banPeer now ip).2.roster := by
  unfold banPeer
  split
  · exact .refl id ip p.roster
  · exact Roster.spares_killIp p.roster id ip

end Pool

/-! ## One turn -/

namespace Connection

variable {source : Source} {now : Instant} {p : Pool} {c : Connection} {ds : List Deed} {t : Turn}

/-- A connection tells admission of no address but its own. -/
theorem ip?_of_mem_calls {d : Deed} {call : Admission.Call} {ip : Ip} (h : call ∈ d.calls ip) :
    call.ip? = some ip := by
  cases d with
  | forwarded m => exact absurd h List.not_mem_nil
  | served source p s r => exact absurd h List.not_mem_nil
  | noted fault verdict => rw [List.mem_singleton.mp h]; rfl
  | reported accepted verdict => rw [List.mem_singleton.mp h]; rfl
  | ended why =>
      cases why with
      | banned =>
          rcases List.mem_cons.mp h with rfl | h
          · rfl
          · rw [List.mem_singleton.mp h]; rfl
      | _ => rw [List.mem_singleton.mp h]; rfl

theorem records_turn (h : Takes source now p c ds t) {l : Ip} (hl : l ≠ c.peer.ip) :
    Admission.Agree l p.admission (t.pool p).admission := by
  rw [admission_turn h]
  refine Admission.agree_calls_other hl now (fun call hcall => ?_) p.admission
  obtain ⟨d, _, hd⟩ := List.mem_flatMap.mp hcall
  exact ip?_of_mem_calls hd

theorem history_turn (h : Takes source now p c ds t) : p.ledger.SameHistory (t.pool p).ledger := by
  cases h with
  | @serves r f o hl hn ho =>
      have hanswers := Pool.answersLike_answer source p c.session r
      rw [ho] at hanswers
      exact hanswers.history
  | condemned hp hg hw hv =>
      show p.ledger.SameHistory (Pool.banPeer _ now c.peer.ip).2.ledger
      rw [Pool.ledger_banPeer]
      exact .refl p.ledger
  | bans hl hn hv =>
      show p.ledger.SameHistory (Pool.banPeer _ now c.peer.ip).2.ledger
      rw [Pool.ledger_banPeer]
      exact .refl p.ledger
  | _ => exact .refl p.ledger

theorem roster_turn (h : Takes source now p c ds t) (hown : forwarded ds = []) :
    p.roster.Spares c.id c.peer.ip (t.pool p).roster := by
  have hleaves : ∀ r : Roster, p.roster.Spares c.id c.peer.ip r → p.roster.Spares c.id c.peer.ip (r.leave c.id) :=
    fun r hr => hr.trans (Roster.spares_leave r c.id c.peer.ip)
  cases h with
  | forwards ha hm => exact absurd hown (List.cons_ne_nil _ _)
  | @serves r f o hl hn ho =>
      have hrooms := Pool.sameRooms_answer source p c.session r
      rw [ho] at hrooms
      show p.roster.Spares c.id c.peer.ip (o.pool.roster.publish c.id _)
      rw [hrooms.roster]
      exact Roster.spares_change p.roster c.id c.peer.ip fun _ => rfl
  | @condemned left accepted client a hp hg hw hv =>
      exact hleaves _ (Pool.spares_banPeer now { p with admission := a } c.id c.peer.ip)
  | @bans fault f a hl hn hv =>
      exact hleaves _ (Pool.spares_banPeer now { p.count .malformedLine with admission := a } c.id c.peer.ip)
  | broken hp hg => exact hleaves p.roster (.refl _ _ _)
  | stops hp hs => exact hleaves p.roster (.refl _ _ _)
  | yields hp hs hk => exact hleaves p.roster (.refl _ _ _)
  | hangsUp hl hn he => exact hleaves p.roster (.refl _ _ _)
  | idles hl hn he hd => exact hleaves p.roster (.refl _ _ _)
  | _ => exact .refl _ _ _

/-- **A turn spares all others**, unless a message is taken out of the connection's own queue. -/
theorem spares_turn (h : Takes source now p c ds t) (hown : forwarded ds = []) :
    p.Spares c.id c.peer.ip (t.pool p) :=
  ⟨roster_turn h hown, ⟨(kept_turn h).settings, history_turn h⟩, fun _ hl => records_turn h hl⟩

end Connection

namespace World

variable {w w' w'' : World} {c d : Connection} {id : Nat} {ip : Ip}

/-- What the connection of an id, which comes from an address, leaves alone of a world. -/
structure Spares (id : Nat) (ip : Ip) (w w' : World) : Prop extends w.pool.Spares id ip w'.pool where
  /-- Other connections are as they were, their sessions with them. -/
  sessions : ∀ d : Connection, d.id ≠ id → (d ∈ w'.connections ↔ d ∈ w.connections)

theorem Spares.refl (id : Nat) (ip : Ip) (w : World) : Spares id ip w w := ⟨.refl id ip w.pool, fun _ _ => Iff.rfl⟩

theorem Spares.trans (h : Spares id ip w w') (h' : Spares id ip w' w'') : Spares id ip w w'' :=
  ⟨h.toSpares.trans h'.toSpares, fun d hd => (h'.sessions d hd).trans (h.sessions d hd)⟩

/-- A connection takes a turn for its miner: it sees to a line, goes on with an answer, tells admission of a share, or
is over. What it does not do is to write a message that waited for it. -/
inductive Handles (id : Nat) (w : World) : World → Prop
  | turn {c : Connection} (source : Source) (hc : c ∈ w.connections) (hid : c.id = id)
      (hown : forwarded (deeds source w.now w.pool c) = []) :
      Handles id w (w.took (c.turn source w.now w.pool))

theorem Handles.move (h : Handles id w w') : ∃ as, Move w as w' := by
  obtain ⟨source, hc, hid, hown⟩ := h
  exact ⟨_, .turn source (.turn hc)⟩

/-- A turn for its miner spares all others, and the connection is still there with its address. -/
theorem spares_handles (hn : w.Numbered) (hc : c ∈ w.connections) (h : Handles c.id w w') :
    Spares c.id c.peer.ip w w' ∧ ∃ c' ∈ w'.connections, c'.id = c.id ∧ c'.peer = c.peer := by
  obtain @⟨b, source, hb, hid, hown⟩ := h
  obtain rfl : b = c := hn.eq_of_id hc hb hid
  have htakes := turn_takes source w.now w.pool b
  have hkept : (b.turn source w.now w.pool).connection.id = b.id := (kept_turn htakes).id
  refine ⟨⟨spares_turn htakes hown, fun d hd => ⟨fun hmem => ?_, fun hmem => ?_⟩⟩, ?_⟩
  · rcases mem_replace hmem with rfl | ⟨hold, _⟩
    · exact absurd hkept hd
    · exact hold
  · exact mem_replace_of_ne hmem (by rw [hkept]; exact hd)
  · exact ⟨_, mem_replace_self hb hkept.symm, hkept, peer_turn htakes⟩

/-- So do all turns that it takes for its miner one after the other. -/
theorem spares_handles_run (hn : w.Numbered) (hc : c ∈ w.connections)
    (h : Relation.ReflTransGen (Handles c.id) w w') : Spares c.id c.peer.ip w w' := by
  have hall : Spares c.id c.peer.ip w w' ∧ w'.Numbered ∧ ∃ c' ∈ w'.connections, c'.id = c.id ∧ c'.peer = c.peer := by
    induction h with
    | refl => exact ⟨.refl _ _ w, hn, c, hc, rfl, rfl⟩
    | tail _ hstep ih =>
        obtain ⟨hspares, hnumbered, b, hb, hid, hpeer⟩ := ih
        rw [← hid] at hstep
        obtain ⟨hnext, b', hb', hid', hpeer'⟩ := spares_handles hnumbered hb hstep
        obtain ⟨_, hmove⟩ := hstep.move
        rw [hid, hpeer] at hnext
        exact ⟨hspares.trans hnext, numbered_move hmove hnumbered, b', hb', hid'.trans hid, hpeer'.trans hpeer⟩
  exact hall.1

/--
**A request concerns its own miner.**

Whatever has happened so far, and whatever a connection does for a request of its miner, up to having its address
banned: other sessions, what is shown of them, all queues, the history of jobs and the records of other addresses are
as before, and nobody connected from elsewhere is asked to close. So whoever does not log in is answered the same. A
login that waits for its job while others go on does not touch the history with any of its steps either.
-/
theorem requests_spare_others {settings : Settings} {tasks : Bool} {h : List Act}
    (hmoves : Moves (fresh settings tasks) h w) (hc : c ∈ w.connections)
    (hhandles : Relation.ReflTransGen (Handles c.id) w w') :
    Spares c.id c.peer.ip w w'
      ∧ (∀ d ∈ w.connections, d.peer.ip ≠ c.peer.ip →
        d ∈ w'.connections ∧ w'.pool.roster.get? d.id = w.pool.roster.get? d.id)
      ∧ (∀ job, w'.pool.ledger.isKnown job = w.pool.ledger.isKnown job)
      ∧ (∀ (source : Source) (s : Session) (r : Request),
        (∀ username address worker, Command.ofRequest r ≠ .ok (.authorize username address worker)) →
          (w'.pool.answer source s r).reply = (w.pool.answer source s r).reply
            ∧ (w'.pool.answer source s r).session = (w.pool.answer source s r).session
            ∧ (w'.pool.answer source s r).handed = (w.pool.answer source s r).handed)
      ∧ ∀ (difficulty history : Nat) (steps : List Minting.Move),
        let m := (Minting.fresh (.fresh difficulty history)).run steps
        m.ledger.SameHistory (m.start .session).ledger
          ∧ ∀ call ∈ m.calls, call.purpose = .session →
            (∀ work, m.ledger.SameHistory (m.receive call.seq work).ledger)
              ∧ m.ledger.SameHistory (m.advance call.seq).ledger := by
  have hkept : w.Kept := hmoves.preserves kept_move (kept_fresh settings tasks)
  have hspares := spares_handles_run hkept.numbered hc hhandles
  refine ⟨hspares, fun d hd hip => ?_, hspares.replies.history.isKnown, fun source s r hother => ?_,
    fun difficulty history steps => ⟨⟨rfl, rfl, rfl⟩, fun call hcall hp => ⟨fun work => ?_, ?_⟩⟩⟩
  · have hid : d.id ≠ c.id := fun heq => hip (congrArg (·.peer.ip) (hkept.numbered.eq_of_id hc hd heq))
    refine ⟨(hspares.sessions d hid).mpr hd, ?_⟩
    cases he : w.pool.roster.get? d.id with
    | some e =>
        refine hspares.roster.elsewhere d.id e hid he ?_
        rw [(hkept.attentive d hd e he).1]
        exact hip
    | none =>
        have hnone := hspares.roster.snapshots d.id hid
        rw [he] at hnone
        exact Option.map_eq_none_iff.mp hnone
  · exact hspares.replies.answer source s hother
  · rw [Minting.receive_ledger]
    exact .refl _
  · exact Minting.sameHistory_advance (Minting.orderly_run difficulty history steps)
      (Minting.discreet_run difficulty history steps) hcall hp

/-- Two miners of one address and one of another are connected. A share of the first is rejected, and its address is
banned for it: the second has to close, and the third is told of its own share what it would have been told before. -/
theorem requests_spare_others_banned :
    let settings : Settings := { Settings.standard with
      mining := { Settings.standard.mining with submitPolicy := .lenient }
      policy := { Settings.Limits.standard with shareCheckThreshold := 1 } }
    let source : Source := ⟨fun _ => .ok default, fun _ => .ok false⟩
    let played := (fresh settings false).play source
      [.enters ⟨.v4 1, 50001⟩ none, .enters ⟨.v4 1, 50002⟩ none, .enters ⟨.v4 2, 50003⟩ none, .sends 1 submitLine]
    let w := played.2
    let first := w.connections.get ⟨0, by decide +kernel⟩
    let served := w.took (first.turn source w.now w.pool)
    let answering := served.connections.get ⟨0, by decide +kernel⟩
    let w' := served.took (answering.turn source served.now served.pool)
    let others := w.connections.drop 1
    Moves (fresh settings false) played.1 w ∧ Relation.ReflTransGen (Handles first.id) w w'
      ∧ Spares first.id first.peer.ip w w'
      ∧ (w'.pool.admission.record (.v4 1)).isBanned w'.now = true
      ∧ others.map (fun d => (w.pool.roster.mustClose d.id, w'.pool.roster.mustClose d.id))
        = [(false, true), (false, false)]
      ∧ w'.connections.drop 1 = others := by
  intro settings source played w first served answering w' others
  have hmoves : Moves (fresh settings false) played.1 w := moves_play source _ _
  have hserves : Handles first.id w served := .turn source (List.get_mem _ _) rfl (by decide +kernel)
  have hreports : Handles first.id served w' :=
    .turn source (List.get_mem _ _) (by decide +kernel) (by decide +kernel)
  have hhandles : Relation.ReflTransGen (Handles first.id) w w' := (Relation.ReflTransGen.single hserves).tail hreports
  obtain ⟨hspares, _⟩ := requests_spare_others hmoves (List.get_mem _ _) hhandles
  exact ⟨hmoves, hhandles, hspares, by decide +kernel, by decide +kernel, by decide +kernel⟩

end World
end MiningPool

import MiningPool.Proofs.Admission.Offences
import MiningPool.Proofs.World.Bans
import MiningPool.Proofs.World.Shares

/-!
# Bad lines are counted for the address

Whoever sends a bad line, it is put on the record of its address, and there the count stays when the connection ends
and when another one is opened. A `Course` is a run together with the log of all that admission was told along it. The
bad lines in the log are those that the connections of an address have sent (`badLines_of_course`), and what is held
against an address are those since its last ban.

No line is seen to while a ban is on the record: a ban asks all connections of the address to close, and whoever is let
in later has the ban lifted first (`Struck.closing`). And a line that makes the count full has the address banned
before anything else happens, so the count is never full for long (`Struck.few`).
-/

namespace MiningPool

open Net Wire Connection

/-! ## Bad lines -/

namespace Wire

variable {α : Type}

def Inbound.isFaulty : Inbound α → Bool
  | .faulty _ => true
  | .message _ => false

/-- A segment is bad if it is too large, or not blank and no message. -/
theorem faulty_readSegment_iff {limit : Nat} {read : Bytes → Option α} {segment : Bytes} :
    (∃ fault, readSegment limit read segment = some (.faulty fault))
      ↔ limit < segment.length ∨ (trim segment ≠ [] ∧ read (trim segment) = none) := by
  by_cases hlarge : limit < segment.length
  · rw [readSegment, if_pos hlarge]
    exact iff_of_true ⟨_, rfl⟩ (Or.inl hlarge)
  · rw [readSegment, if_neg hlarge, or_iff_right hlarge, readLine]
    by_cases hblank : trim segment = []
    · simp [hblank]
    · rw [if_neg (by simpa using hblank)]
      cases read (trim segment) with
      | some a => simp
      | none => simp [hblank]

end Wire

namespace Connection

variable {source : Source} {now : Instant} {p : Pool} {c : Connection} {ds : List Deed} {t : Turn} {ip l : Ip}

/-- A connection tells admission of a bad line whenever it has seen to one. -/
theorem count_malformed_calls (ip l : Ip) (ds : List Deed) :
    (ds.flatMap (Deed.calls ip)).count (.malformed l) = if ip = l then (heard ds).countP (·.isFaulty) else 0 := by
  induction ds with
  | nil => exact (ite_self 0).symm
  | cons d ds ih =>
      have hone : (d.calls ip).count (.malformed l) = if ip = l then (heard [d]).countP (·.isFaulty) else 0 := by
        cases d with
        | noted fault verdict =>
            by_cases h : ip = l
            · rw [if_pos h, h]
              exact List.count_singleton_self
            · rw [if_neg h]
              exact List.count_eq_zero.mpr (by simp [Deed.calls, Ne.symm h])
        | reported accepted verdict => exact (List.count_eq_zero.mpr (by simp [Deed.calls])).trans (ite_self 0).symm
        | ended why =>
            refine (List.count_eq_zero.mpr ?_).trans (ite_self 0).symm
            cases why <;> simp [Deed.calls]
        | _ => exact (ite_self 0).symm
      have hsplit : heard (d :: ds) = heard [d] ++ heard ds := heard_append [d] ds
      rw [List.flatMap_cons, List.count_append, ih, hone, hsplit, List.countP_append]
      split
      · rfl
      · rfl

/-- A bad line that is seen to is tolerated, or it gets the address banned. -/
theorem cases_of_faulty (h : Takes source now p c ds t) {fault : Fault} (hf : .faulty fault ∈ heard ds) :
    p.roster.mustClose c.id = false
      ∧ ((ds = [.noted fault .allowed] ∧ (p.admission.recordMalformed c.peer.ip).1 = .allowed)
        ∨ (ds = [.noted fault .banned, .ended .banned] ∧ (p.admission.recordMalformed c.peer.ip).1 = .banned)) := by
  cases h with
  | refuses hl hn hv =>
      obtain rfl : fault = .tooLarge _ := by simpa [heard, Deed.heard?] using hf
      exact ⟨hl.mustClose, Or.inl ⟨rfl, congrArg Prod.fst hv⟩⟩
  | @drops fault' f a hl hn hlarge hv =>
      obtain rfl : fault = fault' := by simpa [heard, Deed.heard?] using hf
      exact ⟨hl.mustClose, Or.inl ⟨rfl, congrArg Prod.fst hv⟩⟩
  | @bans fault' f a hl hn hv =>
      obtain rfl : fault = fault' := by simpa [heard, Deed.heard?] using hf
      exact ⟨hl.mustClose, Or.inr ⟨rfl, congrArg Prod.fst hv⟩⟩
  | _ => exact absurd hf (by simp [heard, Deed.heard?])

end Connection

namespace World

variable {settings : Settings} {w w' v v' : World} {h as : List Act} {cs : List Admission.Call}
  {log : List (Instant × Admission.Call)} {c d : Connection} {ip : Ip}

/-! ## The log of a run -/

/-- A run, with all that admission was told along it. -/
inductive Course (w : World) : List Act → List (Instant × Admission.Call) → World → Prop
  | refl : Course w [] [] w
  | tail {v v' : World} {h as : List Act} {log : List (Instant × Admission.Call)} {cs : List Admission.Call}
      (hv : Course w h log v) (hstep : Tells v as cs v') :
      Course w (h ++ as) (log ++ cs.map fun c => (v.now, c)) v'

theorem Course.moves (hcourse : Course w h log v) : Moves w h v := by
  induction hcourse with
  | refl => exact .refl
  | tail _ hstep ih => exact ih.tail hstep.move

theorem Course.trans {k : List Act} {more : List (Instant × Admission.Call)} (hcourse : Course w h log v)
    (hmore : Course v k more v') : Course w (h ++ k) (log ++ more) v' := by
  induction hmore with
  | refl => rwa [List.append_nil, List.append_nil]
  | tail _ hstep ih =>
      rw [← List.append_assoc, ← List.append_assoc]
      exact ih.tail hstep

/-- Every run has its log. -/
theorem exists_course (hmoves : Moves w h v) : ∃ log, Course w h log v := by
  induction hmoves with
  | refl => exact ⟨[], .refl⟩
  | tail _ hstep ih =>
      obtain ⟨log, hlog⟩ := ih
      obtain ⟨cs, hcs⟩ := exists_tells hstep
      exact ⟨_, hlog.tail hcs⟩

/-- **The log says all there is to know of admission.** -/
theorem Course.admission (hcourse : Course w h log v) : v.pool.admission = w.pool.admission.replay log := by
  induction hcourse with
  | refl => rfl
  | tail _ hstep ih => rw [Admission.replay_append, ← ih, Admission.replay_now, hstep.admission]

/-- What admission is told of a cue. -/
def callsOf (source : Source) (w : World) : Cue → List Admission.Call
  | .enters peer _ =>
    match w.pool.enter w.now peer.ip none with
    | (.error _, _) => []
    | (.ok _, _) => [.letIn peer.ip]
  | .turns l => (w.find? l).elim [] fun c => (deeds source w.now w.pool c).flatMap (Deed.calls c.peer.ip)
  | .sends _ _ | .vanishes _ => []

/-- The log of a script. -/
def playLog (source : Source) (w : World) : List Cue → List (Instant × Admission.Call)
  | [] => []
  | q :: script => (w.callsOf source q).map (fun c => (w.now, c)) ++ (w.cue source q).2.playLog source script

theorem course_cue (source : Source) (w : World) (q : Cue) :
    Course w (w.cue source q).1 ((w.callsOf source q).map fun c => (w.now, c)) (w.cue source q).2 := by
  cases q with
  | enters peer room =>
      rw [cue, callsOf]
      rcases henter : w.pool.enter w.now peer.ip none with ⟨answer, p⟩
      cases answer with
      | error why => exact .refl
      | ok id => exact .tail .refl (.admits henter)
  | sends id bs =>
      rw [cue, callsOf]
      cases hfind : w.find? id with
      | none => exact .refl
      | some c =>
          have hc := List.mem_of_find?_eq_some hfind
          cases hover : c.inputOver with
          | true =>
              simp only [hover, if_true]
              exact .refl
          | false =>
              simp only [hover]
              exact .tail .refl (.silent (.arrives bs hc hover) rfl fun _ => rfl)
  | vanishes id =>
      rw [cue, callsOf]
      cases hfind : w.find? id with
      | none => exact .refl
      | some c => exact .tail .refl (.silent (.vanishes (List.mem_of_find?_eq_some hfind)) rfl fun _ => rfl)
  | turns id =>
      rw [cue, callsOf]
      cases hfind : w.find? id with
      | none => exact .refl
      | some c => exact .tail .refl (.turn source (List.mem_of_find?_eq_some hfind))

/-- **Whatever is played has its log.** -/
theorem course_play (source : Source) (w : World) (script : List Cue) :
    Course w (w.play source script).1 (w.playLog source script) (w.play source script).2 := by
  induction script generalizing w with
  | nil => exact .refl
  | cons q script ih => exact (course_cue source w q).trans (ih _)

/-- A move tells of the bad lines that the connections of an address have seen to in it. -/
theorem Tells.badLines (htells : Tells w as cs w') (hn : w.Numbered) (ip : Ip) :
    cs.count (.malformed ip) = (w.gather heard ip as).countP (·.isFaulty) := by
  cases htells with
  | @turn c source hc =>
      rw [count_malformed_calls, gather_did hn hc]
      split
      · rfl
      · rfl
  | @cuts c hc hopen =>
      rw [gather_did hn hc]
      split
      · rfl
      · rfl
  | admits henter => simp [gather]
  | meanwhile hpool =>
      rw [List.count_eq_zero.mpr (hpool.accuses.2.1 ip)]
      rfl
  | silent hm hpool hdeeds => rw [gather_of_silent (f := heard) rfl w ip hdeeds]; rfl

/-- **The bad lines in the log are those that the connections of the address have seen to.** -/
theorem badLines_of_course {tasks : Bool} (hcourse : Course (fresh settings tasks) h log w) (ip : Ip) :
    Admission.badLines ip log
      = ((w.connectionsOf ip).map fun c => (heard (deedsOf h c.id)).countP (·.isFaulty)).sum := by
  have hlogged := logged_moves hcourse.moves
  rw [← countP_gather heard_append hlogged.numbered hlogged.told]
  -- that was about the whole run, and the moves up to the last one have told of less
  clear hlogged
  induction hcourse with
  | refl => rfl
  | @tail v v' h as log cs hv hstep ih =>
      have hlogged := logged_moves hv.moves
      have hnow : Told as v := fun a ha => id_of_move hstep.move ha
      rw [Admission.badLines_append, gather_append, List.countP_append,
        gather_move heard hlogged.numbered hstep.move hlogged.told, gather_move heard hlogged.numbered hstep.move hnow,
        ← ih, ← hstep.badLines hlogged.numbered]
      refine congrArg (Admission.badLines ip log + ·) (congrArg (List.count _) ?_)
      rw [List.map_map]
      exact List.map_id' cs

/-! ## How many there may be -/

theorem Kept.binds (hk : w.Kept) (happlies : w.pool.admission.appliesTo ip = true) :
    w.pool.admission.Binds w.pool.settings.policy ip :=
  ⟨hk.books.limits, hk.books.distinct, happlies⟩

/-- The bad lines of an address are kept count of, and there are fewer of them than lead to a ban. -/
structure Struck (settings : Settings) (ip : Ip) (log : List (Instant × Admission.Call)) (w : World) : Prop
    extends Kept w where
  configured : w.pool.settings = settings
  applies : w.pool.admission.appliesTo ip = true
  tracks : w.pool.admission.Tracks ip log
  few : Admission.strikes ip log < max settings.policy.malformedLimit 1
  /-- Whoever is connected while a ban is on the record has to close. -/
  closing : (w.pool.admission.record ip).bannedUntil ≠ none →
    ∀ c ∈ w.connections, c.peer.ip = ip → w.pool.roster.mustClose c.id = true

theorem struck_fresh {tasks : Bool} (happlies : (fresh settings tasks).pool.admission.appliesTo ip = true) :
    Struck settings ip [] (fresh settings tasks) where
  toKept := kept_fresh settings tasks
  configured := rfl
  applies := happlies
  tracks := Admission.tracks_fresh settings.policy ip
  few := Nat.lt_of_lt_of_le Nat.zero_lt_one (Nat.le_max_right _ _)
  closing := fun hsome => absurd rfl hsome

/-- No ban is on the record of an address whose line is seen to. -/
theorem Struck.free (hs : Struck settings ip log w) (hc : c ∈ w.connections) (hip : c.peer.ip = ip)
    (hopen : w.pool.roster.mustClose c.id = false) : (w.pool.admission.record ip).bannedUntil = none := by
  by_contra hsome
  exact absurd ((hs.closing hsome c hc hip).symm.trans hopen) (by simp)

/-- What admission says of the next bad line: it is one too many just if those before fill the count but for one. -/
theorem Struck.verdict (hs : Struck settings ip log w) : (w.pool.admission.recordMalformed ip).1 = .banned
    ↔ Admission.strikes ip log + 1 = max settings.policy.malformedLimit 1 := by
  have hfew := hs.few
  rw [Admission.recordMalformed_eq hs.applies, hs.books.limits, hs.configured, hs.tracks.malformed]
  split
  · rename_i hfull
    exact iff_of_true rfl (by omega)
  · rename_i hroom
    exact iff_of_false (by simp) (by omega)

/-- What a move tells of a bad line: it is tolerated, or the address is banned at once. -/
theorem Tells.cases_of_malformed (htells : Tells w as cs w') (hmem : .malformed ip ∈ cs) :
    ∃ c ∈ w.connections, c.peer.ip = ip ∧ w.pool.roster.mustClose c.id = false
      ∧ ((cs = [.malformed ip] ∧ (w.pool.admission.recordMalformed ip).1 = .allowed)
        ∨ (cs = [.malformed ip, .ban ip, .release ip] ∧ (w.pool.admission.recordMalformed ip).1 = .banned)) := by
  cases htells with
  | @turn c source hc =>
      have hcount := count_malformed_calls c.peer.ip ip (deeds source w.now w.pool c)
      have hpos := List.count_pos_iff.mpr hmem
      rw [hcount] at hpos
      split at hpos
      · rename_i hip
        subst hip
        obtain ⟨item, hitem, hfaulty⟩ := List.countP_pos_iff.mp hpos
        cases item with
        | message r => exact absurd hfaulty (by simp [Inbound.isFaulty])
        | faulty fault =>
            obtain ⟨hopen, hcases⟩ := cases_of_faulty (turn_takes source w.now w.pool c) hitem
            refine ⟨c, hc, rfl, hopen, ?_⟩
            rcases hcases with ⟨hds, hverdict⟩ | ⟨hds, hverdict⟩
            · exact Or.inl ⟨by rw [hds]; rfl, hverdict⟩
            · exact Or.inr ⟨by rw [hds]; rfl, hverdict⟩
      · exact absurd hpos (Nat.lt_irrefl 0)
  | cuts hc hopen => exact absurd hmem (by simp)
  | admits henter => exact absurd hmem (by simp)
  | meanwhile hpool => exact absurd hmem (hpool.accuses.2.1 ip)
  | silent hm hpool hdeeds => exact absurd hmem List.not_mem_nil

/-- **Each move keeps count of the bad lines**, and leaves room for one more. -/
theorem Struck.counts (hs : Struck settings ip log w) (htells : Tells w as cs w') (hswept : .sweep ∉ cs) :
    w'.pool.admission.Tracks ip (log ++ cs.map fun c => (w.now, c))
      ∧ Admission.strikes ip (log ++ cs.map fun c => (w.now, c)) < max settings.policy.malformedLimit 1 := by
  have hb := hs.binds hs.applies
  rw [htells.admission]
  by_cases hmem : .malformed ip ∈ cs
  · -- its connection has not been asked to close, so there is no ban that this line could outlast
    obtain ⟨c, hc, hip, hopen, hcases⟩ := htells.cases_of_malformed hmem
    have hfree := hs.free hc hip hopen
    have hline : Admission.Tracks ip (log ++ [(w.now, .malformed ip)]) (w.pool.admission.call w.now (.malformed ip)) :=
      hs.tracks.call hb (by simp) fun _ => hfree
    rcases hcases with ⟨rfl, hallowed⟩ | ⟨rfl, _⟩
    · refine ⟨hline, ?_⟩
      have hroom : ¬ Admission.strikes ip log + 1 = max settings.policy.malformedLimit 1 := by
        rw [← hs.verdict, hallowed]
        simp
      have hone := Admission.strikes_concat ip log (w.now, .malformed ip)
      rw [if_neg (by simp), if_pos rfl] at hone
      have hfew := hs.few
      show Admission.strikes ip (log ++ [(w.now, .malformed ip)]) < _
      omega
    · have hrest : Admission.Tracks ip
          (log ++ [(w.now, .malformed ip)] ++ [.ban ip, .release ip].map fun call => (w.now, call)) _ :=
        hline.calls (hb.call w.now _) (by simp) (by simp)
      rw [List.append_assoc] at hrest
      refine ⟨hrest, ?_⟩
      rw [Admission.strikes_bar]
      exact Nat.lt_of_lt_of_le Nat.zero_lt_one (Nat.le_max_right _ _)
  · refine ⟨hs.tracks.calls hb hswept hmem, Nat.lt_of_le_of_lt (Admission.strikes_append_le ?_) hs.few⟩
    intro e he
    obtain ⟨call, hcall, rfl⟩ := List.mem_map.mp he
    rintro rfl
    exact hmem hcall

/-- **Each move leaves nobody connected from an address with a ban on its record** but those who have to close. -/
theorem Struck.closes (hs : Struck settings ip log w) (htells : Tells w as cs w')
    (hsome : (w'.pool.admission.record ip).bannedUntil ≠ none) :
    ∀ d ∈ w'.connections, d.peer.ip = ip → w'.pool.roster.mustClose d.id = true := by
  by_cases hmem : .ban ip ∈ cs
  · have hban := htells.bans hmem
    obtain ⟨hasked, _⟩ := hban.roster hs.toKept hs.applies
    intro d hd hip
    obtain ⟨c, hc, hid, hpeer⟩ := hban.old hd
    rw [← hid]
    exact hasked c hc (by rw [hpeer, hip])
  · -- the ban is an old one, and whoever is new was let in without one
    have hbefore : (w.pool.admission.record ip).bannedUntil ≠ none := by
      intro hnone
      rw [htells.admission] at hsome
      rcases Admission.bannedUntil_calls hs.books.distinct w.now fun h => absurd h hmem with hsame | ⟨_, hlifted⟩
      · exact hsome (hsame.trans hnone)
      · exact hsome hlifted
    obtain ⟨f, new, hconnections, hf, hnew⟩ := connections_move hs.numbered htells.move
    intro d hd hip
    rw [hconnections] at hd
    rcases List.mem_append.mp hd with hold | hd
    · obtain ⟨c, hc, rfl⟩ := List.mem_map.mp hold
      obtain ⟨hid, hpeer⟩ := hf c hc
      rw [hpeer] at hip
      rw [hid]
      exact (stays_move htells.move (hs.numbered.used c hc)).mustClose (hs.closing hbefore c hc hip)
    · obtain ⟨limit, p, henter, hpool⟩ := hnew d hd
      obtain ⟨_, _, a, hin, rfl⟩ := Pool.enter_seat henter
      subst hip
      have hnone : ((w.pool.admission.letIn w.now d.peer.ip).2.record d.peer.ip).bannedUntil = none :=
        Admission.bannedUntil_letIn hs.applies (congrArg Prod.fst hin)
      rw [hin] at hnone
      rw [hpool] at hsome
      exact absurd hnone hsome

theorem struck_tells (hs : Struck settings ip log w) (htells : Tells w as cs w') (hswept : .sweep ∉ cs) :
    Struck settings ip (log ++ cs.map fun c => (w.now, c)) w' where
  toKept := kept_move htells.move hs.toKept
  configured := (settings_move htells.move hs.toBooked).trans hs.configured
  applies := by
    rw [htells.admission, Admission.appliesTo_calls hs.books.distinct]
    exact hs.applies
  tracks := (hs.counts htells hswept).1
  few := (hs.counts htells hswept).2
  closing := hs.closes htells

/-- **So it is along every run without sweeps.** -/
theorem struck_of_course {tasks : Bool} (hcourse : Course (fresh settings tasks) h log w)
    (happlies : (fresh settings tasks).pool.admission.appliesTo ip = true) (hswept : ∀ e ∈ log, e.2 ≠ .sweep) :
    Struck settings ip log w := by
  induction hcourse with
  | refl => exact struck_fresh happlies
  | tail hv hstep ih =>
      have hs := ih fun e he => hswept e (List.mem_append_left _ he)
      refine struck_tells hs hstep fun hmem => ?_
      exact hswept _ (List.mem_append_right _ (List.mem_map_of_mem hmem)) rfl

/-! ## The whole of it -/

/--
**Bad lines are counted for the address, whoever sends them.**

Take any run without sweeps, with the log of all that admission was told, and an address with limits. A bad line of one
of its connections gets the address banned just if it makes up the number that is not allowed, counted since the last
ban in the log, or from the start if there was none. The bad lines in the log are those that all connections of the
address have seen to, past ones included. What a connection has seen to are the first lines of its miner, and of these
a line is bad if it is too large, or not blank and no request.
-/
theorem bad_lines_counted_for_address {tasks : Bool} (hcourse : Course (fresh settings tasks) h log w)
    (hswept : ∀ e ∈ log, e.2 ≠ .sweep) (happlies : (Admission.fresh settings.policy).appliesTo ip = true) :
    let limit := settings.mining.maxRequestSize
    w.pool.admission = (Admission.fresh settings.policy).replay log
      ∧ (∀ c ∈ w.connections, c.peer.ip = ip → ∀ source fault, .faulty fault ∈ heard (deeds source w.now w.pool c) →
          let full := Admission.strikes ip log + 1 = max settings.policy.malformedLimit 1
          (.ended .banned ∈ deeds source w.now w.pool c ↔ full)
            ∧ ((w.took (c.turn source w.now w.pool)).pool.admission.record ip).bannedUntil
              = if full then some (w.now + settings.policy.banDuration) else none)
      ∧ Admission.badLines ip log
        = ((w.connectionsOf ip).map fun c => (heard (deedsOf h c.id)).countP (·.isFaulty)).sum
      ∧ (∀ c ∈ w.connections, ∀ rest, (c.inputOver = true → rest = []) →
          heard (deedsOf h c.id) <+: items limit Request.read? (streamOf h c.id ++ rest))
      ∧ ∀ segment, (∃ fault, readSegment limit Request.read? segment = some (.faulty fault))
          ↔ limit < segment.length ∨ (trim segment ≠ [] ∧ Request.read? (trim segment) = none) := by
  intro limit
  have hs : Struck settings ip log w := struck_of_course hcourse happlies hswept
  have hlimit : Connection.limit w.pool = limit := congrArg (·.mining.maxRequestSize) hs.configured
  refine ⟨hcourse.admission, ?_, badLines_of_course hcourse ip, ?_, fun segment => faulty_readSegment_iff⟩
  · intro c hc hip source fault hf full
    subst hip
    have hleft : (w.took (c.turn source w.now w.pool)).pool.admission = _ :=
      admission_turn (turn_takes source w.now w.pool c)
    obtain ⟨hopen, hcases⟩ := cases_of_faulty (turn_takes source w.now w.pool c) hf
    rw [hleft]
    -- what admission says to the line decides what its connection does next
    rcases hcases with ⟨hds, hallowed⟩ | ⟨hds, hbanned⟩
    · have hroom : ¬ full := fun hfull => absurd (hallowed.symm.trans (hs.verdict.mpr hfull)) (by simp)
      rw [hds, if_neg hroom]
      exact ⟨iff_of_false (by simp) hroom,
        (Admission.notes_recordMalformed w.pool.admission c.peer.ip).bannedUntil.trans (hs.free hc rfl hopen)⟩
    · have hfull : full := hs.verdict.mp hbanned
      rw [hds, if_pos hfull, ← hs.configured]
      exact ⟨iff_of_true (by simp) hfull, Admission.bannedUntil_bar (hs.binds hs.applies) w.now⟩
  · intro c hc rest hrest
    obtain ⟨_, _, htranscript⟩ := transcript_of_moves hcourse.moves hc
    rw [← hlimit]
    exact htranscript.heard rest hrest

/-- Two bad lines are not allowed. A miner sends the first one and goes away. Another one comes from the same address
and sends a blank line, which is nothing, and the second bad line. -/
theorem bad_lines_counted_for_address_reconnected :
    let settings : Settings := { Settings.standard with
      policy := { Settings.Limits.standard with malformedLimit := 2 } }
    let source : Source := ⟨fun _ => .ok default, fun _ => .ok true⟩
    let script : List Cue := [.enters ⟨.v4 1, 50001⟩ none, .sends 1 [0x7D, 0x0A], .turns 1, .vanishes 1, .turns 1,
      .enters ⟨.v4 1, 50002⟩ none, .sends 2 [0x20, 0x0A, 0x7D, 0x0A]]
    let played := (fresh settings false).play source script
    let log := (fresh settings false).playLog source script
    let w := played.2
    Course (fresh settings false) played.1 log w ∧ (∀ e ∈ log, e.2 ≠ .sweep)
      ∧ (Admission.fresh settings.policy).appliesTo (.v4 1) = true ∧ Admission.strikes (.v4 1) log = 1
      ∧ ∃ c ∈ w.connections, c.peer = ⟨.v4 1, 50002⟩ ∧ .ended .banned ∈ deeds source w.now w.pool c
        ∧ ((w.took (c.turn source w.now w.pool)).pool.admission.record (.v4 1)).bannedUntil
          = some settings.policy.banDuration := by
  intro settings source script played log w
  have hcourse : Course (fresh settings false) played.1 log w := course_play source _ script
  have hswept : ∀ e ∈ log, e.2 ≠ .sweep := by decide +kernel
  have happlies : (Admission.fresh settings.policy).appliesTo (.v4 1) = true := by decide
  have hstrikes : Admission.strikes (.v4 1) log = 1 := by decide +kernel
  let c := w.connections.get ⟨1, by decide +kernel⟩
  have hc : c ∈ w.connections := List.get_mem w.connections _
  have hpeer : c.peer = ⟨.v4 1, 50002⟩ := by decide +kernel
  have hheard : heard (deeds source w.now w.pool c) = [.faulty (.malformed "no such message")] := by decide +kernel
  have hnow : w.now = 0 := by decide +kernel
  have hfull : Admission.strikes (.v4 1) log + 1 = max settings.policy.malformedLimit 1 := by
    rw [hstrikes]
    rfl
  clear_value c w log
  obtain ⟨_, hline, _⟩ := bad_lines_counted_for_address hcourse hswept happlies
  obtain ⟨hban, hdeadline⟩ := hline c hc (congrArg Socket.ip hpeer) source (.malformed "no such message")
    (by rw [hheard]; exact List.mem_singleton.mpr rfl)
  rw [if_pos hfull] at hdeadline
  exact ⟨hcourse, hswept, happlies, hstrikes, c, hc, hpeer, hban.mpr hfull,
    hdeadline.trans (by rw [hnow, Nat.zero_add])⟩

end World
end MiningPool

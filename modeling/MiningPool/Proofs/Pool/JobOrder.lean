import MiningPool.Pool.Delivery
import MiningPool.Proofs.Roster
import MiningPool.Proofs.Work.ConcurrentMinting

/-!
# In which order a miner hears of jobs

What a round of broadcasting brings to a miner stays in order on its way: what waits in the miner's outbox is in
the order of the numbers, and the job of the round that goes on comes after all of it. A login overtakes it. It
draws a number of its own, which is greater than those of all that was written before, and its job is written
ahead of all that waits.

So a job is followed by an older one only if the newer one was that of a login, and the older one was then still
on its way to the miner. `Line.Before` says so of two lines, and `InTurn` is the invariant: it ties the lines
that were written to the numbers that are on their way.
-/

namespace MiningPool

open Net Wire

/-! ## The number of a job that is told -/

/-- The number in a job's id. -/
def numberInId (id : String) : Nat := Nat.ofDigitChars 10 (id.toList.drop "job_".length) 0

theorem numberInId_jobId (n : Nat) : numberInId (jobId n) = n := by
  have hid : (jobId n).toList = "job_".toList ++ Text.zeroPadded 6 (Nat.toDigits 10 n) := by
    rw [jobId, Text.decimal, String.toList_append]
    exact congrArg _ String.toList_ofList
  have hdigits : (jobId n).toList.drop "job_".length = Text.zeroPadded 6 (Nat.toDigits 10 n) := by
    rw [hid]
    exact List.drop_left
  rw [numberInId, hdigits]
  exact ofDigitChars_zeroPadded 6 n

/-- The number of the job that a message tells of, and zero if it tells of none. -/
def jobNumber : Message → Nat
  | .notification ⟨_, _, .string id :: _⟩ => numberInId id
  | _ => 0

theorem jobNumber_notification {j : Job} (h : j.id = jobId j.seq) :
    jobNumber (.notification j.notification) = j.seq := by
  show numberInId j.id = j.seq
  rw [h, numberInId_jobId]

namespace Minting

variable {m : Minting} {j : Job}

theorem Orderly.of_made (h : Orderly m) (hj : j ∈ m.made) : j.id = jobId j.seq ∧ j.seq ≤ m.started := by
  rcases mem_made.mp hj with ⟨n, hn⟩ | ⟨c, hc, hs⟩
  · obtain ⟨hseq, hid⟩ := h.given n j hn
    have hle : n ≤ m.started := h.ended_le _ hn
    rw [hseq]
    exact ⟨hid, hle⟩
  · obtain ⟨hseq, hid⟩ := h.called c hc j (job?_of_stored? hs)
    rw [hseq]
    exact ⟨hid, (h.numbered c hc).2⟩

theorem mem_ended_of_lookup {n : Nat} {outcome : Except Fault Job} (h : m.ended.lookup n = some outcome) :
    (n, outcome) ∈ m.ended := by
  obtain ⟨before, after, heq, _⟩ := List.lookup_eq_some_iff.mp h
  rw [heq]
  exact List.mem_append_right _ List.mem_cons_self

end Minting

namespace Delivery

/-! ## Lines and what is on its way -/

def Line.number (a : Line) : Nat := jobNumber a.message

/-- The numbers of the jobs that were on their way to the miner when a line was written. -/
def Line.coming (a : Line) : List Nat := a.waiting.map jobNumber ++ a.toCome.toList

/-- How a line may stand to a later one: the later one tells of no older job, unless the former belongs to a
login, which overtook a job on its way. -/
def Line.Before (a b : Line) : Prop :=
  a.number ≤ b.number ∨ (a.byLogin = true ∧ b.byLogin = false ∧ b.number ∈ a.coming)

instance (a b : Line) : Decidable (a.Before b) := inferInstanceAs (Decidable (_ ∨ _))

/-- The numbers of the jobs that are on their way to a miner, in the order in which they will arrive. -/
def coming (d : Delivery) (id : Nat) : List Nat := (d.waiting id).map jobNumber ++ (d.toCome id).toList

/-- The number that a login waits for, or that of the job it holds. -/
def LoginStage.number? : LoginStage → Option Nat
  | .asking number => some number
  | .holding job => job.map (·.seq)

/-- The number of the job that a login will bring to a miner. -/
def awaited (d : Delivery) (id : Nat) : Option Nat := (d.logins id).bind LoginStage.number?

/-- How the lines written to a miner stand to each other, to what is on its way, and to its login. -/
structure InTurn (lines : List Line) (coming : List Nat) (awaited : Option Nat) : Prop where
  sorted : coming.Pairwise (· ≤ ·)
  ahead : ∀ a ∈ lines, ∀ n ∈ coming, a.number ≤ n ∨ (a.byLogin = true ∧ n ∈ a.coming)
  /-- A login gets a job that is not older than any that was written. -/
  newer : ∀ n, awaited = some n → ∀ a ∈ lines, a.number ≤ n
  before : lines.Pairwise Line.Before

namespace InTurn

variable {lines : List Line} {ns ms : List Nat} {awaited : Option Nat} {n : Nat} {a : Line}

/-- Nothing has been written. -/
theorem nil (hsorted : ns.Pairwise (· ≤ ·)) : InTurn [] ns awaited where
  sorted := hsorted
  ahead := fun _ ha => absurd ha List.not_mem_nil
  newer := fun _ _ _ ha => absurd ha List.not_mem_nil
  before := List.Pairwise.nil

/-- Some of what was on its way is lost. -/
theorem sublist (h : InTurn lines ns awaited) (hsub : List.Sublist ms ns) : InTurn lines ms awaited where
  sorted := h.sorted.sublist hsub
  ahead := fun a ha n hn => h.ahead a ha n (hsub.subset hn)
  newer := h.newer
  before := h.before

/-- The last number on its way is offered once more. -/
theorem again (h : InTurn lines (ns ++ [n]) awaited) : InTurn lines ((ns ++ [n]) ++ [n]) awaited where
  sorted := by
    refine List.pairwise_append.mpr ⟨h.sorted, List.pairwise_singleton _ _, fun k hk i hi => ?_⟩
    rw [List.mem_singleton.mp hi]
    rcases List.mem_append.mp hk with hk | hk
    · exact (List.pairwise_append.mp h.sorted).2.2 k hk n (List.mem_singleton.mpr rfl)
    · exact Nat.le_of_eq (List.mem_singleton.mp hk)
  ahead := by
    intro a ha k hk
    refine h.ahead a ha k ?_
    rcases List.mem_append.mp hk with hk | hk
    · exact hk
    · exact List.mem_append_right _ hk
  newer := h.newer
  before := h.before

/-- A number that is greater than all before sets out. -/
theorem setOut (h : InTurn lines ns awaited) (hlines : ∀ a ∈ lines, a.number ≤ n)
    (hns : ∀ k ∈ ns, k ≤ n) : InTurn lines (ns ++ [n]) awaited where
  sorted := by
    refine List.pairwise_append.mpr ⟨h.sorted, List.pairwise_singleton _ _, fun k hk i hi => ?_⟩
    rw [List.mem_singleton.mp hi]
    exact hns k hk
  ahead := by
    intro a ha k hk
    rcases List.mem_append.mp hk with hk | hk
    · exact h.ahead a ha k hk
    · rw [List.mem_singleton.mp hk]
      exact Or.inl (hlines a ha)
  newer := h.newer
  before := h.before

/-- A login gets a number, or gives up the one it had. -/
theorem login (h : InTurn lines ns awaited) {number : Option Nat}
    (hlines : ∀ n, number = some n → ∀ a ∈ lines, a.number ≤ n) : InTurn lines ns number where
  sorted := h.sorted
  ahead := h.ahead
  newer := hlines
  before := h.before

/-- What was on its way first is written. -/
theorem arrived (h : InTurn lines (n :: ns) none) (hnumber : a.number = n) (hlogin : a.byLogin = false) :
    InTurn (lines ++ [a]) ns none := by
  obtain ⟨hfirst, hrest⟩ := List.pairwise_cons.mp h.sorted
  constructor
  case sorted => exact hrest
  case ahead =>
    intro b hb k hk
    rcases List.mem_append.mp hb with hb | hb
    · exact h.ahead b hb k (List.mem_cons_of_mem n hk)
    · rw [List.mem_singleton.mp hb, hnumber]
      exact Or.inl (hfirst k hk)
  case newer => exact fun _ hn => absurd hn (by simp)
  case before =>
    refine List.pairwise_append.mpr ⟨h.before, List.pairwise_singleton _ _, fun b hb c hc => ?_⟩
    rw [List.mem_singleton.mp hc, Line.Before, hnumber]
    rcases h.ahead b hb n List.mem_cons_self with hle | ⟨hby, hcoming⟩
    · exact Or.inl hle
    · exact Or.inr ⟨hby, hlogin, hcoming⟩

/-- The job of a login is written, ahead of all that is on its way. -/
theorem overtakes (h : InTurn lines ns (some n)) (hnumber : a.number = n) (hlogin : a.byLogin = true)
    (hcoming : a.coming = ns) : InTurn (lines ++ [a]) ns none where
  sorted := h.sorted
  ahead := by
    intro b hb k hk
    rcases List.mem_append.mp hb with hb | hb
    · exact h.ahead b hb k hk
    · rw [List.mem_singleton.mp hb, hcoming]
      exact Or.inr ⟨hlogin, hk⟩
  newer := fun _ hn => absurd hn (by simp)
  before := by
    refine List.pairwise_append.mpr ⟨h.before, List.pairwise_singleton _ _, fun b hb c hc => ?_⟩
    rw [List.mem_singleton.mp hc, Line.Before, hnumber]
    exact Or.inl (h.newer n rfl b hb)

end InTurn

/-! ## What every move keeps -/

/-- A message tells of a job that was made. -/
def Told (d : Delivery) (m : Message) : Prop := ∃ j ∈ d.minting.made, m = .notification j.notification

/-- To a miner only jobs that were made are on their way or written, each in its turn. -/
structure Serves (d : Delivery) (id : Nat) : Prop where
  waiting : ∀ m ∈ d.waiting id, d.Told m
  written : ∀ a ∈ d.lines id, d.Told a.message
  held : ∀ job, d.logins id = some (.holding (some job)) → job ∈ d.minting.made
  inTurn : InTurn (d.lines id) (d.coming id) (d.awaited id)

structure Ordered (d : Delivery) : Prop where
  orderly : d.minting.Orderly
  offered : ∀ job ids, d.round = some (.offering job ids) → job ∈ d.minting.made
  serves : ∀ id, d.Serves id

theorem ordered_fresh (difficulty history : Nat) : Ordered (fresh (.fresh difficulty history)) where
  orderly := Minting.orderly_fresh difficulty history
  offered := fun _ _ hr => absurd hr (by simp [fresh])
  serves := fun _ => {
    waiting := fun _ hm => absurd hm List.not_mem_nil
    written := fun _ ha => absurd ha List.not_mem_nil
    held := fun _ hl => absurd hl (by simp [fresh])
    inTurn := .nil List.Pairwise.nil }

variable {d d' : Delivery} {id : Nat} {m : Message}

theorem Ordered.number_le (h : Ordered d) (hm : d.Told m) : jobNumber m ≤ d.minting.started := by
  obtain ⟨j, hj, rfl⟩ := hm
  obtain ⟨hid, hle⟩ := h.orderly.of_made hj
  rw [jobNumber_notification hid]
  exact hle

theorem Told.mono (h : d.Told m) (hmade : ∀ j ∈ d.minting.made, j ∈ d'.minting.made) : d'.Told m := by
  obtain ⟨j, hj, hm⟩ := h
  exact ⟨j, hmade j hj, hm⟩

/-- A miner of whom a move leaves everything alone. -/
theorem Serves.same (h : d.Serves id) (hwaiting : d'.waiting id = d.waiting id)
    (hcome : d'.toCome id = d.toCome id) (hlines : d'.lines id = d.lines id)
    (hlogin : d'.logins id = d.logins id) (hmade : ∀ j ∈ d.minting.made, j ∈ d'.minting.made) :
    d'.Serves id := by
  constructor
  case waiting => rw [hwaiting]; exact fun m hm => (h.waiting m hm).mono hmade
  case written => rw [hlines]; exact fun a ha => (h.written a ha).mono hmade
  case held => rw [hlogin]; exact fun job hheld => hmade job (h.held job hheld)
  case inTurn =>
    rw [hlines, coming, hwaiting, hcome, awaited, hlogin]
    exact h.inTurn

/-- A move of the calls leaves all miners alone. -/
theorem Ordered.change (h : Ordered d) {m : Minting} (hch : Minting.Change d.minting m) :
    Ordered { d with minting := m } := by
  have hmade : ∀ j ∈ d.minting.made, j ∈ m.made := fun _ hj => Minting.made_change h.orderly hch hj
  constructor
  case orderly => exact Minting.orderly_change h.orderly hch
  case offered => exact fun job ids hr => hmade job (h.offered job ids hr)
  case serves => exact fun id => (h.serves id).same rfl rfl rfl rfl hmade

/-! ### What some moves have in common -/

/-- Of what waits some is lost. -/
theorem Ordered.roster (h : Ordered d) {r : Roster}
    (hwaiting : ∀ id, List.Sublist (({ d with roster := r } : Delivery).waiting id) (d.waiting id)) :
    Ordered { d with roster := r } := by
  refine ⟨h.orderly, h.offered, fun id => ?_⟩
  have hold := h.serves id
  refine ⟨fun m hm => hold.waiting m ((hwaiting id).subset hm), hold.written, hold.held, ?_⟩
  exact hold.inTurn.sublist (List.Sublist.append ((hwaiting id).map jobNumber) (List.Sublist.refl _))

/-- To some miners the round brings nothing any more. -/
theorem Ordered.round (h : Ordered d) {round : Option RoundStage}
    (hoffered : ∀ job ids, round = some (.offering job ids) → job ∈ d.minting.made)
    (hcome : ∀ id n, ({ d with round := round } : Delivery).toCome id = some n → d.toCome id = some n) :
    Ordered { d with round := round } := by
  refine ⟨h.orderly, hoffered, fun id => ?_⟩
  have hold := h.serves id
  refine ⟨hold.waiting, hold.written, hold.held, hold.inTurn.sublist ?_⟩
  refine List.Sublist.append (List.Sublist.refl _) ?_
  cases hn : ({ d with round := round } : Delivery).toCome id with
  | none => exact List.nil_sublist _
  | some n => rw [hcome id n hn]

/-- A login gets on, with a number that is not less than any that was written, or it is over. -/
theorem Ordered.login (h : Ordered d) (id : Nat) {stage : Option LoginStage}
    (hheld : ∀ job, stage = some (.holding (some job)) → job ∈ d.minting.made)
    (hlines : ∀ n, stage.bind LoginStage.number? = some n → ∀ a ∈ d.lines id, a.number ≤ n) :
    Ordered { d with logins := Function.update d.logins id stage } := by
  refine ⟨h.orderly, h.offered, fun l => ?_⟩
  have hold := h.serves l
  by_cases hl : l = id
  · subst hl
    have hlogin : Function.update d.logins l stage l = stage := Function.update_self _ _ _
    refine ⟨hold.waiting, hold.written, fun job hj => hheld job (hlogin.symm.trans hj), ?_⟩
    refine hold.inTurn.login fun n hn => hlines n ?_
    rw [awaited] at hn
    dsimp only at hn
    rw [hlogin] at hn
    exact hn
  · exact hold.same rfl rfl rfl (Function.update_of_ne hl _ _) fun _ hj => hj

theorem Ordered.loginOver (h : Ordered d) (id : Nat) :
    Ordered { d with logins := Function.update d.logins id none } :=
  h.login id (fun _ hj => absurd hj (by simp)) fun _ hn => absurd hn (by simp)

/-- A line is written to a miner for whom it is in turn. -/
theorem Ordered.write (h : Ordered d) {byLogin : Bool} (hm : d.Told m)
    (hturn : InTurn (d.lines id ++ [⟨m, byLogin, d.waiting id, d.toCome id⟩]) (d.coming id) (d.awaited id)) :
    Ordered (d.write id byLogin m) := by
  refine ⟨h.orderly, h.offered, fun l => ?_⟩
  have hold := h.serves l
  by_cases hl : l = id
  · subst hl
    have hlines : (d.write l byLogin m).lines l
        = d.lines l ++ [⟨m, byLogin, d.waiting l, d.toCome l⟩] := Function.update_self _ _ _
    refine ⟨hold.waiting, fun a ha => ?_, hold.held, ?_⟩
    · rw [hlines] at ha
      rcases List.mem_append.mp ha with ha | ha
      · exact hold.written a ha
      · rw [List.mem_singleton.mp ha]
        exact hm
    · rw [hlines]
      exact hturn
  · exact hold.same rfl rfl (Function.update_of_ne hl _ _) rfl fun _ hj => hj

/-- What others add to an outbox comes behind what waits there, if it is not lost. -/
theorem sublist_waiting {r : Roster} {ms : List Message} (h : d.roster.Adds id r ms) :
    List.Sublist (({ d with roster := r } : Delivery).waiting id) (d.waiting id ++ ms) := by
  rw [waiting, waiting]
  dsimp only
  cases he : r.get? id with
  | none => exact List.nil_sublist _
  | some e' =>
      obtain ⟨e, hold, hwaits, _⟩ := h e' he
      rw [hold]
      dsimp only [Option.elim]
      rw [hwaits]

/-! ### Connections -/

theorem ordered_join (h : Ordered d) (id : Nat) (peer : Socket) (snapshot : Snapshot) :
    Ordered (d.join id peer snapshot) := by
  refine ⟨h.orderly, h.offered, fun l => ?_⟩
  by_cases hl : l = id
  · subst hl
    have hwaiting : (d.join l peer snapshot).waiting l = [] := by
      rw [waiting, join]
      dsimp only
      rw [Roster.get?_register_self]
      rfl
    have hlines : (d.join l peer snapshot).lines l = [] := Function.update_self _ _ _
    have hlogin : (d.join l peer snapshot).logins l = none := Function.update_self _ _ _
    constructor
    case waiting => rw [hwaiting]; exact fun _ hm => absurd hm List.not_mem_nil
    case written => rw [hlines]; exact fun _ ha => absurd ha List.not_mem_nil
    case held => rw [hlogin]; exact fun _ hheld => absurd hheld (by simp)
    case inTurn =>
      rw [hlines, coming, hwaiting]
      exact .nil (List.pairwise_append.mp (h.serves l).inTurn.sorted).2.1
  · refine (h.serves l).same ?_ rfl (Function.update_of_ne hl _ _) (Function.update_of_ne hl _ _)
      fun _ hj => hj
    rw [waiting, waiting, join]
    dsimp only
    rw [Roster.get?_register_of_ne d.roster hl]

theorem ordered_leave (h : Ordered d) (id : Nat) : Ordered (d.leave id) := by
  have hleft : Ordered { d with roster := d.roster.leave id } := by
    refine h.roster fun l => ?_
    have hadds : d.roster.Adds l (d.roster.leave id) [] := Roster.adds_leave
    have hwaits := sublist_waiting hadds
    rw [List.append_nil] at hwaits
    exact hwaits
  exact hleft.loginOver id

/-- A connection that is free has no login under way, and an entry of its own. -/
theorem entry_of_isFree (h : d.isFree id = true) :
    d.logins id = none ∧ ∃ e, d.roster.get? id = some e := by
  obtain ⟨hlogin, hstays⟩ := Bool.and_eq_true_iff.mp h
  refine ⟨Option.isNone_iff_eq_none.mp hlogin, ?_⟩
  cases he : d.roster.get? id with
  | none =>
      -- whoever is not registered has to close
      rw [Roster.mustClose, he] at hstays
      exact absurd hstays (by simp)
  | some e => exact ⟨e, rfl⟩

/-- **A connection that writes what waits for it keeps to the order.** -/
theorem ordered_forward (h : Ordered d) (id : Nat) : Ordered (d.forward id) := by
  unfold forward
  split
  case isFalse => exact h
  case isTrue hfree =>
    obtain ⟨hlogin, e, he⟩ := entry_of_isFree hfree
    split
    case h_2 => exact h
    case h_1 m r htake =>
      obtain ⟨rest, hfirst, hleft⟩ := Roster.take_message d.roster id he htake
      let d₁ : Delivery := { d with roster := r }
      have hwaiting : d.waiting id = m :: d₁.waiting id := by
        rw [waiting, waiting, he]
        dsimp only [d₁]
        rw [hleft]
        exact hfirst
      have htaken : Ordered d₁ := by
        refine h.roster fun l => ?_
        by_cases hl : l = id
        · subst hl
          rw [hwaiting]
          exact List.sublist_cons_self _ _
        · have hadds : d.roster.Adds l (d.roster.take id).2 [] := Roster.adds_take hl
          have hwaits := sublist_waiting hadds
          rw [htake, List.append_nil] at hwaits
          exact hwaits
      have hm : d.Told m := by
        refine (h.serves id).waiting m ?_
        rw [hwaiting]
        exact List.mem_cons_self
      have hcoming : d.coming id = jobNumber m :: d₁.coming id := by
        rw [coming, coming, hwaiting]
        rfl
      have hawaited : d.awaited id = none := by
        rw [awaited, hlogin]
        rfl
      have hturn := (h.serves id).inTurn
      rw [hcoming, hawaited] at hturn
      refine htaken.write hm ?_
      show InTurn _ _ (d.awaited id)
      rw [hawaited]
      exact hturn.arrived rfl rfl

/-! ### Rounds -/

theorem Ordered.written_le (h : Ordered d) : ∀ a ∈ d.lines id, a.number ≤ d.minting.started :=
  fun a ha => h.number_le ((h.serves id).written a ha)

theorem ordered_beginRound (h : Ordered d) : Ordered d.beginRound := by
  unfold beginRound
  split
  case isFalse => exact h
  case isTrue hidle =>
    have hround : d.round = none := Option.isNone_iff_eq_none.mp (Bool.and_eq_true_iff.mp hidle).1
    have hstarted := h.change (.started .everyone)
    refine ⟨hstarted.orderly, fun _ _ hr => absurd hr (by simp), fun id => ?_⟩
    have hold := hstarted.serves id
    refine ⟨hold.waiting, hold.written, hold.held, ?_⟩
    -- all that is on its way waits in the outbox, and was made before the number was drawn
    have hcoming : d.coming id = (d.waiting id).map jobNumber := by
      rw [coming, toCome, hround]
      exact List.append_nil _
    have hturn := (h.serves id).inTurn
    rw [hcoming] at hturn
    refine hturn.setOut (fun a ha => Nat.le_succ_of_le (h.written_le a ha)) fun k hk => ?_
    obtain ⟨m, hm, rfl⟩ := List.mem_map.mp hk
    exact Nat.le_succ_of_le (h.number_le ((h.serves id).waiting m hm))

theorem ordered_gather (h : Ordered d) : Ordered d.gather := by
  unfold gather
  split
  case h_2 => exact h
  case h_1 number hround =>
    split
    case h_1 job hended =>
      have hmem := Minting.mem_ended_of_lookup hended
      refine h.round (fun j ids hr => ?_) fun id n hn => ?_
      · simp only [Option.some.injEq, RoundStage.offering.injEq] at hr
        rw [← hr.1]
        exact Minting.mem_made.mpr (Or.inl ⟨number, hmem⟩)
      · -- a call returns the job of its own number
        have hseq : job.seq = number := (h.orderly.given number job hmem).1
        rw [toCome] at hn ⊢
        rw [hround]
        dsimp only at hn ⊢
        split at hn
        · rw [← hn, hseq]
        · exact absurd hn (by simp)
    case h_2 => exact h.round (fun _ _ hr => absurd hr (by simp)) fun _ _ hn => absurd hn (by simp [toCome])
    case h_3 => exact h

/-- **The job that a round offers comes behind all that waits**, or it is lost. -/
theorem ordered_offer (h : Ordered d) : Ordered d.offer := by
  unfold offer
  split
  case h_1 job l ids hround =>
    have hmade : job ∈ d.minting.made := h.offered job (l :: ids) hround
    have hnumber : jobNumber (.notification job.notification) = job.seq :=
      jobNumber_notification (h.orderly.of_made hmade).1
    let m : Message := .notification job.notification
    let d₁ : Delivery := { d with roster := (d.roster.offer l m).2, round := some (.offering job ids) }
    show Ordered d₁
    refine ⟨h.orderly, fun j js hr => ?_, fun id => ?_⟩
    · rw [← (RoundStage.offering.inj (Option.some.inj hr)).1]
      exact hmade
    have hold := h.serves id
    have hadds : d.roster.Adds id (d.roster.offer l m).2
        (if l = id ∧ (d.roster.offer l m).1 = some .taken then [m] else []) := Roster.adds_offer m
    have hwaits : List.Sublist (d₁.waiting id) _ := sublist_waiting hadds
    constructor
    case waiting =>
      intro x hx
      rcases List.mem_append.mp (hwaits.subset hx) with hx | hx
      · exact hold.waiting x hx
      · split at hx
        · rw [List.mem_singleton.mp hx]
          exact ⟨job, hmade, rfl⟩
        · exact absurd hx List.not_mem_nil
    case written => exact hold.written
    case held => exact hold.held
    case inTurn =>
      have hnumbers := hwaits.map jobNumber
      rw [List.map_append] at hnumbers
      by_cases hl : l = id
      · -- the number that was still to come comes once more at most
        have hcome : d.toCome id = some job.seq := by
          rw [toCome, hround]
          exact if_pos (hl ▸ List.mem_cons_self)
        have hturn := hold.inTurn
        rw [coming, hcome, Option.toList_some] at hturn
        refine hturn.again.sublist (List.Sublist.append (hnumbers.trans ?_) ?_)
        · refine List.Sublist.append (List.Sublist.refl _) ?_
          split
          · rw [List.map_singleton, hnumber]
          · exact List.nil_sublist _
        · rw [toCome]
          dsimp only [d₁]
          split
          · exact List.Sublist.refl _
          · exact List.nil_sublist _
      · have hcome : d₁.toCome id = d.toCome id := by
          rw [toCome, toCome, hround]
          dsimp only [d₁]
          simp only [List.mem_cons, Ne.symm hl, false_or]
        rw [if_neg fun hboth => hl hboth.1, List.map_nil, List.append_nil] at hnumbers
        refine hold.inTurn.sublist ?_
        rw [coming, hcome]
        exact List.Sublist.append hnumbers (List.Sublist.refl _)
  case h_2 =>
    exact h.round (fun _ _ hr => absurd hr (by simp)) fun _ _ hn => absurd hn (by simp [toCome])
  case h_3 => exact h

/-! ### Logins -/

theorem ordered_beginLogin (h : Ordered d) (id : Nat) : Ordered (d.beginLogin id) := by
  unfold beginLogin
  split
  case isFalse => exact h
  case isTrue =>
    have hstarted := h.change (.started .session)
    refine hstarted.login id (fun _ hj => absurd hj (by simp)) fun n hn a ha => ?_
    -- the number is greater than those of all jobs made so far
    rw [← show d.minting.started + 1 = n from Option.some.inj hn]
    exact Nat.le_succ_of_le (h.written_le a ha)

/-- **A login holds a job that is not older than any that was written.** -/
theorem ordered_resolve (h : Ordered d) (id : Nat) : Ordered (d.resolve id) := by
  unfold resolve
  split
  case h_2 => exact h
  case h_1 number hlogin =>
    split
    case h_1 job hended =>
      have hmem := Minting.mem_ended_of_lookup hended
      refine h.login id (fun j hj => ?_) fun n hn => ?_
      · rw [Option.some.injEq, LoginStage.holding.injEq, Option.some.injEq] at hj
        rw [← hj]
        exact Minting.mem_made.mpr (Or.inl ⟨number, hmem⟩)
      · have hseq : number = n := (h.orderly.given number job hmem).1.symm.trans (Option.some.inj hn)
        refine (h.serves id).inTurn.newer n ?_
        rw [awaited, hlogin]
        exact congrArg some hseq
    case h_2 =>
      -- there was no work, so it gets the newest of all jobs
      have hnewest := h.orderly.newest
      refine h.login id (fun j hj => ?_) fun n hn a ha => ?_
      · rw [Option.some.injEq, LoginStage.holding.injEq] at hj
        rw [hj] at hnewest
        exact hnewest.1
      · have hcurrent : d.minting.ledger.current.map (·.seq) = some n := hn
        obtain ⟨c, hc, hn⟩ := Option.map_eq_some_iff.mp hcurrent
        rw [hc] at hnewest
        obtain ⟨j, hj, hm⟩ := (h.serves id).written a ha
        rw [Line.number, hm, jobNumber_notification (h.orderly.of_made hj).1, ← hn]
        exact hnewest.2 j hj
    case h_3 => exact h

/-- **The job of a login is written ahead of all that is on its way.** -/
theorem ordered_answer (h : Ordered d) (id : Nat) : Ordered (d.answer id) := by
  unfold answer
  split
  case h_1 job hlogin =>
    have hold := h.serves id
    have hmade : job ∈ d.minting.made := hold.held job hlogin
    have hnumber : jobNumber (.notification job.notification) = job.seq :=
      jobNumber_notification (h.orderly.of_made hmade).1
    have hturn := hold.inTurn
    rw [show d.awaited id = some job.seq by rw [awaited, hlogin]; rfl] at hturn
    refine (h.loginOver id).write ⟨job, hmade, rfl⟩ ?_
    have hover : ({ d with logins := Function.update d.logins id none } : Delivery).awaited id = none := by
      rw [awaited]
      dsimp only
      rw [Function.update_self]
      rfl
    rw [hover]
    exact hturn.overtakes hnumber rfl rfl
  case h_2 => exact h.loginOver id
  case h_3 => exact h

/-! ## Runs -/

/-- **Every move keeps the order.** -/
theorem ordered_step (h : Ordered d) (move : Move) : Ordered (d.step move) := by
  cases move with
  | join id peer snapshot => exact ordered_join h id peer snapshot
  | leave id => exact ordered_leave h id
  | forward id => exact ordered_forward h id
  | beginRound => exact ordered_beginRound h
  | gather => exact ordered_gather h
  | offer => exact ordered_offer h
  | beginLogin id => exact ordered_beginLogin h id
  | resolve id => exact ordered_resolve h id
  | answer id => exact ordered_answer h id
  | receive seq work => exact h.change (Minting.receive_change d.minting seq work)
  | advance seq => exact h.change (Minting.advance_change d.minting seq)

theorem ordered_run (moves : List Move) : ∀ {d : Delivery}, Ordered d → Ordered (d.run moves) := by
  induction moves with
  | nil => intro d h; exact h
  | cons move moves ih => intro d h; exact ih (ordered_step h move)

/--
**A miner hears of an older job after a newer one only if a login overtook a round.**

However rounds and logins overlap, each line tells of a job that was made, and of two lines the later one tells of
no older job, unless the former is that of a login and the latter is not, and the older job was on its way to the
miner when the login was answered. So if nothing is ever on its way to a miner when a login of it is answered,
the numbers that the miner hears never decrease.
-/
theorem older_only_if_overtaken (difficulty history : Nat) (moves : List Move) (id : Nat) :
    let d := (fresh (.fresh difficulty history)).run moves
    (∀ a ∈ d.lines id, ∃ j ∈ d.minting.made, a.message = .notification j.notification ∧ a.number = j.seq)
      ∧ (d.lines id).Pairwise Line.Before
      ∧ ((∀ a ∈ d.lines id, a.byLogin = true → a.coming = []) →
          (d.lines id).Pairwise fun a b => a.number ≤ b.number) := by
  intro d
  have h : Ordered d := ordered_run moves (ordered_fresh difficulty history)
  have hbefore := (h.serves id).inTurn.before
  refine ⟨fun a ha => ?_, hbefore, fun hnone => ?_⟩
  · obtain ⟨j, hj, hm⟩ := (h.serves id).written a ha
    refine ⟨j, hj, hm, ?_⟩
    rw [Line.number, hm, jobNumber_notification (h.orderly.of_made hj).1]
  · refine hbefore.imp_of_mem fun {a b} ha _ hab => ?_
    rcases hab with hle | ⟨hlogin, _, hcoming⟩
    · exact hle
    · rw [hnone a ha hlogin] at hcoming
      exact absurd hcoming List.not_mem_nil

/-- A miner can hear of an older job after a newer one. The work of a round comes in late, and by then the miner
has logged in and has got a newer job. -/
theorem older_after_newer :
    ¬ ∀ (difficulty history : Nat) (moves : List Move) (id : Nat),
      (((fresh (.fresh difficulty history)).run moves).lines id).Pairwise fun a b => a.number ≤ b.number := by
  intro h
  have hsorted := h 1000 8
    [.join 1 default default, .beginRound, .beginLogin 1,
      .receive 2 (.ok default), .advance 2, .advance 2, .resolve 1, .answer 1,
      .receive 1 (.ok default), .advance 1, .advance 1, .advance 1, .gather, .offer, .offer, .forward 1] 1
  revert hsorted
  decide

end Delivery
end MiningPool

import MiningPool.Proofs.Roster.Lookup

/-!
# Queues lose, duplicate and reorder nothing

Each time an id is registered a new queue begins, with one reader. A `History` is a roster with a record of every
registration made on it: what was offered to it and how its queue stood then, what its reader has taken, and what its
reader left behind. A reader keeps its queue when the entry is removed, and also when the id is registered again; from
then on the queue stands in the record, since the roster knows only the newest of an id.

What a reader has taken and what still waits for it are what was offered while it was registered, less what met a full
queue or a reader that was gone (`Agrees`). Calls are made one after the other, so a broadcast has reached everyone
before the next call; one call preserves this for every registration, whatever call it is.
-/

namespace MiningPool

open Net Wire

namespace Roster

/-! ## Registrations -/

/-- A message as it was offered: how many waited before it, and whether the reader was gone. -/
structure Offering where
  message : Message
  ahead : Nat
  readerGone : Bool
  deriving DecidableEq, Repr

/-- Whether there was room for the message and someone to read it. -/
def Offering.fits (capacity : Nat) (o : Offering) : Bool := o.ahead < capacity && !o.readerGone

/-- What became of one registration. -/
structure Registration where
  id : Nat
  capacity : Nat
  /-- Its queue, once its id was registered again. -/
  replaced : Option Outbox
  /-- The messages offered to it while it was registered, in order. -/
  offered : List Offering
  /-- The messages its reader has taken, in order. -/
  taken : List Message
  readerGone : Bool
  /-- What waited when its reader went away. -/
  left : List Message
  deriving DecidableEq, Repr

namespace Registration

def fresh (id capacity : Nat) : Registration := ⟨id, capacity, none, [], [], false, []⟩

/-- Its queue, on the roster as long as its id was not registered again. -/
def queue? (g : Registration) (r : Roster) : Option Outbox :=
  match g.replaced with
  | some o => some o
  | none => (r.find? g.id).map (·.outbox)

/-- Whether its entry is on the roster. -/
def isOn (g : Registration) (r : Roster) : Bool := g.replaced.isNone && r.contains g.id

/-- What was offered to it, less what met a full queue or a reader that was gone. -/
def kept (g : Registration) : List Message :=
  (g.offered.filter (·.fits g.capacity)).map (·.message)

/-- What its reader has not taken: what waits, or what was left behind. -/
def unread (g : Registration) (o : Outbox) : List Message := if g.readerGone then g.left else o.waiting

/-- It is offered a message on its queue. -/
def meets (m : Message) (g : Registration) (o : Outbox) : Registration :=
  { g with offered := g.offered ++ [⟨m, o.waiting.length, g.readerGone⟩] }

/-- A message is offered to some ids. -/
def hears (r : Roster) (ids : List Nat) (m : Message) (g : Registration) : Registration :=
  if g.id ∈ ids ∧ g.isOn r = true then (g.queue? r).elim g (g.meets m) else g

/-- An id is registered again: whoever had it keeps its queue. -/
def givesWay (r : Roster) (id : Nat) (g : Registration) : Registration :=
  if g.id = id then { g with replaced := g.queue? r } else g

/-- Its reader takes a message. -/
def takes (m : Message) (g : Registration) : Registration := { g with taken := g.taken ++ [m] }

/-- Its reader goes away and leaves some messages. -/
def leaves (left : List Message) (g : Registration) : Registration := { g with readerGone := true, left := left }

/-- Its queue stands in the record. -/
def setAside (o : Outbox) (g : Registration) : Registration := { g with replaced := some o }

/-- What its reader has taken and what still waits for it are what was kept of what was offered. -/
structure Agrees (g : Registration) (o : Outbox) : Prop where
  capacity : o.capacity = g.capacity
  isOpen : o.isOpen = !g.readerGone
  told : g.taken ++ g.unread o = g.kept
  bounded : o.waiting.length ≤ g.capacity

variable {g : Registration} {o : Outbox} {r r' : Roster}

theorem agrees_fresh (id capacity : Nat) : (fresh id capacity).Agrees (.fresh capacity) :=
  ⟨rfl, rfl, rfl, Nat.zero_le _⟩

/-- Whether a message that is offered will be kept. -/
def HasRoom (g : Registration) (o : Outbox) : Prop := o.waiting.length < g.capacity ∧ g.readerGone = false

theorem kept_meets (m : Message) (hroom : g.HasRoom o) : (g.meets m o).kept = g.kept ++ [m] := by
  obtain ⟨hfits, hthere⟩ := hroom
  simp [kept, meets, Offering.fits, hfits, hthere]

theorem kept_meets_of_not (m : Message) (hroom : ¬ g.HasRoom o) : (g.meets m o).kept = g.kept := by
  have hdrop : ¬ Offering.fits g.capacity ⟨m, o.waiting.length, g.readerGone⟩ = true := by
    simpa [HasRoom, Offering.fits] using hroom
  have hlast : [Offering.mk m o.waiting.length g.readerGone].filter (·.fits g.capacity) = [] :=
    List.filter_cons_of_neg hdrop
  rw [kept, meets, List.filter_append, hlast, List.append_nil, kept]

theorem Agrees.offer_of_room (h : g.Agrees o) (m : Message) (hroom : g.HasRoom o) :
    (o.offer m).2 = { o with waiting := o.waiting ++ [m] } := by
  have hopen : o.isOpen = true := by rw [h.isOpen, hroom.2]; rfl
  have hfits : o.waiting.length < o.capacity := h.capacity ▸ hroom.1
  simp [Outbox.offer, hopen, hfits]

theorem Agrees.offer_of_not (h : g.Agrees o) (m : Message) (hroom : ¬ g.HasRoom o) : (o.offer m).2 = o := by
  unfold Outbox.offer
  split
  · rfl
  · rename_i hopen
    have hthere : g.readerGone = false := by simpa [h.isOpen] using hopen
    rw [if_neg fun hfits => hroom ⟨h.capacity ▸ hfits, hthere⟩]

/-- **A message that is offered comes last in the queue, unless it is full or its reader is gone.** -/
theorem Agrees.offered (h : g.Agrees o) (m : Message) : (g.meets m o).Agrees (o.offer m).2 := by
  by_cases hroom : g.HasRoom o
  · rw [h.offer_of_room m hroom]
    refine ⟨h.capacity, h.isOpen, ?_, ?_⟩
    · have hunread : (g.meets m o).unread { o with waiting := o.waiting ++ [m] } = g.unread o ++ [m] := by
        simp [unread, meets, hroom.2]
      rw [kept_meets m hroom, ← h.told, hunread, List.append_assoc]
      rfl
    · show (o.waiting ++ [m]).length ≤ g.capacity
      rw [List.length_append]
      exact hroom.1
  · rw [h.offer_of_not m hroom]
    exact ⟨h.capacity, h.isOpen, (kept_meets_of_not m hroom).symm ▸ h.told, h.bounded⟩

/-- What a reader takes is what came first. -/
theorem Agrees.took (h : g.Agrees o) (hopen : o.isOpen = true) {m : Message} {rest : List Message}
    (hw : o.waiting = m :: rest) : (g.takes m).Agrees { o with waiting := rest } := by
  have hthere : g.readerGone = false := by simpa [hopen] using h.isOpen
  have hunread : g.unread o = m :: rest := by rw [unread, hthere, hw]; rfl
  have hafter : (g.takes m).unread { o with waiting := rest } = rest := by simp [unread, takes, hthere]
  have hlen := h.bounded
  rw [hw, List.length_cons] at hlen
  refine ⟨h.capacity, h.isOpen, ?_, Nat.le_of_succ_le hlen⟩
  have htold := h.told
  rw [hunread] at htold
  rw [hafter, takes, List.append_assoc]
  exact htold

/-- A reader that goes away leaves what waits. -/
theorem Agrees.closed (h : g.Agrees o) (hthere : g.readerGone = false) : (g.leaves o.waiting).Agrees o.close := by
  have hunread : g.unread o = o.waiting := by rw [unread, hthere]; rfl
  have htold := h.told
  rw [hunread] at htold
  exact ⟨h.capacity, rfl, htold, Nat.zero_le _⟩

theorem Agrees.aside (h : g.Agrees o) (replaced : Option Outbox) : Agrees { g with replaced := replaced } o :=
  ⟨h.capacity, h.isOpen, h.told, h.bounded⟩

theorem queue?_of_replaced (h : g.replaced = some o) (r : Roster) : g.queue? r = some o := by
  rw [queue?, h]

theorem queue?_of_none (h : g.replaced = none) : g.queue? r = (r.find? g.id).map (·.outbox) := by
  rw [queue?, h]

/-- Its queue is only on the roster while its id was not registered again. -/
theorem queue?_congr (h : g.replaced = none → r'.find? g.id = r.find? g.id) : g.queue? r' = g.queue? r := by
  cases hrep : g.replaced with
  | none => rw [queue?_of_none hrep, queue?_of_none hrep, h hrep]
  | some o => rw [queue?_of_replaced hrep, queue?_of_replaced hrep]

theorem isOn_iff : g.isOn r = true ↔ g.replaced = none ∧ r.contains g.id = true := by
  rw [isOn, Bool.and_eq_true, Option.isNone_iff_eq_none]

theorem hears_id (ids : List Nat) (m : Message) : (g.hears r ids m).id = g.id := by
  unfold hears
  split
  · cases g.queue? r <;> rfl
  · rfl

theorem hears_replaced (ids : List Nat) (m : Message) : (g.hears r ids m).replaced = g.replaced := by
  unfold hears
  split
  · cases g.queue? r <;> rfl
  · rfl

theorem givesWay_id (id : Nat) : (g.givesWay r id).id = g.id := by
  unfold givesWay
  split
  · rfl
  · rfl

end Registration

/-! ## Calls -/

/-- What is done with a roster and with the readers of its queues, each named by the number of its registration. -/
inductive Call where
  | register (id : Nat) (peer : Socket) (capacity : Nat) (snapshot : Snapshot)
  | deregister (id : Nat)
  | broadcast (m : Message)
  | sendTo (id : Nat) (m : Message)
  | take (n : Nat)
  | drop (n : Nat)
  deriving DecidableEq, Repr

/-- A roster, and all registrations made on it, the first one first. -/
structure History where
  roster : Roster
  made : List Registration
  deriving DecidableEq, Repr

namespace History

def empty : History := ⟨Roster.empty, []⟩

/-- The reader of a registration takes a message, if one waits. -/
def take (h : History) (n : Nat) : History :=
  match h.made[n]? with
  | none => h
  | some g =>
    match g.replaced with
    | none =>
      match h.roster.take g.id with
      | (.message m, r) => ⟨r, h.made.modify n (·.takes m)⟩
      | (_, r) => { h with roster := r }
    | some o =>
      match o.isOpen, o.take with
      | true, (some m, o) => { h with made := h.made.modify n fun g => (g.takes m).setAside o }
      | _, _ => h

/-- The reader of a registration goes away. -/
def drop (h : History) (n : Nat) : History :=
  match h.made[n]? with
  | none => h
  | some g =>
    if g.readerGone then h
    else
      let left := (g.queue? h.roster).elim [] (·.waiting)
      match g.replaced with
      | none => ⟨h.roster.closeOutbox g.id, h.made.modify n (·.leaves left)⟩
      | some o => { h with made := h.made.modify n fun g => (g.leaves left).setAside o.close }

def call (h : History) : Call → History
  | .register id peer capacity snapshot =>
    ⟨h.roster.register id (.fresh peer capacity snapshot),
      h.made.map (·.givesWay h.roster id) ++ [.fresh id capacity]⟩
  | .deregister id => { h with roster := h.roster.deregister id }
  | .broadcast m => ⟨(h.roster.broadcast m).2, h.made.map (·.hears h.roster h.roster.ids m)⟩
  | .sendTo id m => ⟨(h.roster.sendTo id m).2, h.made.map (·.hears h.roster [id] m)⟩
  | .take n => h.take n
  | .drop n => h.drop n

def run (h : History) (calls : List Call) : History := calls.foldl call h

/-- Whether the entry of a registration is on the roster. -/
def isOn (h : History) (n : Nat) : Bool := (h.made[n]?).any (·.isOn h.roster)

/-! ## What every call preserves -/

/-- What holds of a history after any calls. -/
structure Sound (h : History) : Prop where
  sorted : h.roster.Sorted
  agrees : ∀ (n : Nat) (g : Registration), h.made[n]? = some g → ∃ o, g.queue? h.roster = some o ∧ g.Agrees o
  /-- Of the registrations of an id only the newest was not replaced. -/
  newest : ∀ (i j : Nat) (g g' : Registration), h.made[i]? = some g → h.made[j]? = some g' → g.replaced = none →
    g'.replaced = none → g.id = g'.id → i = j

variable {h : History}

theorem sound_empty : empty.Sound where
  sorted := sorted_empty
  agrees := fun n g hg => absurd hg (by simp [empty])
  newest := fun i j g g' hg => absurd hg (by simp [empty])

/-- While no registration takes another's place, the newest of each id stays the newest. -/
theorem newest_map (hs : h.Sound) {f : Registration → Registration} (hid : ∀ g, (f g).id = g.id)
    (hrep : ∀ g, (f g).replaced = none → g.replaced = none) :
    ∀ (i j : Nat) (g g' : Registration), (h.made.map f)[i]? = some g → (h.made.map f)[j]? = some g' →
      g.replaced = none → g'.replaced = none → g.id = g'.id → i = j := by
  intro i j g g' hi hj hg hg' heq
  rw [List.getElem?_map, Option.map_eq_some_iff] at hi hj
  obtain ⟨a, ha, rfl⟩ := hi
  obtain ⟨b, hb, rfl⟩ := hj
  rw [hid, hid] at heq
  exact hs.newest i j a b ha hb (hrep a hg) (hrep b hg') heq

/-- A registration after an id was registered: one that was made before, or the new one. -/
theorem made_register {made : List Registration} {f : Registration → Registration} {new g : Registration} {n : Nat}
    (hg : (made.map f ++ [new])[n]? = some g) :
    (∃ old, made[n]? = some old ∧ g = f old) ∨ (n = made.length ∧ g = new) := by
  rw [List.getElem?_append, List.length_map] at hg
  split at hg
  · rw [List.getElem?_map, Option.map_eq_some_iff] at hg
    obtain ⟨old, hold, rfl⟩ := hg
    exact .inl ⟨old, hold, rfl⟩
  · rw [List.getElem?_singleton] at hg
    split at hg
    · exact .inr ⟨by omega, by simpa using hg.symm⟩
    · simp at hg

/-- Of the registrations of an id that is registered again each was or is replaced. -/
theorem Sound.not_newest (hs : h.Sound) {n : Nat} {g : Registration} (hg : h.made[n]? = some g) {id : Nat}
    (hrep : (g.givesWay h.roster id).replaced = none) : g.replaced = none ∧ g.id ≠ id := by
  obtain ⟨o, ho, -⟩ := hs.agrees n g hg
  unfold Registration.givesWay at hrep
  split at hrep
  · exact absurd (ho.symm.trans hrep) (by simp)
  · rename_i hid
    exact ⟨hrep, hid⟩

theorem Sound.register (hs : h.Sound) (id : Nat) (peer : Socket) (capacity : Nat) (snapshot : Snapshot) :
    (h.call (.register id peer capacity snapshot)).Sound := by
  constructor
  case sorted => exact hs.sorted.register id _
  case agrees =>
    intro n g hg
    rcases made_register hg with ⟨g, hold, rfl⟩ | ⟨-, rfl⟩
    · obtain ⟨o, ho, hagrees⟩ := hs.agrees n g hold
      by_cases hid : g.id = id
      · -- it keeps its queue
        rw [Registration.givesWay, if_pos hid, ho]
        exact ⟨o, rfl, hagrees.aside _⟩
      · rw [Registration.givesWay, if_neg hid]
        exact ⟨o, (Registration.queue?_congr fun _ => find?_register_of_ne hid _).trans ho, hagrees⟩
    · refine ⟨.fresh capacity, ?_, Registration.agrees_fresh id capacity⟩
      show ((h.roster.register id (.fresh peer capacity snapshot)).find? id).map (·.outbox) = some (.fresh capacity)
      rw [find?_register_self]
      rfl
  case newest =>
    intro i j g g' hi hj hg hg' heq
    rcases made_register hi with ⟨a, ha, rfl⟩ | ⟨hlast, rfl⟩
    · rw [Registration.givesWay_id] at heq
      obtain ⟨ha', hne⟩ := hs.not_newest ha hg
      rcases made_register hj with ⟨b, hb, rfl⟩ | ⟨-, rfl⟩
      · rw [Registration.givesWay_id] at heq
        exact hs.newest i j a b ha hb ha' (hs.not_newest hb hg').1 heq
      · exact absurd heq hne
    · rcases made_register hj with ⟨b, hb, rfl⟩ | ⟨hlast', rfl⟩
      · rw [Registration.givesWay_id] at heq
        exact absurd heq.symm (hs.not_newest hb hg').2
      · rw [hlast, hlast']

theorem Sound.deregister (hs : h.Sound) (id : Nat) : (h.call (.deregister id)).Sound where
  sorted := hs.sorted.deregister id
  agrees := by
    intro n g hg
    obtain ⟨o, ho, hagrees⟩ := hs.agrees n g hg
    exact ⟨o, (Registration.queue?_congr fun _ => find?_deregister).trans ho, hagrees⟩
  newest := hs.newest

/-- A message that is offered to some ids. -/
theorem Sound.offered (hs : h.Sound) {ids : List Nat} {m : Message} {r : Roster} (hr : r.Sorted)
    (hreach : ∀ l, Reached m ids l h.roster r) : Sound ⟨r, h.made.map (·.hears h.roster ids m)⟩ where
  sorted := hr
  agrees := by
    intro n g hg
    rw [List.getElem?_map, Option.map_eq_some_iff] at hg
    obtain ⟨g, hg, rfl⟩ := hg
    obtain ⟨o, ho, hagrees⟩ := hs.agrees n g hg
    by_cases hears : g.id ∈ ids ∧ g.isOn h.roster = true
    · obtain ⟨hrep, hthere⟩ := Registration.isOn_iff.mp hears.2
      have hmeets : g.hears h.roster ids m = g.meets m o := by rw [Registration.hears, if_pos hears, ho]; rfl
      refine ⟨(o.offer m).2, ?_, hmeets ▸ hagrees.offered m⟩
      rw [Registration.queue?_of_none hrep, Option.map_eq_some_iff] at ho
      obtain ⟨e, he, rfl⟩ := ho
      have hfound := (hreach g.id).found
      rw [if_pos ⟨hears.1, hthere⟩, he] at hfound
      rw [Registration.queue?_of_none ((Registration.hears_replaced ids m).trans hrep), Registration.hears_id, hfound]
      rfl
    · rw [Registration.hears, if_neg hears]
      refine ⟨o, (Registration.queue?_congr fun hrep => ?_).trans ho, hagrees⟩
      rw [(hreach g.id).found, if_neg fun hin => hears ⟨hin.1, Registration.isOn_iff.mpr ⟨hrep, hin.2⟩⟩]
  newest := newest_map hs (fun _ => Registration.hears_id ids m) fun g hg => (Registration.hears_replaced ids m) ▸ hg

/-- Something happens to the queue of one registration. -/
theorem Sound.modified (hs : h.Sound) {n : Nat} {g : Registration} (hg : h.made[n]? = some g) {r : Roster} (hr : r.Sorted)
    {f : Registration → Registration} (hid : ∀ g, (f g).id = g.id) (hrep : ∀ g, (f g).replaced = none → g.replaced = none)
    (hself : ∃ o, (f g).queue? r = some o ∧ (f g).Agrees o)
    (hothers : ∀ l, (g.replaced = none → l ≠ g.id) → r.find? l = h.roster.find? l) : Sound ⟨r, h.made.modify n f⟩ := by
  have hat : ∀ (j : Nat) (g' : Registration), (h.made.modify n f)[j]? = some g' →
      (j = n ∧ g' = f g) ∨ (j ≠ n ∧ h.made[j]? = some g') := by
    intro j g' hj
    rw [List.getElem?_modify] at hj
    by_cases hjn : n = j
    · subst hjn
      rw [hg] at hj
      exact .inl ⟨rfl, by simpa using hj.symm⟩
    · exact .inr ⟨Ne.symm hjn, by simpa [hjn] using hj⟩
  constructor
  case sorted => exact hr
  case agrees =>
    intro j g' hj
    rcases hat j g' hj with ⟨-, rfl⟩ | ⟨hjn, hj⟩
    · exact hself
    · obtain ⟨o, ho, hagrees⟩ := hs.agrees j g' hj
      refine ⟨o, (Registration.queue?_congr fun hrep' => hothers g'.id fun hrep => ?_).trans ho, hagrees⟩
      exact fun heq => hjn (hs.newest j n g' g hj hg hrep' hrep heq)
  case newest =>
    intro i j a b hi hj ha hb heq
    rcases hat i a hi with ⟨rfl, rfl⟩ | ⟨-, hi'⟩
    · rcases hat j b hj with ⟨rfl, rfl⟩ | ⟨-, hj'⟩
      · rfl
      · exact hs.newest _ _ g b hg hj' (hrep g ha) hb (hid g ▸ heq)
    · rcases hat j b hj with ⟨rfl, rfl⟩ | ⟨-, hj'⟩
      · exact hs.newest _ _ a g hi' hg ha (hrep g hb) (hid g ▸ heq)
      · exact hs.newest _ _ a b hi' hj' ha hb heq

/-- The queue of a registration that stands on the roster is changed there. -/
theorem Sound.changed (hs : h.Sound) {n : Nat} {g : Registration} (hg : h.made[n]? = some g) (hrep : g.replaced = none)
    {e : Entry} (he : h.roster.find? g.id = some e) {o : Outbox} {f : Registration → Registration}
    (hid : ∀ g, (f g).id = g.id) (hf : ∀ g, (f g).replaced = g.replaced) (hagrees : (f g).Agrees o)
    {change : Entry → Entry} (hchange : (change e).outbox = o) :
    Sound ⟨h.roster.change g.id change, h.made.modify n f⟩ := by
  refine hs.modified hg (hs.sorted.change _ _) hid (fun g => hf g ▸ id) ⟨o, ?_, hagrees⟩ fun l hl => ?_
  · rw [Registration.queue?_of_none ((hf g).trans hrep), hid, find?_change_self, he, Option.map_some, Option.map_some,
      hchange]
  · exact find?_change_of_ne (hl hrep) _

/-- The queue of a registration that was replaced is changed in the record. -/
theorem Sound.changed_aside (hs : h.Sound) {n : Nat} {g : Registration} (hg : h.made[n]? = some g) {o : Outbox}
    {f : Registration → Registration} (hid : ∀ g, (f g).id = g.id) (hagrees : (f g).Agrees o) :
    Sound ⟨h.roster, h.made.modify n fun g => (f g).setAside o⟩ :=
  hs.modified hg hs.sorted hid (fun _ hnone => absurd hnone (by simp [Registration.setAside]))
    ⟨o, rfl, hagrees.aside _⟩ fun _ _ => rfl

theorem Sound.take (hs : h.Sound) (n : Nat) : (h.take n).Sound := by
  cases hg : h.made[n]? with
  | none => simpa only [History.take, hg] using hs
  | some g =>
      obtain ⟨o, ho, hagrees⟩ := hs.agrees n g hg
      cases hrep : g.replaced with
      | none =>
          rw [Registration.queue?_of_none hrep, Option.map_eq_some_iff] at ho
          obtain ⟨e, he, rfl⟩ := ho
          by_cases hopen : e.outbox.isOpen = true
          case neg =>
            have htake := take_of_closed he (Bool.eq_false_iff.mpr hopen)
            simpa only [History.take, hg, hrep, htake] using hs
          rcases take_found he hopen with ⟨-, hsame, hnone⟩ | ⟨m, rest, hw, htake⟩
          · -- what it finds is no message, so the record stays as it is
            have hstay : h.take n = h := by simp only [History.take, hg, hrep, hsame]
            exact hstay.symm ▸ hs
          · simp only [History.take, hg, hrep, htake]
            exact hs.changed (f := Registration.takes m) hg hrep he (fun _ => rfl) (fun _ => rfl)
              (hagrees.took hopen hw) rfl
      | some o' =>
          obtain rfl : o' = o := Option.some.inj ((Registration.queue?_of_replaced hrep _).symm.trans ho)
          cases hopen : o'.isOpen with
          | false => simpa only [History.take, hg, hrep, hopen] using hs
          | true =>
              cases hw : o'.waiting with
              | nil => simpa only [History.take, hg, hrep, hopen, Outbox.take, hw] using hs
              | cons m rest =>
                  have hafter : h.take n = ⟨h.roster, h.made.modify n fun g =>
                      (g.takes m).setAside { o' with waiting := rest }⟩ := by
                    simp only [History.take, hg, hrep, hopen, Outbox.take, hw]
                  exact hafter ▸ hs.changed_aside (f := Registration.takes m) hg (fun _ => rfl) (hagrees.took hopen hw)

theorem Sound.drop (hs : h.Sound) (n : Nat) : (h.drop n).Sound := by
  cases hg : h.made[n]? with
  | none => simpa only [History.drop, hg] using hs
  | some g =>
      obtain ⟨o, ho, hagrees⟩ := hs.agrees n g hg
      cases hgone : g.readerGone with
      | true => simpa only [History.drop, hg, hgone, if_true] using hs
      | false =>
          cases hrep : g.replaced with
          | none =>
              simp only [History.drop, hg, hgone, Bool.false_eq_true, if_false, hrep, ho]
              rw [Registration.queue?_of_none hrep, Option.map_eq_some_iff] at ho
              obtain ⟨e, he, rfl⟩ := ho
              exact hs.changed (f := Registration.leaves e.outbox.waiting) hg hrep he (fun _ => rfl) (fun _ => rfl)
                (hagrees.closed hgone) rfl
          | some o' =>
              obtain rfl : o' = o := Option.some.inj ((Registration.queue?_of_replaced hrep _).symm.trans ho)
              simp only [History.drop, hg, hgone, Bool.false_eq_true, if_false, hrep, ho]
              exact hs.changed_aside (f := Registration.leaves o'.waiting) hg (fun _ => rfl) (hagrees.closed hgone)

/-- **Every call preserves what holds of all registrations.** -/
theorem Sound.call (hs : h.Sound) (c : Call) : (h.call c).Sound := by
  cases c with
  | register id peer capacity snapshot => exact hs.register id peer capacity snapshot
  | deregister id => exact hs.deregister id
  | broadcast m =>
      exact hs.offered (hs.sorted.offerAll m _) fun l => reached_broadcast hs.sorted l m
  | sendTo id m => exact hs.offered (hs.sorted.offer id m) fun l => reached_offer id l m
  | take n => exact hs.take n
  | drop n => exact hs.drop n

theorem sound_run (calls : List Call) : ∀ {h : History}, h.Sound → (h.run calls).Sound := by
  induction calls with
  | nil => exact fun hs => hs
  | cons c calls ih => exact fun hs => ih (hs.call c)

/-! ## Leaving the roster -/

theorem contains_take (r : Roster) (id l : Nat) : (r.take id).2.contains l = r.contains l := by
  unfold Roster.take
  split
  · rfl
  · split
    · rfl
    · split
      · exact contains_change id l _
      · rfl

theorem isOn_of_made {g : Registration} {n : Nat} (hg : h.made[n]? = some g) : h.isOn n = g.isOn h.roster := by
  rw [isOn, hg, Option.any_some]

/-- Whatever happens to the queue of one registration, the same are on the roster. -/
theorem isOn_modify {n : Nat} {r : Roster} (hr : ∀ l, r.contains l = h.roster.contains l)
    {f : Registration → Registration} (hid : ∀ g, (f g).id = g.id)
    (hf : ∀ g, h.made[n]? = some g → (f g).replaced.isNone = g.replaced.isNone) (i : Nat) :
    isOn ⟨r, h.made.modify n f⟩ i = h.isOn i := by
  have hsame : ∀ g : Registration, g.isOn r = g.isOn h.roster := fun g => by
    rw [Registration.isOn, hr, Registration.isOn]
  simp only [isOn, List.getElem?_modify]
  cases hg : h.made[i]? with
  | none => rfl
  | some g =>
      by_cases hin : n = i
      · subst hin
        simp only [if_true, Option.map_eq_map, Option.map_some, Option.any_some]
        rw [hsame, Registration.isOn, hid, hf g hg, Registration.isOn]
      · simp only [hin, if_false, Option.map_eq_map, Option.map_id_fun', id_eq, Option.any_some]
        exact hsame g

theorem isOn_take (n i : Nat) : (h.take n).isOn i = h.isOn i := by
  unfold History.take
  split
  · rfl
  · rename_i g hg
    split
    · have hcontains := contains_take h.roster g.id
      split
      · rename_i m r htake
        rw [htake] at hcontains
        refine isOn_modify hcontains ?_ ?_ i
        · exact fun _ => rfl
        · exact fun _ _ => rfl
      · rename_i t r _ htake
        rw [htake] at hcontains
        rw [isOn, isOn]
        congr 1
        funext g
        rw [Registration.isOn, hcontains, Registration.isOn]
    · rename_i o hrep
      split
      · refine isOn_modify ?_ ?_ (fun g' hg' => ?_) i
        · exact fun _ => rfl
        · exact fun _ => rfl
        · rw [Option.some.inj (hg'.symm.trans hg), hrep]
          rfl
      · rfl

theorem isOn_drop (n i : Nat) : (h.drop n).isOn i = h.isOn i := by
  unfold History.drop
  split
  · rfl
  · rename_i g hg
    split
    · rfl
    · dsimp only
      split
      · refine isOn_modify (fun l => contains_change g.id l _) ?_ ?_ i
        · exact fun _ => rfl
        · exact fun _ _ => rfl
      · rename_i o hrep
        refine isOn_modify ?_ ?_ (fun g' hg' => ?_) i
        · exact fun _ => rfl
        · exact fun _ => rfl
        · rw [Option.some.inj (hg'.symm.trans hg), hrep]
          rfl

/-- A message that is offered takes an entry off the roster only if its reader is gone. -/
theorem Sound.gone_of_offered (hs : h.Sound) {n : Nat} {g : Registration} (hg : h.made[n]? = some g)
    (hon : g.isOn h.roster = true) {ids : List Nat} {m : Message} {r : Roster} (hreach : Reached m ids g.id h.roster r)
    (hoff : isOn ⟨r, h.made.map (·.hears h.roster ids m)⟩ n = false) : g.id ∈ ids ∧ g.readerGone = true := by
  obtain ⟨hrep, hthere⟩ := Registration.isOn_iff.mp hon
  obtain ⟨o, ho, hagrees⟩ := hs.agrees n g hg
  have hafter : (h.made.map (·.hears h.roster ids m))[n]? = some (g.hears h.roster ids m) := by
    rw [List.getElem?_map, hg, Option.map_some]
  rw [isOn, hafter, Option.any_some, Registration.isOn, Registration.hears_replaced, Registration.hears_id, hrep,
    hreach.contains, hthere] at hoff
  have hstale : g.id ∈ ids ∧ h.roster.stale g.id = true := by simpa using hoff
  refine ⟨hstale.1, ?_⟩
  rw [stale, Option.any_eq_true] at hstale
  obtain ⟨-, e, he, hclosed⟩ := hstale
  rw [Registration.queue?_of_none hrep, find?_of_get? he, Option.map_some, Option.some.injEq] at ho
  rw [← ho] at hagrees
  simpa [hagrees.isOpen] using hclosed

/-- **An entry leaves the roster only with its id, to another of its id, or once its reader is gone.** -/
theorem Sound.left_by (hs : h.Sound) {n : Nat} {g : Registration} (hg : h.made[n]? = some g)
    (hon : g.isOn h.roster = true) {c : Call} (hoff : (h.call c).isOn n = false) :
    c = .deregister g.id ∨ (∃ peer capacity snapshot, c = .register g.id peer capacity snapshot)
      ∨ (g.readerGone = true ∧ ∃ m, c = .broadcast m ∨ c = .sendTo g.id m) := by
  have hstays : ∀ {h' : History}, h'.made[n]? = some g → h'.isOn n = false → g.isOn h'.roster = true → False := by
    intro h' hg' hoff' hon'
    rw [isOn_of_made hg', hon'] at hoff'
    exact absurd hoff' (by decide)
  obtain ⟨hrep, hthere⟩ := Registration.isOn_iff.mp hon
  cases c with
  | register id peer capacity snapshot =>
      by_cases hid : g.id = id
      · exact .inr (.inl ⟨peer, capacity, snapshot, by rw [hid]⟩)
      · have hlen := (List.getElem?_eq_some_iff.mp hg).1
        have hkept : g.givesWay h.roster id = g := if_neg hid
        have hsame : (h.call (.register id peer capacity snapshot)).made[n]? = some g := by
          simp only [History.call, List.getElem?_append, List.length_map, hlen, if_true, List.getElem?_map, hg,
            Option.map_some, hkept]
        have hcontains := (contains_register_of_ne hid (.fresh peer capacity snapshot)).trans hthere
        exact (hstays hsame hoff (Registration.isOn_iff.mpr ⟨hrep, hcontains⟩)).elim
  | deregister id =>
      by_cases hid : g.id = id
      · exact .inl (by rw [hid])
      · have hcontains := (contains_deregister_of_ne hid).trans hthere
        have hsame : (h.call (.deregister id)).made[n]? = some g := hg
        exact (hstays hsame hoff (Registration.isOn_iff.mpr ⟨hrep, hcontains⟩)).elim
  | broadcast m =>
      have hgone := hs.gone_of_offered hg hon (reached_broadcast hs.sorted g.id m) hoff
      exact .inr (.inr ⟨hgone.2, m, .inl rfl⟩)
  | sendTo id m =>
      have hgone := hs.gone_of_offered hg hon (reached_offer id g.id m) hoff
      exact .inr (.inr ⟨hgone.2, m, .inr (by rw [List.mem_singleton.mp hgone.1])⟩)
  | take i =>
      rw [History.call, isOn_take, isOn_of_made hg, hon] at hoff
      exact absurd hoff (by decide)
  | drop i =>
      rw [History.call, isOn_drop, isOn_of_made hg, hon] at hoff
      exact absurd hoff (by decide)

/--
**Queues lose, duplicate and reorder nothing.**

After any calls, for each registration: what its reader has taken, followed by what still waits for it, is what was
offered to it while it was registered, in order, less just what met a queue with as many messages as it holds or came
after its reader was gone; what waited when the reader went counts as what it left. No more wait than the queue holds.
And the next call, whatever it is, takes the entry off the roster only if it deregisters its id, registers its id
again, or offers it a message when its reader is gone: a full queue that is read stays.
-/
theorem queues_exact (calls : List Call) {n : Nat} {g : Registration} (hg : (empty.run calls).made[n]? = some g) :
    ∃ o, g.queue? (empty.run calls).roster = some o
      ∧ g.taken ++ (if g.readerGone then g.left else o.waiting)
          = (g.offered.filter fun m => m.ahead < g.capacity && !m.readerGone).map (·.message)
      ∧ o.waiting.length ≤ g.capacity
      ∧ ∀ c, g.isOn (empty.run calls).roster = true → ((empty.run calls).call c).isOn n = false →
          c = .deregister g.id ∨ (∃ peer capacity snapshot, c = .register g.id peer capacity snapshot)
            ∨ (g.readerGone = true ∧ ∃ m, c = .broadcast m ∨ c = .sendTo g.id m) := by
  have hs := sound_run calls sound_empty
  obtain ⟨o, ho, hagrees⟩ := hs.agrees n g hg
  exact ⟨o, ho, hagrees.told, hagrees.bounded, fun c hon hoff => hs.left_by hg hon hoff⟩

def push (n : Nat) : Message := .notification (.difficulty n)

/-- A queue for one message: it is full once, read once, and left behind after its id was registered again. -/
def crowded : List Call :=
  [.register 1 default 1 default, .broadcast (push 1), .broadcast (push 2), .take 0, .sendTo 1 (push 3),
    .register 1 default 1 default, .broadcast (push 4), .drop 0]

/-- What became of its registration. -/
def crowdedOut : Registration where
  id := 1
  capacity := 1
  replaced := some ⟨1, [], false⟩
  offered := [⟨push 1, 0, false⟩, ⟨push 2, 1, false⟩, ⟨push 3, 0, false⟩]
  taken := [push 1]
  readerGone := true
  left := [push 3]

theorem queues_exact_crowded :
    (empty.run crowded).made[0]? = some crowdedOut ∧ crowdedOut.taken ++ crowdedOut.left = [push 1, push 3] := by
  have hg : (empty.run crowded).made[0]? = some crowdedOut := by decide
  obtain ⟨o, -, htold, -⟩ := queues_exact crowded hg
  exact ⟨hg, htold.trans (by decide)⟩

end History

end Roster
end MiningPool

import MiningPool.Proofs.Admission
import MiningPool.Proofs.Connection.Elsewhere

/-!
# The books of the pool

A connection takes up three things: a place in the roster, a seat, and one of the connections that its address may
have. `Books` says that what is taken up is just what a list of guests takes up, each with an id and an address.
Only three things change who the guests are: someone is let in and registered, someone leaves, and that is all.
Everything else keeps the books (`Keeps`), the refusal of a connection included, whatever its reason.
-/

namespace MiningPool

open Net Wire Connection

namespace Pool

/-- What is taken up in a pool is what its guests take up. -/
structure Books (p : Pool) (guests : List (Nat × Ip)) : Prop where
  ids : p.roster.ids = guests.map (·.1)
  allOpen : p.roster.AllOpen
  seats : p.seats = guests.length
  distinct : p.admission.Distinct
  counted : ∀ ip, p.admission.connectionsFrom ip
    = if p.admission.appliesTo ip then (guests.map (·.2)).count ip else 0
  limits : p.admission.limits = p.settings.policy
  capped : ∀ ip, p.admission.connectionsFrom ip ≤ p.settings.policy.maxConnectionsPerIp

/-- No guest comes or goes. -/
structure Keeps (p q : Pool) : Prop where
  guests : p.roster.SameGuests q.roster
  admission : p.admission.Keeps q.admission
  seats : q.seats = p.seats
  settings : q.settings = p.settings

variable {p q r : Pool} {guests : List (Nat × Ip)} {now : Instant} {id : Nat} {ip : Ip}

theorem Keeps.trans (h : Keeps p q) (h' : Keeps q r) : Keeps p r :=
  ⟨h.guests.trans h'.guests, h.admission.trans h'.admission, h'.seats.trans h.seats,
    h'.settings.trans h.settings⟩

theorem Books.refl (h : p.Books guests) : Keeps p p := ⟨.refl h.allOpen, .refl h.distinct, rfl, rfl⟩

/-- The same guests are in both pools. -/
theorem Books.keeps (h : p.Books guests) (hk : Keeps p q) : q.Books guests where
  ids := hk.guests.ids.trans h.ids
  allOpen := hk.guests.allOpen
  seats := hk.seats.trans h.seats
  distinct := hk.admission.distinct
  counted := by
    intro ip
    rw [hk.admission.connections, h.counted, Admission.appliesTo_congr hk.admission.limits]
  limits := by rw [hk.admission.limits, h.limits, hk.settings]
  capped := by
    intro ip
    rw [hk.admission.connections, hk.settings]
    exact h.capped ip

theorem books_fresh (settings : Settings) : Books (fresh settings) [] where
  ids := rfl
  allOpen := fun _ he => absurd he List.not_mem_nil
  seats := rfl
  distinct := Admission.distinct_fresh settings.policy
  counted := by
    intro ip
    split
    · rfl
    · rfl
  limits := rfl
  capped := fun _ => Nat.zero_le _

/-! ## What keeps the books -/

section Keeps

variable (h : p.Books guests)
include h

theorem Books.keeps_roster {roster : Roster} (hr : p.roster.SameGuests roster) :
    Keeps p { p with roster := roster } := ⟨hr, .refl h.distinct, rfl, rfl⟩

theorem Books.keeps_admission {a : Admission} (ha : p.admission.Keeps a) : Keeps p { p with admission := a } :=
  ⟨.refl h.allOpen, ha, rfl, rfl⟩

theorem Books.keeps_banPeer (now : Instant) (ip : Ip) : Keeps p (p.banPeer now ip).2 := by
  have hban := Admission.keeps_ban h.distinct now ip
  unfold banPeer
  rcases hb : p.admission.ban now ip with ⟨banned, a⟩
  rw [hb] at hban
  cases banned with
  | false => exact h.refl
  | true => exact ⟨Roster.sameGuests_killIp h.allOpen ip, hban, rfl, rfl⟩

theorem Books.keeps_tick (source : Source) : Keeps p (p.tick source).2 := by
  unfold tick
  split
  · exact h.refl
  · rw [mint]
    rcases p.ledger.mint source with ⟨made, l⟩
    cases made with
    | error e => exact ⟨.refl h.allOpen, .refl h.distinct, rfl, rfl⟩
    | ok job =>
        refine ⟨?_, .refl h.distinct, rfl, rfl⟩
        exact Roster.sameGuests_offerAll _ p.roster.ids (.nothing, p.roster) h.allOpen

theorem Books.keeps_rooms (hrooms : SameRooms q p) : Keeps p q := by
  refine ⟨?_, ?_, hrooms.seats, hrooms.settings⟩
  · rw [hrooms.roster]
    exact .refl h.allOpen
  · rw [hrooms.admission]
    exact .refl h.distinct

end Keeps

/-! ## Asking to be let in -/

/-- **Whoever is refused leaves nothing behind**, whatever the reason. -/
theorem Books.keeps_refused (h : p.Books guests) {limit : Option Nat} {why : Refusal}
    (henter : p.enter now ip limit = (.error why, q)) : Keeps p q := by
  rcases enter_no_seat henter with ⟨hno, rfl⟩ | ⟨hyes, rfl⟩
  · rcases Admission.letIn_cases h.distinct now ip with ⟨_, hkeeps⟩ | ⟨hyes, _⟩
    · exact h.keeps_admission hkeeps
    · exact absurd hyes hno
  · rcases Admission.letIn_cases h.distinct now ip with ⟨hno, _⟩ | ⟨_, hadmits⟩
    · exact absurd hyes hno
    · refine h.keeps_admission (hadmits.release fun happlies => ?_)
      rw [h.counted, happlies]
      rfl

/-- All that happens to a pool while its connections stay as they are keeps the books. -/
theorem Books.keeps_meanwhile (h : p.Books guests) (hm : Meanwhile now p q) : Keeps p q := by
  cases hm with
  | pushed l m => exact h.keeps_roster (Roster.sameGuests_offer h.allOpen l m)
  | killed l => exact h.keeps_roster (Roster.sameGuests_kill h.allOpen l)
  | banned ip => exact h.keeps_banPeer now ip
  | asked ip => exact h.keeps_admission (Admission.keeps_isBanned h.distinct now ip)
  | swept => exact h.keeps_admission (Admission.keeps_sweep h.distinct now)
  | ticked source => exact h.keeps_tick source
  | minted source => exact ⟨.refl h.allOpen, .refl h.distinct, rfl, rfl⟩
  | skipped last => exact ⟨.refl h.allOpen, .refl h.distinct, rfl, rfl⟩
  | counted what => exact ⟨.refl h.allOpen, .refl h.distinct, rfl, rfl⟩
  | refused henter => exact h.keeps_refused henter

/-! ## Coming and going -/

/-- **Whoever is let in comes last in the roster**, in no other's place. -/
theorem entries_register {limit : Option Nat} {peer : Socket} (henter : p.enter now peer.ip limit = (.ok id, q))
    (hnew : ∀ l ∈ p.roster.ids, l < id) :
    (q.register id peer).roster.entries = p.roster.entries
      ++ [(id, .fresh peer Roster.outboxCapacity ((q.session id).snapshot peer))] := by
  have hroster : q.roster = p.roster := (enter_ok henter).2.2.2
  rw [← hroster]
  rw [← hroster] at hnew
  exact Roster.entries_register q.roster id _ hnew

/-- **Whoever is let in is one more guest.** -/
theorem Books.register (h : p.Books guests) {limit : Option Nat} {peer : Socket}
    (henter : p.enter now peer.ip limit = (.ok id, q)) (hnew : ∀ l ∈ p.roster.ids, l < id) :
    (q.register id peer).Books (guests ++ [(id, peer.ip)]) := by
  obtain ⟨_, _, a, hin, hq⟩ := enter_seat henter
  have hadmits : p.admission.Admits peer.ip a := by
    rcases Admission.letIn_cases h.distinct now peer.ip with ⟨hno, _⟩ | ⟨_, hadmits⟩
    · exact absurd (congrArg Prod.fst hin) hno
    · rw [hin] at hadmits
      exact hadmits
  have hadmission : (q.register id peer).admission = a := by rw [hq]; rfl
  have hentries := entries_register henter hnew
  constructor
  case ids =>
    rw [Roster.ids, hentries, List.map_append, List.map_append, ← h.ids]
    rfl
  case allOpen =>
    intro e he
    rw [hentries] at he
    rcases List.mem_append.mp he with he | he
    · exact h.allOpen e he
    · rw [List.mem_singleton.mp he]
      rfl
  case seats =>
    have hseats : (q.register id peer).seats = p.seats + 1 := by rw [hq]; rfl
    rw [hseats, h.seats, List.length_append]
    rfl
  case distinct =>
    rw [hadmission]
    exact hadmits.distinct
  case counted =>
    intro ip
    rw [hadmission, hadmits.connections, h.counted, Admission.appliesTo_congr hadmits.limits, List.map_append,
      List.count_append, List.map_singleton, List.count_singleton]
    by_cases hip : ip = peer.ip
    · subst hip
      cases p.admission.appliesTo peer.ip with
      | true => simp
      | false => simp
    · simp [hip, Ne.symm hip]
  case limits =>
    rw [hadmission, hadmits.limits, h.limits, hq]
    rfl
  case capped =>
    intro ip
    have hsettings : (q.register id peer).settings = p.settings := by rw [hq]; rfl
    rw [hadmission, hadmits.connections, hsettings]
    split
    · rename_i hboth
      have hcap := hadmits.cap hboth.2
      rw [h.limits] at hcap
      rw [hboth.1]
      exact hcap
    · exact h.capped ip

/-- Of guests with distinct ids, those that are left when one goes. -/
theorem perm_of_leave (hdistinct : (guests.map (·.1)).Nodup) (hmem : (id, ip) ∈ guests) :
    guests.Perm ((id, ip) :: guests.filter (·.1 ≠ id)) := by
  have herase : guests.erase (id, ip) = guests.filter (·.1 ≠ id) := by
    rw [hdistinct.of_map.erase_eq_filter]
    refine List.filter_congr fun g hg => ?_
    -- no other guest has this id
    have hiff : g = (id, ip) ↔ g.1 = id :=
      ⟨fun he => congrArg Prod.fst he, fun he => List.inj_on_of_nodup_map hdistinct hg hmem he⟩
    rw [bne, beq_eq_decide, decide_eq_decide.mpr hiff, decide_not]
  rw [← herase]
  exact List.perm_cons_erase hmem

/-- **Whoever leaves gives back what it took up**, and nothing else. -/
theorem Books.leave (h : p.Books guests) (hdistinct : (guests.map (·.1)).Nodup) (hmem : (id, ip) ∈ guests) :
    (p.leave id ip).Books (guests.filter (·.1 ≠ id)) := by
  have hperm := perm_of_leave hdistinct hmem
  constructor
  case ids =>
    show (p.roster.leave id).ids = _
    rw [Roster.ids_leave, h.ids, List.filter_map]
    rfl
  case allOpen => exact Roster.allOpen_leave h.allOpen id
  case seats =>
    show p.seats - 1 = _
    rw [h.seats, hperm.length_eq, List.length_cons, Nat.add_sub_cancel]
  case distinct => exact Admission.distinct_release h.distinct ip
  case counted =>
    intro l
    show (p.admission.release ip).connectionsFrom l = _
    rw [Admission.connectionsFrom_release, h.counted, (hperm.map (·.2)).count_eq, List.map_cons, List.count_cons]
    show _ = if p.admission.appliesTo l then _ else 0
    by_cases hl : l = ip
    · subst hl
      cases p.admission.appliesTo l with
      | true => simp
      | false => simp
    · simp [hl, Ne.symm hl]
  case limits => exact h.limits
  case capped =>
    intro l
    show (p.admission.release ip).connectionsFrom l ≤ p.settings.policy.maxConnectionsPerIp
    have hle := h.capped l
    rw [Admission.connectionsFrom_release]
    split
    · omega
    · exact hle

end Pool

/-! ## The turn of a connection -/

namespace Connection

/-- What a turn may do to the books. The connection stays as open as it was and nothing is taken up or given back,
or it is over and leaves. -/
inductive Accounts (p : Pool) (c : Connection) : Pool → Connection → Prop where
  | keeps {q : Pool} {c' : Connection} (hid : c'.id = c.id) (hpeer : c'.peer = c.peer)
      (hopen : c'.isOpen = c.isOpen) (h : p.Keeps q) : Accounts p c q c'
  | leaves {q : Pool} {c' : Connection} (hid : c'.id = c.id) (hpeer : c'.peer = c.peer)
      (hopen : c.isOpen = true) (hclosed : c'.isOpen = false) (h : p.Keeps q) :
      Accounts p c (q.leave c.id c.peer.ip) c'

variable {source : Source} {now : Instant} {p q : Pool} {c : Connection} {ds : List Deed} {t : Turn}
  {guests : List (Nat × Ip)}

theorem isOpen_of_writing {left : Bytes} {afterwards : Afterwards} (h : c.phase = .writing left afterwards) :
    c.isOpen = true := by
  rw [isOpen, h]

theorem isOpen_of_waiting (h : c.phase = .waiting) : c.isOpen = true := by
  rw [isOpen, h]

theorem keeps_of_eq {verdict : Verdict} {a b : Admission} {answer : Verdict × Admission}
    (h : answer = (verdict, b)) (hk : a.Keeps answer.2) : a.Keeps b := by
  rw [h] at hk
  exact hk

/-- A connection that bans its own address keeps the books until it leaves. -/
theorem accounts_banPeer (hb : p.Books guests) (hk : p.Keeps q) (hopen : c.isOpen = true) (c' : Connection)
    (hid : c'.id = c.id) (hpeer : c'.peer = c.peer) :
    Accounts p c (c'.banPeer now q).pool (c'.banPeer now q).connection := by
  have hban := (hb.keeps hk).keeps_banPeer now c'.peer.ip
  have hleave : (c'.banPeer now q).pool = (q.banPeer now c'.peer.ip).2.leave c.id c.peer.ip := by
    rw [← hid, ← hpeer]
    rfl
  rw [hleave]
  exact .leaves hid hpeer hopen rfl (hk.trans hban)

/-- **A turn keeps the books, or the connection leaves and gives back what it took up.** -/
theorem accounts_turn (h : Takes source now p c ds t) (hb : p.Books guests) :
    Accounts p c (t.pool p) t.connection := by
  cases h with
  | stays hp => exact .keeps rfl rfl rfl hb.refl
  | broken hp hg => exact .leaves rfl rfl (isOpen_of_writing hp) rfl hb.refl
  | writes hp hg hw hr => exact .keeps rfl rfl (isOpen_of_writing hp).symm hb.refl
  | wrote hp hg hw => exact .keeps rfl rfl (isOpen_of_writing hp).symm hb.refl
  | @reports left accepted client a hp hg hw hv =>
      have hkeeps : p.admission.Keeps a := keeps_of_eq hv (Admission.keeps_recordShare hb.distinct _ _)
      exact .keeps rfl rfl (isOpen_of_writing hp).symm (hb.keeps_admission hkeeps)
  | @condemned left accepted client a hp hg hw hv =>
      have hkeeps : p.admission.Keeps a := keeps_of_eq hv (Admission.keeps_recordShare hb.distinct _ _)
      exact accounts_banPeer hb (hb.keeps_admission hkeeps) (isOpen_of_writing hp) _ rfl rfl
  | stops hp hs => exact .leaves rfl rfl (isOpen_of_waiting hp) rfl hb.refl
  | yields hp hs hk => exact .leaves rfl rfl (isOpen_of_waiting hp) rfl hb.refl
  | @forwards m q ha hm =>
      refine .keeps rfl rfl (isOpen_of_waiting ha.phase).symm (hb.keeps_roster ?_)
      have htake := Roster.sameGuests_take hb.allOpen c.id
      rw [hm] at htake
      exact htake
  | @serves r f o hl hn ho =>
      refine .keeps rfl rfl (isOpen_of_waiting hl.phase).symm ?_
      have hanswer := hb.keeps_rooms (Pool.sameRooms_answer source p c.session r)
      rw [ho] at hanswer
      exact hanswer.trans ((hb.keeps hanswer).keeps_roster
        (Roster.sameGuests_change (hb.keeps hanswer).allOpen c.id fun _ he => he))
  | @refuses limit f a hl hn hv =>
      have hkeeps : p.admission.Keeps a := keeps_of_eq hv (Admission.keeps_recordMalformed hb.distinct _)
      exact .keeps rfl rfl (isOpen_of_waiting hl.phase).symm ⟨.refl hb.allOpen, hkeeps, rfl, rfl⟩
  | @drops fault f a hl hn hf hv =>
      have hkeeps : p.admission.Keeps a := keeps_of_eq hv (Admission.keeps_recordMalformed hb.distinct _)
      exact .keeps rfl rfl rfl ⟨.refl hb.allOpen, hkeeps, rfl, rfl⟩
  | @bans fault f a hl hn hv =>
      have hkeeps : p.admission.Keeps a := keeps_of_eq hv (Admission.keeps_recordMalformed hb.distinct _)
      have hnoted : p.Keeps { p.count .malformedLine with admission := a } :=
        ⟨.refl hb.allOpen, hkeeps, rfl, rfl⟩
      exact accounts_banPeer hb hnoted (isOpen_of_waiting hl.phase) _ rfl rfl
  | hangsUp hl hn he => exact .leaves rfl rfl (isOpen_of_waiting hl.phase) rfl hb.refl
  | idles hl hn he hd => exact .leaves rfl rfl (isOpen_of_waiting hl.phase) rfl hb.refl
  | waits hl hn he hd => exact .keeps rfl rfl rfl hb.refl

end Connection
end MiningPool

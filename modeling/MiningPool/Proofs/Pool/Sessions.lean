import MiningPool.Proofs.Pool.Answer

/-!
# What commands make of a session

A session only moves forward. What commands make of it is told by `After`: its id, its part of the nonce space and its
difficulty stay, that it has subscribed or logged in is never taken back, what it runs and who it works for are as the
last command said that says it, and the shares it has counted only grow, by one for each that is submitted. Commands of
no other kind change it, nor do requests that are none (`after_answer`).

Since what a subscription is answered depends on the part that stays, all subscriptions of a session get the same
answer, its `welcome`.
-/

namespace MiningPool

open Json Wire

/-! ## What commands say -/

namespace Command

/-- The software that a subscription names. -/
def software? : Command → Option String
  | .subscribe software => software
  | _ => none

/-- Address and worker of a login. -/
def login? : Command → Option (String × String)
  | .authorize _ address worker => some (address, worker)
  | _ => none

def isSubscribe : Command → Bool
  | .subscribe _ => true
  | _ => false

def isLogin : Command → Bool
  | .authorize .. => true
  | _ => false

def isSubmit : Command → Bool
  | .submit _ => true
  | _ => false

/-- The command of a request, if it is one. -/
def ofRequest? (r : Request) : Option Command := (ofRequest r).toOption

end Command

namespace Session

/-- What some commands, one after the other, have made of a session. -/
structure After (cs : List Command) (s s' : Session) : Prop where
  id : s'.id = s.id
  extranonce1 : s'.extranonce1 = s.extranonce1
  extranonce2Size : s'.extranonce2Size = s.extranonce2Size
  difficulty : s'.difficulty = s.difficulty
  subscribed : s'.subscribed = (s.subscribed || cs.any Command.isSubscribe)
  authorized : s'.authorized = (s.authorized || cs.any Command.isLogin)
  /-- What the last subscription said that said anything. -/
  software : s'.software = ((cs.filterMap Command.software?).getLast? <|> s.software)
  /-- What the last login said. -/
  login : (s'.address, s'.worker) = ((cs.filterMap Command.login?).getLast?).getD (s.address, s.worker)
  valid_le : s.validShares ≤ s'.validShares
  invalid_le : s.invalidShares ≤ s'.invalidShares
  shares : s'.validShares + s'.invalidShares = s.validShares + s.invalidShares + cs.countP Command.isSubmit

theorem After.refl (s : Session) : After [] s s where
  id := rfl
  extranonce1 := rfl
  extranonce2Size := rfl
  difficulty := rfl
  subscribed := (Bool.or_false _).symm
  authorized := (Bool.or_false _).symm
  software := rfl
  login := rfl
  valid_le := Nat.le_refl _
  invalid_le := Nat.le_refl _
  shares := rfl

theorem After.trans {cs ds : List Command} {s s' s'' : Session} (h : After cs s s') (h' : After ds s' s'') :
    After (cs ++ ds) s s'' where
  id := h'.id.trans h.id
  extranonce1 := h'.extranonce1.trans h.extranonce1
  extranonce2Size := h'.extranonce2Size.trans h.extranonce2Size
  difficulty := h'.difficulty.trans h.difficulty
  subscribed := by rw [h'.subscribed, h.subscribed, List.any_append, Bool.or_assoc]
  authorized := by rw [h'.authorized, h.authorized, List.any_append, Bool.or_assoc]
  software := by
    rw [h'.software, h.software, List.filterMap_append, List.getLast?_append]
    cases (ds.filterMap Command.software?).getLast? <;> rfl
  login := by
    rw [h'.login, h.login, List.filterMap_append, List.getLast?_append]
    cases (ds.filterMap Command.login?).getLast? <;> rfl
  valid_le := Nat.le_trans h.valid_le h'.valid_le
  invalid_le := Nat.le_trans h.invalid_le h'.invalid_le
  shares := by rw [h'.shares, h.shares, List.countP_append, Nat.add_assoc]

theorem after_recordShare (s : Session) (x : Submission) (accepted : Bool) :
    After [.submit x] s (s.recordShare accepted) := by
  cases accepted with
  | true => exact { After.refl s with valid_le := Nat.le_succ _, shares := Nat.add_right_comm _ _ _ }
  | false => exact { After.refl s with invalid_le := Nat.le_succ _, shares := (Nat.add_assoc _ _ _).symm }

/-- What a session is told when it subscribes. -/
def welcome (s : Session) : Reply where
  result := .array [
    .array [
      .array [.string Method.notify, .string (toString s.id)],
      .array [.string Method.setDifficulty, .string (toString s.id)]],
    .string s.extranonce1,
    .ofNat s.extranonce2Size]
  pushes := [.difficulty s.difficulty]

/-- **What a session is told when it subscribes never changes.** -/
theorem After.welcome {cs : List Command} {s s' : Session} (h : After cs s s') : s'.welcome = s.welcome := by
  rw [Session.welcome, Session.welcome, h.id, h.extranonce1, h.extranonce2Size, h.difficulty]

end Session

namespace Pool

variable {p : Pool} {s : Session}

/-- **A request makes of its session what its command says**, whatever the work source does. -/
theorem after_answer (source : Source) (hdifficulty : p.ledger.difficulty = s.difficulty) (r : Request) :
    Session.After (Command.ofRequest? r).toList s (p.answer source s r).session := by
  cases hc : Command.ofRequest r with
  | error fault =>
      rw [answer_error source p s hc, Command.ofRequest?, hc]
      exact .refl s
  | ok c =>
      rw [answer_ok source p s hc, Command.ofRequest?, hc]
      show Session.After [c] s _
      cases c with
      | subscribe software =>
          exact { Session.After.refl s with
            difficulty := hdifficulty
            subscribed := (Bool.or_true _).symm
            software := by cases software <;> rfl }
      | authorize username address worker =>
          exact { Session.After.refl s with authorized := (Bool.or_true _).symm, login := rfl }
      | submit x =>
          obtain ⟨accepted, hsession, _⟩ := submit_counted source (p.count (.request Method.submit)) s x
          rw [show (p.route source s (.submit x)).session = s.recordShare accepted from hsession]
          exact Session.after_recordShare s x accepted
      | _ => exact { Session.After.refl s with }

/-- A subscription is answered with the session's welcome. -/
theorem answer_subscribe (source : Source) (hdifficulty : p.ledger.difficulty = s.difficulty) {r : Request}
    {software : Option String} (h : Command.ofRequest r = .ok (.subscribe software)) :
    (p.answer source s r).reply = .ok s.welcome := by
  rw [answer_ok source p s h, Session.welcome, ← hdifficulty]
  rfl

end Pool
end MiningPool

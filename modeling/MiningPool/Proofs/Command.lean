import MiningPool.Command

/-!
# What a request asks for

Reading a request as a command is a matter of its method and, for the three methods that read their parameters, of the
places in the list. Everything it can come to is told by places here, and not by the shape of the list: where each part
of a share stands, counted from the front or from the back (`Submission.Placed`), and what is wrong with a list that
gives no command.
-/

namespace MiningPool

open Json Wire

namespace Command

/-- The methods that are known. -/
def known : List String :=
  [Method.subscribe, Method.authorize, Method.submit, Method.ping, Method.extranonceSubscribe]

/-- Those of them that read their parameters. -/
def readers : List String := [Method.subscribe, Method.authorize, Method.submit]

variable {r : Request} {ps : List Value}

/-! ## Parameters -/

/-- **A parameter stands for a text**: a string for itself, anything else for its JSON. -/
theorem paramText_eq_iff {v : Value} {t : String} :
    paramText v = t ↔ v = .string t ∨ (v.text? = none ∧ t = v.render) := by
  cases v with
  | string s => simp [paramText, Value.text?]
  | null | bool _ | number _ | array _ | object _ => simp [paramText, Value.text?, eq_comm]

/-- What is no list is called by its kind. -/
theorem params_of_ne {v : Value} (h : ∀ ps, v ≠ .array ps) :
    params v = .error (.badParams ("params must be an array, got " ++ kindName v)) := by
  cases v with
  | array ps => exact absurd rfl (h ps)
  | null | bool _ | number _ | string _ | object _ => rfl

theorem list_or_not (v : Value) : (∃ ps, v = .array ps) ∨ ∀ ps, v ≠ .array ps := by
  cases v with
  | array ps => exact .inl ⟨ps, rfl⟩
  | null | bool _ | number _ | string _ | object _ => exact .inr fun _ => Value.noConfusion

/-! ## Logins -/

/-- The text in the first place. -/
theorem first_text {s : String} : ps.head?.bind Value.text? = some s ↔ ps[0]? = some (.string s) := by
  have htext : ∀ v : Value, v.text? = some s ↔ v = .string s := fun v => by cases v <;> simp [Value.text?]
  rw [List.head?_eq_getElem?, Option.bind_eq_some_iff]
  constructor
  · rintro ⟨v, hv, hs⟩
    rw [hv, (htext v).mp hs]
  · exact fun h => ⟨_, h, rfl⟩

theorem ofAuthorize_of_first {login : String} (h : ps[0]? = some (.string login)) :
    ofAuthorize ps = .ok (.authorize login (splitLogin login).1 (splitLogin login).2) := by
  rw [ofAuthorize, first_text.mpr h]

theorem ofAuthorize_of_none (h : ∀ login, ps[0]? ≠ some (.string login)) :
    ofAuthorize ps = .error (.badParams Method.authorize) := by
  have hnone : ps.head?.bind Value.text? = none :=
    Option.eq_none_iff_forall_ne_some.mpr fun login hlogin => h login (first_text.mp hlogin)
  rw [ofAuthorize, hnone]

end Command

/-! ## Shares -/

open Command in
/-- The parts of a share stand at their places: the nonce is the last parameter, and if there are more than four, the
fourth is a time. -/
structure Submission.Placed (ps : List Value) (x : Submission) : Prop where
  enough : 4 ≤ ps.length
  worker : ps[0]?.map paramText = some x.worker
  jobId : ps[1]?.map paramText = some x.jobId
  extranonce2 : ps[2]?.map paramText = some x.extranonce2
  nonce : ps[ps.length - 1]?.map paramText = some x.nonce
  ntime : x.ntime = if 4 < ps.length then ps[3]?.map paramText else none

/-- Places leave no choice. -/
theorem Submission.Placed.unique {ps : List Value} {x y : Submission} (hx : x.Placed ps) (hy : y.Placed ps) :
    x = y := by
  obtain ⟨worker, jobId, extranonce2, ntime, nonce⟩ := x
  obtain ⟨worker', jobId', extranonce2', ntime', nonce'⟩ := y
  have hworker := Option.some.inj (hx.worker.symm.trans hy.worker)
  have hjob := Option.some.inj (hx.jobId.symm.trans hy.jobId)
  have hextranonce2 := Option.some.inj (hx.extranonce2.symm.trans hy.extranonce2)
  have hntime := hx.ntime.trans hy.ntime.symm
  have hnonce := Option.some.inj (hx.nonce.symm.trans hy.nonce)
  rw [Submission.mk.injEq]
  exact ⟨hworker, hjob, hextranonce2, hntime, hnonce⟩

namespace Command

variable {r : Request} {ps : List Value}

/-- Four parameters or more are a share, with each part at its place. -/
theorem exists_placed (h : 4 ≤ ps.length) : ∃ x, ofSubmit ps = .ok (.submit x) ∧ x.Placed ps := by
  obtain ⟨worker, job, extranonce2, fourth, rest, rfl⟩ :
      ∃ worker job extranonce2 fourth rest, ps = worker :: job :: extranonce2 :: fourth :: rest := by
    match ps, h with
    | worker :: job :: extranonce2 :: fourth :: rest, _ => exact ⟨worker, job, extranonce2, fourth, rest, rfl⟩
  have hlast : (fourth :: rest)[rest.length]? = some (rest.getLastD fourth) := by
    rw [List.getLastD_eq_getLast?, ← List.getLast?_cons, List.getLast?_eq_getElem?]
    rfl
  refine ⟨_, rfl, h, rfl, rfl, rfl, ?_, ?_⟩
  · exact congrArg (Option.map paramText) hlast
  · cases rest with
    | nil => rfl
    | cons v rest =>
        have hlong : 4 < (worker :: job :: extranonce2 :: fourth :: v :: rest).length := by simp
        exact (if_pos hlong).symm

theorem ofSubmit_of_lt (h : ps.length < 4) : ofSubmit ps = .error (.badParams Method.submit) := by
  match ps, h with
  | [], _ | [_], _ | [_, _], _ | [_, _, _], _ => rfl

theorem ofSubmit_iff {x : Submission} : ofSubmit ps = .ok (.submit x) ↔ x.Placed ps := by
  rcases Nat.lt_or_ge ps.length 4 with hlt | hge
  · rw [ofSubmit_of_lt hlt]
    exact ⟨fun h => absurd h (by simp), fun h => absurd h.enough (Nat.not_le_of_lt hlt)⟩
  · obtain ⟨y, hread, hy⟩ := exists_placed hge
    rw [hread, Except.ok.injEq, submit.injEq]
    exact ⟨fun h => h ▸ hy, fun hx => hy.unique hx⟩

/-! ## Requests -/

theorem ofRequest_subscribe (h : r.method = Method.subscribe) : ofRequest r = (params r.params).map ofSubscribe :=
  if_pos h

theorem ofRequest_authorize (h : r.method = Method.authorize) : ofRequest r = (params r.params).bind ofAuthorize := by
  rw [ofRequest, h, if_neg (by decide), if_pos rfl]

theorem ofRequest_submit (h : r.method = Method.submit) : ofRequest r = (params r.params).bind ofSubmit := by
  rw [ofRequest, h, if_neg (by decide), if_neg (by decide), if_pos rfl]

theorem ofRequest_ping (h : r.method = Method.ping) : ofRequest r = .ok .ping := by
  rw [ofRequest, h, if_neg (by decide), if_neg (by decide), if_neg (by decide), if_pos rfl]

theorem ofRequest_extranonceSubscribe (h : r.method = Method.extranonceSubscribe) :
    ofRequest r = .ok .extranonceSubscribe := by
  rw [ofRequest, h, if_neg (by decide), if_neg (by decide), if_neg (by decide), if_neg (by decide), if_pos rfl]

/-- Parameters do not matter to a method that is not known. -/
theorem ofRequest_unknown (h : r.method ∉ known) : ofRequest r = .ok (.unknown r.method) := by
  simp only [known, List.mem_cons, List.not_mem_nil, or_false, not_or] at h
  obtain ⟨hsubscribe, hauthorize, hsubmit, hping, hextranonce⟩ := h
  rw [ofRequest, if_neg hsubscribe, if_neg hauthorize, if_neg hsubmit, if_neg hping, if_neg hextranonce]

/-- Methods that read their parameters want a list. -/
theorem ofRequest_noList (hmethod : r.method ∈ readers) (hparams : ∀ ps, r.params ≠ .array ps) :
    ofRequest r = .error (.badParams ("params must be an array, got " ++ kindName r.params)) := by
  simp only [readers, List.mem_cons, List.not_mem_nil, or_false] at hmethod
  rcases hmethod with h | h | h
  · rw [ofRequest_subscribe h, params_of_ne hparams]
    rfl
  · rw [ofRequest_authorize h, params_of_ne hparams]
    rfl
  · rw [ofRequest_submit h, params_of_ne hparams]
    rfl

/-- What a request comes to, by its method and the places of its parameters. -/
inductive ComesTo (r : Request) : Except Fault Command → Prop where
  | subscribe {ps : List Value} (hmethod : r.method = Method.subscribe) (hparams : r.params = .array ps) :
      ComesTo r (.ok (ofSubscribe ps))
  | login {ps : List Value} {login : String} (hmethod : r.method = Method.authorize) (hparams : r.params = .array ps)
      (hfirst : ps[0]? = some (.string login)) :
      ComesTo r (.ok (.authorize login (splitLogin login).1 (splitLogin login).2))
  | share {ps : List Value} {x : Submission} (hmethod : r.method = Method.submit) (hparams : r.params = .array ps)
      (hplaced : x.Placed ps) : ComesTo r (.ok (.submit x))
  | ping (hmethod : r.method = Method.ping) : ComesTo r (.ok .ping)
  | extranonceSubscribe (hmethod : r.method = Method.extranonceSubscribe) : ComesTo r (.ok .extranonceSubscribe)
  | unknown (hmethod : r.method ∉ known) : ComesTo r (.ok (.unknown r.method))
  /-- There is no list to look into. -/
  | noList (hmethod : r.method ∈ readers) (hparams : ∀ ps, r.params ≠ .array ps) :
      ComesTo r (.error (.badParams ("params must be an array, got " ++ kindName r.params)))
  | noLogin {ps : List Value} (hmethod : r.method = Method.authorize) (hparams : r.params = .array ps)
      (hfirst : ∀ login, ps[0]? ≠ some (.string login)) : ComesTo r (.error (.badParams Method.authorize))
  | tooFew {ps : List Value} (hmethod : r.method = Method.submit) (hparams : r.params = .array ps)
      (hfew : ps.length < 4) : ComesTo r (.error (.badParams Method.submit))

/-- **Every request comes to something**, and reading it finds out what. -/
theorem comesTo_ofRequest (r : Request) : ComesTo r (ofRequest r) := by
  by_cases hknown : r.method ∈ known
  · by_cases hread : r.method ∈ readers
    · rcases list_or_not r.params with ⟨ps, hparams⟩ | hparams
      · simp only [readers, List.mem_cons, List.not_mem_nil, or_false] at hread
        rcases hread with hmethod | hmethod | hmethod
        · rw [ofRequest_subscribe hmethod, hparams]
          exact .subscribe hmethod hparams
        · rw [ofRequest_authorize hmethod, hparams]
          show ComesTo r (ofAuthorize ps)
          by_cases hfirst : ∃ login, ps[0]? = some (.string login)
          · obtain ⟨login, hfirst⟩ := hfirst
            rw [ofAuthorize_of_first hfirst]
            exact .login hmethod hparams hfirst
          · have hnone : ∀ login, ps[0]? ≠ some (.string login) := fun login h => hfirst ⟨login, h⟩
            rw [ofAuthorize_of_none hnone]
            exact .noLogin hmethod hparams hnone
        · rw [ofRequest_submit hmethod, hparams]
          show ComesTo r (ofSubmit ps)
          rcases Nat.lt_or_ge ps.length 4 with hfew | hmany
          · rw [ofSubmit_of_lt hfew]
            exact .tooFew hmethod hparams hfew
          · obtain ⟨x, hx, hplaced⟩ := exists_placed hmany
            rw [hx]
            exact .share hmethod hparams hplaced
      · rw [ofRequest_noList hread hparams]
        exact .noList hread hparams
    · simp only [known, readers, List.mem_cons, List.not_mem_nil, or_false, not_or] at hknown hread
      rcases hknown with h | h | h | hmethod | hmethod
      · exact absurd h hread.1
      · exact absurd h hread.2.1
      · exact absurd h hread.2.2
      · rw [ofRequest_ping hmethod]
        exact .ping hmethod
      · rw [ofRequest_extranonceSubscribe hmethod]
        exact .extranonceSubscribe hmethod
  · rw [ofRequest_unknown hknown]
    exact .unknown hknown

/-- Nothing else is found out: a request comes to one thing. -/
theorem ofRequest_eq_iff {outcome : Except Fault Command} : ofRequest r = outcome ↔ ComesTo r outcome := by
  refine ⟨fun h => h ▸ comesTo_ofRequest r, fun h => ?_⟩
  cases h with
  | subscribe hmethod hparams => rw [ofRequest_subscribe hmethod, hparams]; rfl
  | login hmethod hparams hfirst =>
      rw [ofRequest_authorize hmethod, hparams]
      exact ofAuthorize_of_first hfirst
  | share hmethod hparams hplaced =>
      rw [ofRequest_submit hmethod, hparams]
      exact ofSubmit_iff.mpr hplaced
  | ping hmethod => exact ofRequest_ping hmethod
  | extranonceSubscribe hmethod => exact ofRequest_extranonceSubscribe hmethod
  | unknown hmethod => exact ofRequest_unknown hmethod
  | noList hmethod hparams => exact ofRequest_noList hmethod hparams
  | noLogin hmethod hparams hfirst =>
      rw [ofRequest_authorize hmethod, hparams]
      exact ofAuthorize_of_none hfirst
  | tooFew hmethod hparams hfew =>
      rw [ofRequest_submit hmethod, hparams]
      exact ofSubmit_of_lt hfew

/-- A command goes by the method that asked for it, if that is known, and by no word of the miner's otherwise. -/
theorem ComesTo.name_eq {c : Command} (h : ComesTo r (.ok c)) :
    c.name = if r.method ∈ known then r.method else "unknown" := by
  cases h with
  | subscribe hmethod | login hmethod | share hmethod | ping hmethod | extranonceSubscribe hmethod =>
      rw [hmethod]
      rfl
  | unknown hmethod => exact (if_neg hmethod).symm

/-- A time may be put before the nonce of a share, and is all that it then has besides. -/
theorem ofRequest_insert (id worker job extranonce2 time nonce : Value) :
    ∃ x, ofRequest ⟨id, Method.submit, .array [worker, job, extranonce2, nonce]⟩ = .ok (.submit x)
      ∧ x.ntime = none
      ∧ ofRequest ⟨id, Method.submit, .array [worker, job, extranonce2, time, nonce]⟩
          = .ok (.submit { x with ntime := some (paramText time) }) :=
  ⟨_, ofRequest_submit rfl, rfl, ofRequest_submit rfl⟩

/--
**Reading a request is total and exact.**

It fails for three reasons only, and says which: a method that reads its parameters has no list of them, a login is not
a text in the first place, or a share has fewer than four parameters. Of a list, subscribing takes the text in the first
place, if there is one, a login is the text in the first place, and a share is what has its parts at their places; a
parameter stands for its text or for its JSON, and a time put before the nonce changes nothing else. A method that is
not known is kept as it was written, whatever came with it, but never counted under its own name.
-/
theorem ofRequest_exact (r : Request) :
    (∀ fault, ofRequest r = .error fault ↔
      (r.method ∈ readers ∧ (∀ ps, r.params ≠ .array ps)
          ∧ fault = .badParams ("params must be an array, got " ++ kindName r.params))
        ∨ (r.method = Method.authorize ∧ (∃ ps, r.params = .array ps ∧ ∀ login, ps[0]? ≠ some (.string login))
          ∧ fault = .badParams Method.authorize)
        ∨ (r.method = Method.submit ∧ (∃ ps, r.params = .array ps ∧ ps.length < 4)
          ∧ fault = .badParams Method.submit))
      ∧ (∀ method, ofRequest r = .ok (.unknown method) ↔ r.method ∉ known ∧ method = r.method)
      ∧ (∀ software, ofRequest r = .ok (.subscribe software) ↔
          r.method = Method.subscribe ∧ ∃ ps, r.params = .array ps ∧ software = ps[0]?.bind Value.text?)
      ∧ (∀ login address worker, ofRequest r = .ok (.authorize login address worker) ↔
          r.method = Method.authorize ∧ (∃ ps, r.params = .array ps ∧ ps[0]? = some (.string login))
            ∧ (address, worker) = splitLogin login)
      ∧ (∀ x, ofRequest r = .ok (.submit x) ↔
          r.method = Method.submit ∧ ∃ ps, r.params = .array ps ∧ x.Placed ps)
      ∧ (∀ v text, paramText v = text ↔ v = .string text ∨ (v.text? = none ∧ text = v.render))
      ∧ (∀ worker job extranonce2 time nonce,
          ∃ x, ofRequest ⟨r.id, Method.submit, .array [worker, job, extranonce2, nonce]⟩ = .ok (.submit x)
            ∧ x.ntime = none
            ∧ ofRequest ⟨r.id, Method.submit, .array [worker, job, extranonce2, time, nonce]⟩
                = .ok (.submit { x with ntime := some (paramText time) }))
      ∧ ∀ c, ofRequest r = .ok c → c.name = if r.method ∈ known then r.method else "unknown" := by
  simp only [ofRequest_eq_iff]
  refine ⟨fun fault => ⟨fun h => ?_, ?_⟩, fun method => ⟨fun h => ?_, ?_⟩, fun software => ⟨fun h => ?_, ?_⟩,
    fun login address worker => ⟨fun h => ?_, ?_⟩, fun x => ⟨fun h => ?_, ?_⟩, fun v text => paramText_eq_iff,
    ?_, fun c => ComesTo.name_eq⟩
  · cases h with
    | noList hmethod hparams => exact .inl ⟨hmethod, hparams, rfl⟩
    | noLogin hmethod hparams hfirst => exact .inr (.inl ⟨hmethod, ⟨_, hparams, hfirst⟩, rfl⟩)
    | tooFew hmethod hparams hfew => exact .inr (.inr ⟨hmethod, ⟨_, hparams, hfew⟩, rfl⟩)
  · rintro (⟨hmethod, hparams, rfl⟩ | ⟨hmethod, ⟨ps, hparams, hfirst⟩, rfl⟩ | ⟨hmethod, ⟨ps, hparams, hfew⟩, rfl⟩)
    · exact .noList hmethod hparams
    · exact .noLogin hmethod hparams hfirst
    · exact .tooFew hmethod hparams hfew
  · cases h with
    | unknown hmethod => exact ⟨hmethod, rfl⟩
  · rintro ⟨hmethod, rfl⟩
    exact .unknown hmethod
  · cases h with
    | subscribe hmethod hparams => exact ⟨hmethod, _, hparams, by rw [List.head?_eq_getElem?]⟩
  · rintro ⟨hmethod, ps, hparams, rfl⟩
    rw [← List.head?_eq_getElem?]
    exact .subscribe hmethod hparams
  · cases h with
    | login hmethod hparams hfirst => exact ⟨hmethod, ⟨_, hparams, hfirst⟩, rfl⟩
  · rintro ⟨hmethod, ⟨ps, hparams, hfirst⟩, hsplit⟩
    obtain ⟨rfl, rfl⟩ := Prod.mk.inj hsplit
    exact .login hmethod hparams hfirst
  · cases h with
    | share hmethod hparams hplaced => exact ⟨hmethod, _, hparams, hplaced⟩
  · rintro ⟨hmethod, ps, hparams, hplaced⟩
    exact .share hmethod hparams hplaced
  · intro worker job extranonce2 time nonce
    obtain ⟨x, hshort, hntime, hlong⟩ := ofRequest_insert r.id worker job extranonce2 time nonce
    exact ⟨x, ofRequest_eq_iff.mp hshort, hntime, ofRequest_eq_iff.mp hlong⟩

/-- A share whose job, extranonce and nonce were not sent as texts. -/
theorem ofRequest_exact_share :
    ofRequest ⟨.null, Method.submit,
        .array [.string "a.b", .number (.whole 7), .null, .string "6530d1b7", .bool true]⟩
      = .ok (.submit ⟨"a.b", "7", "null", some "6530d1b7", "true"⟩) :=
  ((ofRequest_exact _).2.2.2.2.1 _).mpr
    ⟨rfl, _, rfl, by decide, by decide, by decide +kernel, by decide +kernel, by decide +kernel, by decide⟩

end Command
end MiningPool

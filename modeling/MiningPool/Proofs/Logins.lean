import Mathlib.Data.List.Basic
import Mathlib.Data.List.TakeWhile
import MiningPool.Proofs.Pool.Login

/-!
# Logins, split and joined again

The address that is paid is what stands before the first dot of a login. So every login is of one of two kinds: it has
no dot, or it is an address without one, the dot, and some rest (`dotless_or_joined`). What splitting makes of either
kind is all there is to know of it. In particular a login with a worker is found again from its parts, and whatever
address without a dot and worker with or without dots are joined, they are what comes out (`split_and_rejoin`).
-/

namespace MiningPool

open Json Wire

/-- An address and a worker as one login. -/
def joinLogin (address worker : String) : String := address ++ "." ++ worker

/-- Where the first dot of a login stands, or its length if there is none. -/
def firstDot (login : String) : Nat := login.toList.idxOf '.'

variable {login address worker : String}

theorem toList_joinLogin (address worker : String) :
    (joinLogin address worker).toList = address.toList ++ '.' :: worker.toList := by
  rw [joinLogin, String.toList_append, String.toList_append, List.append_assoc]
  rfl

theorem length_joinLogin (address worker : String) :
    (joinLogin address worker).length = address.length + (worker.length + 1) := by
  rw [← String.length_toList, toList_joinLogin, List.length_append, List.length_cons, String.length_toList,
    String.length_toList]

/-! ## The search for the first dot -/

/-- The search goes past all that is no dot and stops at the first one. -/
theorem span_dot {cs : List Char} (h : '.' ∉ cs) (rest : List Char) :
    (cs ++ '.' :: rest).takeWhile (· ≠ '.') = cs ∧ (cs ++ '.' :: rest).dropWhile (· ≠ '.') = '.' :: rest := by
  induction cs with
  | nil => exact ⟨rfl, rfl⟩
  | cons c cs ih =>
      have hc : decide (c ≠ '.') = true := decide_eq_true fun he => h (he ▸ List.mem_cons_self)
      obtain ⟨htake, hdrop⟩ := ih fun hm => h (List.mem_cons_of_mem c hm)
      refine ⟨?_, ?_⟩
      · simp only [List.cons_append, List.takeWhile_cons, hc, if_true, htake]
      · simp only [List.cons_append, List.dropWhile_cons, hc, if_true, hdrop]

/-- Without a dot it goes past everything. -/
theorem span_no_dot {cs : List Char} (h : '.' ∉ cs) :
    cs.takeWhile (· ≠ '.') = cs ∧ cs.dropWhile (· ≠ '.') = [] := by
  have hall : ∀ c ∈ cs, decide (c ≠ '.') = true := fun c hc => decide_eq_true fun he => h (he ▸ hc)
  exact ⟨List.takeWhile_eq_self_iff.mpr hall, List.dropWhile_eq_nil_iff.mpr hall⟩

theorem firstDot_joinLogin (h : '.' ∉ address.toList) (rest : String) :
    firstDot (joinLogin address rest) = address.length := by
  rw [firstDot, toList_joinLogin, List.idxOf_append_of_notMem h, List.idxOf_cons_self]
  exact String.length_toList

theorem firstDot_of_dotless (h : '.' ∉ login.toList) : firstDot login = login.length := by
  rw [firstDot, List.idxOf_of_notMem h]
  exact String.length_toList

/-- **A login has no dot, or it is an address without one, the dot, and some rest.** -/
theorem dotless_or_joined (login : String) :
    '.' ∉ login.toList ∨ ∃ address rest, '.' ∉ address.toList ∧ login = joinLogin address rest := by
  by_cases h : '.' ∈ login.toList
  · obtain ⟨before, after, hlogin, hbefore⟩ := List.eq_append_cons_of_mem h
    refine .inr ⟨String.ofList before, String.ofList after, ?_, ?_⟩
    · rwa [String.toList_ofList]
    · rw [← String.toList_inj, toList_joinLogin, String.toList_ofList, String.toList_ofList, hlogin]
  · exact .inl h

/-! ## What splitting makes of it -/

theorem splitLogin_of_dotless (h : '.' ∉ login.toList) : splitLogin login = (login, defaultWorker) := by
  obtain ⟨htake, hdrop⟩ := span_no_dot h
  simp only [splitLogin, htake, hdrop, String.ofList_toList]

/-- A dot at the end names no worker. -/
theorem splitLogin_join_empty (h : '.' ∉ address.toList) :
    splitLogin (joinLogin address "") = (address, defaultWorker) := by
  obtain ⟨htake, hdrop⟩ := span_dot h "".toList
  simp only [splitLogin, toList_joinLogin, htake, hdrop, String.ofList_toList]
  rfl

/-- **Whatever is joined is split again**, whether the worker has dots of its own or not. -/
theorem splitLogin_join (h : '.' ∉ address.toList) (hworker : worker ≠ "") :
    splitLogin (joinLogin address worker) = (address, worker) := by
  obtain ⟨htake, hdrop⟩ := span_dot h worker.toList
  obtain ⟨c, cs, hcs⟩ := List.exists_cons_of_ne_nil fun he => hworker (String.toList_eq_nil_iff.mp he)
  have hback : String.ofList (c :: cs) = worker := by rw [← hcs, String.ofList_toList]
  rw [hcs] at htake hdrop
  simp only [splitLogin, toList_joinLogin, hcs, htake, hdrop, hback, String.ofList_toList]

theorem defaultWorker_ne_empty : defaultWorker ≠ "" := by decide

/-- The parts of a login: an address without a dot, and a worker that is not empty. -/
theorem parts_of_splitLogin (login : String) :
    '.' ∉ (splitLogin login).1.toList ∧ (splitLogin login).2 ≠ "" := by
  rcases dotless_or_joined login with h | ⟨address, rest, h, rfl⟩
  · rw [splitLogin_of_dotless h]
    exact ⟨h, defaultWorker_ne_empty⟩
  · by_cases hrest : rest = ""
    · rw [hrest, splitLogin_join_empty h]
      exact ⟨h, defaultWorker_ne_empty⟩
    · rw [splitLogin_join h hrest]
      exact ⟨h, hrest⟩

/-- A login with something behind its first dot is its two parts joined. -/
theorem join_splitLogin (h : firstDot login + 1 < login.length) :
    joinLogin (splitLogin login).1 (splitLogin login).2 = login := by
  rcases dotless_or_joined login with hnone | ⟨address, rest, haddress, rfl⟩
  · rw [firstDot_of_dotless hnone] at h
    omega
  · rw [firstDot_joinLogin haddress, length_joinLogin] at h
    have hrest : rest ≠ "" := by
      intro he
      rw [he, String.length_empty] at h
      omega
    rw [splitLogin_join haddress hrest]

/-- Any other login is worked for under the default name, at the address before its dot. -/
theorem splitLogin_eq_default (h : login.length ≤ firstDot login + 1) :
    splitLogin login = (String.ofList (login.toList.take (firstDot login)), defaultWorker) := by
  rcases dotless_or_joined login with hnone | ⟨address, rest, haddress, rfl⟩
  · rw [splitLogin_of_dotless hnone, firstDot_of_dotless hnone, ← String.length_toList, List.take_length,
      String.ofList_toList]
  · rw [firstDot_joinLogin haddress, length_joinLogin] at h
    have hrest : rest = "" := String.length_eq_zero_iff.mp (by omega)
    rw [hrest, splitLogin_join_empty haddress, firstDot_joinLogin haddress, toList_joinLogin, ← String.length_toList,
      List.take_left, String.ofList_toList]

/-- **A session works under the parts of its login.** -/
theorem session_of_login (source : Source) (p : Pool) (s : Session) (id : Value) (login : String) (more : List Value) :
    let after := (p.answer source s ⟨id, Method.authorize, .array (.string login :: more)⟩).session
    (after.address, after.worker) = splitLogin login := by
  rw [Pool.answer, Command.ofRequest_login]
  rfl

/--
**Logins split and rejoin.**

The address of a login never has a dot, and its worker is never empty. If something stands behind the first dot, the two
joined are the login itself; otherwise the worker has the default name, and the address is all before the first dot, or
the whole login if there is none. Whatever address without a dot is joined with whatever worker, they come out again; so
the two parts of any login, joined, are split into themselves. And they are what a session works under once its miner
has logged in.
-/
theorem split_and_rejoin (login : String) :
    '.' ∉ (splitLogin login).1.toList
      ∧ (splitLogin login).2 ≠ ""
      ∧ (firstDot login + 1 < login.length → joinLogin (splitLogin login).1 (splitLogin login).2 = login)
      ∧ (login.length ≤ firstDot login + 1 →
          splitLogin login = (String.ofList (login.toList.take (firstDot login)), defaultWorker))
      ∧ (∀ address worker, '.' ∉ address.toList → worker ≠ "" →
          splitLogin (joinLogin address worker) = (address, worker))
      ∧ splitLogin (joinLogin (splitLogin login).1 (splitLogin login).2) = splitLogin login
      ∧ ∀ source (p : Pool) s id more,
          let after := (p.answer source s ⟨id, Method.authorize, .array (.string login :: more)⟩).session
          (after.address, after.worker) = splitLogin login := by
  obtain ⟨haddress, hworker⟩ := parts_of_splitLogin login
  refine ⟨haddress, hworker, join_splitLogin, splitLogin_eq_default, fun address worker h hw => splitLogin_join h hw,
    splitLogin_join haddress hworker, fun source p s id more => session_of_login source p s id login more⟩

/-- A worker with dots at both ends, and a login that ends in its first dot. -/
theorem split_and_rejoin_dots :
    splitLogin (joinLogin "wallet" ".rig..7.") = ("wallet", ".rig..7.")
      ∧ joinLogin (splitLogin "wallet..rig..7.").1 (splitLogin "wallet..rig..7.").2 = "wallet..rig..7."
      ∧ splitLogin "wallet." = (String.ofList ("wallet.".toList.take (firstDot "wallet.")), defaultWorker) := by
  obtain ⟨_, _, hwhole, _, hjoined, _⟩ := split_and_rejoin "wallet..rig..7."
  obtain ⟨_, _, _, hdefault, _⟩ := split_and_rejoin "wallet."
  exact ⟨hjoined "wallet" ".rig..7." (by decide) (by decide), hwhole (by decide), hdefault (by decide)⟩

end MiningPool

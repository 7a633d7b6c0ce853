import MiningPool.Proofs.Connection.Telling

/-!
# A connection does not go on for ever

Left alone, a connection soon has to wait: every turn that does something uses up a message that waits, or
some of what arrived, or ends a write. `effort` counts what is left, two for each message and for each unit of
weight of the framer since a write follows, and `patience` is more than that. So `turns` never stops for want
of patience.
-/

namespace MiningPool

open Net Wire

namespace Connection

variable {source : Source} {now : Instant} {p : Pool} {c : Connection} {ds : List Deed} {t : Turn}

/-- How many messages wait for a connection. -/
def backlog (p : Pool) (c : Connection) : Nat :=
  (p.roster.get? c.id).elim 0 (·.outbox.waiting.length)

/-- How many turns a connection can still take before it has to wait, at the most. -/
def effort (p : Pool) (c : Connection) : Nat :=
  match c.phase with
  | .closed _ => 0
  | .waiting => 2 * (c.backlog p + c.framer.weight) + 1
  | .writing .. => 2 * (c.backlog p + c.framer.weight) + 2

theorem effort_lt_patience (p : Pool) (c : Connection) : c.effort p < c.patience p := by
  have hpatience : c.patience p = 2 * (c.backlog p + c.framer.weight) + 3 := rfl
  rw [hpatience, effort]
  split <;> omega

/-- A connection that has something left to do. -/
theorem effort_pos (h : ∀ fault, c.phase ≠ .closed fault) : 0 < c.effort p := by
  rw [effort]
  split
  · rename_i fault hp
    exact absurd hp (h fault)
  · omega
  · omega

theorem effort_lt_of_wrote {c' : Connection} {p' : Pool} {left : Bytes} {afterwards : Afterwards}
    (hp : c.phase = .writing left afterwards) (hp' : c'.phase = .waiting)
    (hb : c'.backlog p' ≤ c.backlog p) (hf : c'.framer = c.framer) : c'.effort p' < c.effort p := by
  rw [effort, effort, hp, hp', hf]
  dsimp only
  omega

/-- A message or a line was used up. -/
theorem effort_lt_of_used {c' : Connection} {p' : Pool} (hp : c.phase = .waiting)
    (h : c'.backlog p' + c'.framer.weight < c.backlog p + c.framer.weight) :
    c'.effort p' < c.effort p := by
  have hle : c'.effort p' ≤ 2 * (c'.backlog p' + c'.framer.weight) + 2 := by
    rw [effort]
    split <;> omega
  rw [effort.eq_def p c, hp]
  dsimp only
  omega

/-! ## What a turn uses up -/

/-- What is forwarded waited before. -/
theorem backlog_turn (h : Takes source now p c ds t) :
    (forwarded ds).length + t.connection.backlog (t.pool p) ≤ c.backlog p := by
  have hid : t.connection.id = c.id := (kept_turn h).id
  rw [backlog, hid]
  cases he : (t.pool p).roster.get? c.id with
  | none =>
      cases hf : forwarded ds with
      | nil => exact Nat.zero_le _
      | cons m ms =>
          -- whoever forwards something is registered still
          obtain ⟨e, hreg⟩ := registered_of_forwarded h (by rw [hf]; exact List.cons_ne_nil m ms)
          rw [he] at hreg
          exact absurd hreg (by simp)
  | some e' =>
      obtain ⟨e, hreg, hw, _⟩ := queue_turn h he
      refine Nat.le_of_eq ?_
      rw [backlog, hreg, Option.elim_some, Option.elim_some, hw, List.length_append]

theorem weight_nextLine {item : Inbound Request} {f : Framer} (hn : c.nextLine p = (some item, f)) :
    f.weight < c.framer.weight := by
  unfold nextLine at hn
  dsimp only at hn
  split at hn
  · exact Framer.weight_lt_of_nextAtEnd hn
  · exact Framer.weight_lt_of_next hn

/-- **A turn that does something leaves less to be done.** -/
theorem effort_lt_of_acts {progress : Progress} (h : Takes source now p c ds (.acts progress)) :
    progress.connection.effort progress.pool < c.effort p := by
  have hbacklog : (forwarded ds).length + progress.connection.backlog progress.pool ≤ c.backlog p :=
    backlog_turn h
  cases h with
  | broken hp hg => exact effort_pos (by simp [hp])
  | wrote hp hg hw => exact effort_lt_of_wrote hp rfl (Nat.le_refl _) rfl
  | reports hp hg hw hv => exact effort_lt_of_wrote hp rfl (Nat.le_refl _) rfl
  | condemned hp hg hw hv => exact effort_pos (by simp [hp])
  | stops hp hs => exact effort_pos (by simp [hp])
  | yields hp hs hk => exact effort_pos (by simp [hp])
  | forwards ha hm =>
      refine effort_lt_of_used ha.phase ?_
      have hone : 1 + _ ≤ c.backlog p := hbacklog
      show _ + c.framer.weight < _
      omega
  | serves hl hn ho =>
      refine effort_lt_of_used hl.phase ?_
      have hnone : 0 + _ ≤ c.backlog p := hbacklog
      have hline := weight_nextLine hn
      dsimp only at hnone ⊢
      omega
  | refuses hl hn hv =>
      refine effort_lt_of_used hl.phase ?_
      have hnone : 0 + _ ≤ c.backlog p := hbacklog
      have hline := weight_nextLine hn
      dsimp only at hnone ⊢
      omega
  | drops hl hn hf hv =>
      refine effort_lt_of_used hl.phase ?_
      have hnone : 0 + _ ≤ c.backlog p := hbacklog
      have hline := weight_nextLine hn
      dsimp only at hnone ⊢
      omega
  | bans hl hn hv => exact effort_pos (by simp [hl.phase])
  | hangsUp hl hn he => exact effort_pos (by simp [hl.phase])
  | idles hl hn he hd => exact effort_pos (by simp [hl.phase])

/-! ## Patience -/

/-- Turns come to an end before the effort does. -/
theorem turns_of_effort_lt (source : Source) (now : Instant) :
    ∀ (n m : Nat) (p : Pool) (c : Connection) (handed : List Share), c.effort p < n → c.effort p < m →
      turns source now n p c handed = turns source now m p c handed := by
  intro n
  induction n with
  | zero => intro m p c handed hn; exact absurd hn (Nat.not_lt_zero _)
  | succ n ih =>
      intro m p c handed hn hm
      cases m with
      | zero => exact absurd hm (Nat.not_lt_zero _)
      | succ m =>
          have htakes := turn_takes source now p c
          rw [turns, turns]
          cases ht : c.turn source now p with
          | waits c' => rfl
          | acts progress =>
              rw [ht] at htakes
              have hlt := effort_lt_of_acts htakes
              exact ih m _ _ _ (by omega) (by omega)

/-- **More patience changes nothing.** -/
theorem turns_eq_run (source : Source) (now : Instant) (p : Pool) (c : Connection) {n : Nat}
    (h : c.patience p ≤ n) : c.turns source now n p [] = c.run source now p := by
  have hlt := effort_lt_patience p c
  exact turns_of_effort_lt source now n (c.patience p) p c [] (by omega) hlt

/-- After so many turns a connection has come to one with which it waits. -/
theorem waits_of_turns (source : Source) (now : Instant) : ∀ (n : Nat) (p : Pool) (c : Connection)
    (handed : List Share), c.effort p < n →
      ∃ q d ds, Takes source now q d ds (.waits (c.turns source now n p handed).1) := by
  intro n
  induction n with
  | zero => intro p c handed hn; exact absurd hn (Nat.not_lt_zero _)
  | succ n ih =>
      intro p c handed hn
      have htakes := turn_takes source now p c
      rw [turns]
      cases ht : c.turn source now p with
      | waits c' =>
          rw [ht] at htakes
          exact ⟨p, c, _, htakes⟩
      | acts progress =>
          rw [ht] at htakes
          have hlt := effort_lt_of_acts htakes
          exact ih progress.pool progress.connection _ (Nat.lt_of_lt_of_le hlt (Nat.le_of_lt_succ hn))

/-- **Whoever has had its turns has come to one with which it waits.** -/
theorem waits_of_run (source : Source) (now : Instant) (p : Pool) (c : Connection) :
    ∃ q d ds, Takes source now q d ds (.waits (c.run source now p).1) :=
  waits_of_turns source now _ p c [] (effort_lt_patience p c)

end Connection
end MiningPool

import MiningPool.CommandLine

/-!
# What the pool is started with

Settings are checked when they are read, and the standard ones pass the check too. But a port of the command line takes
its place in them afterwards, and then nobody looks whether it goes together with the rest. So the pool is started with
settings that make sense in every respect but one: its port may be the one where the counters can be read
(`PortsClash`), and that only if it came from the command line.
-/

namespace MiningPool

namespace Settings

/-! ## Settings that were checked -/

/-- The counters are to be read at the port where the pool listens. -/
def PortsClash (s : Settings) : Prop := s.metrics.enabled = true ∧ s.metrics.port = s.port

instance (s : Settings) : Decidable s.PortsClash := by
  unfold PortsClash
  infer_instance

variable {s : Settings}

/-- Settings make sense just if no flaw is there. -/
theorem sound_iff : s.Sound ↔ ∀ e ∈ s.flaws, e.1 = false := by
  rw [Sound, check]
  cases hfind : s.flaws.find? (·.1) with
  | none =>
      have hnone := List.find?_eq_none.mp hfind
      exact ⟨fun _ e he => Bool.not_eq_true _ ▸ hnone e he, fun _ => rfl⟩
  | some e =>
      refine ⟨fun h => absurd h (by simp), fun hall => ?_⟩
      have hthere := List.find?_some hfind
      exact absurd ((hall e (List.mem_of_find?_eq_some hfind)).symm.trans hthere) (by simp)

theorem sound_standard : standard.Sound := rfl

theorem sound_of_ofText {text : String} (h : ofText text = .ok s) : s.Sound := by
  unfold ofText at h
  split at h
  · simp at h
  · split at h
    · simp at h
    · rename_i hcheck
      obtain rfl := Except.ok.inj h
      exact hcheck

/-- An answer that is fine with its error put in other words was fine before. -/
theorem ok_of_mapError {ε ε' α : Type} {f : ε → ε'} {x : Except ε α} {a : α} (h : x.mapError f = .ok a) :
    x = .ok a := by
  cases x with
  | ok b => exact congrArg Except.ok (Except.ok.inj h)
  | error e =>
      have herror : (Except.error (f e) : Except ε' α) = .ok a := h
      simp at herror

theorem sound_of_ofFile {file : File} (h : ofFile file = .ok s) : s.Sound := by
  cases file with
  | missing => simp [ofFile] at h
  | directory => simp [ofFile] at h
  | contents bytes =>
      rw [ofFile] at h
      cases hdecode : Utf8.decode? bytes with
      | none => rw [hdecode] at h; simp at h
      | some cs =>
          rw [hdecode] at h
          exact sound_of_ofText (ok_of_mapError h)

/-! ## Another port -/

/-- Of an exporter that has a port, only whether it is another one can be wrong. -/
theorem Exporter.find?_flaws (e : Exporter) (hport : e.enabled = true → (e.port == 0) = false) (n : Nat) :
    (e.flaws n).find? (·.1) = if e.enabled = true ∧ e.port = n then some (true, .samePort) else none := by
  unfold Exporter.flaws
  by_cases henabled : e.enabled = true
  · rw [if_pos henabled, List.find?_cons_of_neg (by simp [hport henabled])]
    by_cases hclash : e.port = n
    · rw [List.find?_cons_of_pos (by simpa using hclash), if_pos ⟨henabled, hclash⟩, beq_iff_eq.mpr hclash]
    · rw [List.find?_cons_of_neg (by simpa using hclash), if_neg fun h => hclash h.2]
      rfl
  · rw [if_neg henabled, if_neg fun h => henabled h.1]
    rfl

/-- **Of settings that make sense only the clash of ports is wrong after the port is replaced.** -/
theorem check_port (h : s.Sound) {n : Nat} (hn : 0 < n) :
    check { s with port := n } = if PortsClash { s with port := n } then .error .samePort else .ok () := by
  have hall := sound_iff.mp h
  simp only [flaws, List.mem_append] at hall
  -- all other flaws are looked for as before, and none of them is there
  have hothers : ([(n == 0, Flaw.noPort), (Text.isAllBlank s.host, .noHost), (s.maxClients == 0, .noClients)]
      ++ s.mining.flaws).find? (·.1) = none := by
    refine List.find?_eq_none.mpr fun e he => Bool.not_eq_true _ ▸ ?_
    rcases List.mem_append.mp he with he | he
    · rcases List.mem_cons.mp he with rfl | he
      · exact beq_eq_false_iff_ne.mpr (Nat.ne_of_gt hn)
      · exact hall e (Or.inl (Or.inl (Or.inl (List.mem_cons_of_mem _ he))))
    · exact hall e (Or.inl (Or.inl (Or.inr he)))
  have hlimits : s.policy.flaws.find? (·.1) = none :=
    List.find?_eq_none.mpr fun e he => Bool.not_eq_true _ ▸ hall e (Or.inr he)
  have hexporter : (s.metrics.flaws n).find? (·.1)
      = if s.metrics.enabled = true ∧ s.metrics.port = n then some (true, .samePort) else none := by
    refine s.metrics.find?_flaws (fun henabled => ?_) n
    exact hall (s.metrics.port == 0, .noExporterPort) (Or.inl (Or.inr (by simp [Exporter.flaws, henabled])))
  rw [check, flaws]
  dsimp only
  rw [List.find?_append, List.find?_append, hothers, hlimits, hexporter]
  by_cases hclash : s.metrics.enabled = true ∧ s.metrics.port = n
  · rw [if_pos hclash, if_pos (show PortsClash { s with port := n } from hclash)]
    rfl
  · rw [if_neg hclash, if_neg (show ¬ PortsClash { s with port := n } from hclash)]
    rfl

end Settings

namespace CommandLine

open Settings

variable {args : List String} {files : String → File} {s s' : Settings}

/-- The settings are checked before a port is looked for. -/
theorem sound_of_settings (h : settings args files = .ok s) : s.Sound := by
  have hload : ∀ {path : String} {file : File}, load path file = .ok s → s.Sound := by
    intro path file hload
    rw [load] at hload
    exact sound_of_ofFile (ok_of_mapError hload)
  unfold settings at h
  split at h
  · exact hload h
  · simp at h
  · split at h
    · obtain rfl := Except.ok.inj h
      exact sound_standard
    · exact hload h

theorem pos_of_port? {text : String} {n : Nat} (h : port? text = some n) : 0 < n := by
  rw [port?] at h
  split at h
  · split at h
    · rename_i hrange
      obtain rfl := Option.some.inj h
      exact hrange.1
    · simp at h
  · simp at h

/-- The port stays, or it is replaced by the one of the command line. -/
theorem withPort_cases (h : withPort args s = .ok s') :
    (option? "--port" args = none ∧ s' = s)
      ∨ ∃ text n, option? "--port" args = some (some text) ∧ port? text = some n ∧ s' = { s with port := n } := by
  unfold withPort at h
  split at h
  · rename_i hnone
    exact Or.inl ⟨hnone, (Except.ok.inj h).symm⟩
  · simp at h
  · rename_i text htext
    split at h
    · rename_i n hn
      exact Or.inr ⟨text, n, htext, hn, (Except.ok.inj h).symm⟩
    · simp at h

theorem cases_of_serve (h : action args files = .serve s) :
    ∃ s₀, settings args files = .ok s₀ ∧ withPort args s₀ = .ok s := by
  unfold action at h
  split at h
  · simp at h
  · cases hsettings : settings args files with
    | error why => rw [hsettings] at h; simp [Except.bind] at h
    | ok s₀ =>
        rw [hsettings] at h
        cases hport : withPort args s₀ with
        | error why => simp [Except.bind, hport] at h
        | ok s' =>
            simp only [Except.bind, hport, Action.serve.injEq] at h
            exact ⟨s₀, rfl, h ▸ hport⟩

/-- **The pool is started with settings that make sense, unless its port is that of the counters.** This is the only
flaw they can have, and they have it only if the port was given on the command line. -/
theorem served_settings (h : action args files = .serve s) :
    (s.Sound ↔ ¬ s.PortsClash)
      ∧ (s.PortsClash → s.check = .error .samePort
        ∧ ∃ text, option? "--port" args = some (some text) ∧ port? text = some s.port) := by
  obtain ⟨s₀, hsettings, hwith⟩ := cases_of_serve h
  have hsound := sound_of_settings hsettings
  rcases withPort_cases hwith with ⟨_, rfl⟩ | ⟨text, n, htext, hn, rfl⟩
  · -- the port is that of the settings, which were checked with it
    have hclash : ¬ s.PortsClash := by
      rintro ⟨henabled, hport⟩
      have hflaw := sound_iff.mp hsound (s.metrics.port == s.port, .samePort) (by
        simp [flaws, Exporter.flaws, henabled])
      simp [hport] at hflaw
    exact ⟨⟨fun _ => hclash, fun _ => hsound⟩, fun hyes => absurd hyes hclash⟩
  · have hcheck := check_port hsound (pos_of_port? hn)
    by_cases hclash : PortsClash { s₀ with port := n }
    · rw [if_pos hclash] at hcheck
      refine ⟨⟨fun hsound' => ?_, fun hno => absurd hclash hno⟩, fun _ => ⟨hcheck, text, htext, hn⟩⟩
      exact absurd (hcheck.symm.trans hsound') (by simp)
    · rw [if_neg hclash] at hcheck
      exact ⟨⟨fun _ => hclash, fun _ => hcheck⟩, fun hyes => absurd hyes hclash⟩

/-- The file has the counters read at one port and the pool listen at another, and the command line names a third. -/
theorem served_settings_three_ports :
    let files (path : String) : File :=
      if path = "pool.toml" then .contents (Utf8.encodeText "port = 9200\n[metrics]\nenabled = true\n") else .missing
    let s : Settings := { Settings.standard with port := 9300, metrics := ⟨true, 9100⟩ }
    action ["--config", "pool.toml", "--port", "9300"] files = .serve s ∧ s.Sound := by
  intro files s
  have haction : action ["--config", "pool.toml", "--port", "9300"] files = .serve s := by decide +kernel
  exact ⟨haction, (served_settings haction).1.mpr (by decide)⟩

/-- The pool can be started with settings that do not make sense: the counters are to be read at the usual port, and
the command line names this port. -/
theorem served_with_one_port_for_both :
    ¬ ∀ (args : List String) (files : String → File) (s : Settings), action args files = .serve s → s.Sound := by
  intro h
  let files (path : String) : File :=
    if path = usualPath then .contents (Utf8.encodeText "[metrics]\nenabled = true\n") else .missing
  have hsound := h ["--port", "9100"] files { Settings.standard with port := 9100, metrics := ⟨true, 9100⟩ }
    (by decide +kernel)
  exact absurd hsound (by decide)

end CommandLine
end MiningPool

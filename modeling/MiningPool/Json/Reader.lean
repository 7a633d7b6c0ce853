import MiningPool.Json.Lexeme

/-!
# Reading JSON

A `Reader` takes something from the front of a run of bytes and at least one byte with it, so lists and
objects can be read in a loop that ends. There are two readers of values. `keep` builds the value as
written, down to a given nesting. `skip` only follows the brackets, with a stack of its own, so nesting
does not matter to it.
-/

namespace MiningPool.Json

/-- Takes something from the front of a run of bytes, and at least one byte with it. -/
structure Reader (α : Type) where
  read : Bytes → Option (α × Bytes)
  shrinks : ∀ {s a r}, read s = some (a, r) → r.length < s.length

namespace Reader

variable {α β : Type}

def map (f : α → β) (p : Reader α) : Reader β where
  read s := (p.read s).map fun (a, r) => (f a, r)
  shrinks h := by
    simp only [Option.map_eq_some_iff, Prod.mk.injEq, Prod.exists] at h
    obtain ⟨a, t, ht, _, rfl⟩ := h
    exact p.shrinks ht

/-- The items of an array up to its closing bracket, at least one, after those seen, last first. -/
def items (item : Reader α) (s : Bytes) (seen : List α) : Option (List α × Bytes) :=
  match _h : item.read s with
  | none => none
  | some (a, r) =>
    match _h' : skipBlanks r with
    | [] => none
    | b :: rest =>
      if b == 0x2C then items item rest (a :: seen)
      else if b == 0x5D then some ((a :: seen).reverse, rest)
      else none
termination_by s.length
decreasing_by
  have := item.shrinks _h
  have := length_skipBlanks_le r
  rw [_h'] at this
  simp only [List.length_cons] at this
  omega

/-- The rest of an array after its opening bracket. -/
def arrayBody (item : Reader α) (s : Bytes) : Option (List α × Bytes) :=
  match skipBlanks s with
  | [] => none
  | b :: rest => if b == 0x5D then some ([], rest) else items item (b :: rest) []

def key? (s : Bytes) : Option (String × Bytes) := do
  let (k, s) ← text? (skipBlanks s)
  match skipBlanks s with
  | [] => none
  | b :: rest => if b == 0x3A then some (k, rest) else none

theorem length_lt_of_key? {s : Bytes} {k : String} {r : Bytes} (h : key? s = some (k, r)) :
    r.length < s.length := by
  simp only [key?, Option.bind_eq_bind, Option.bind_eq_some_iff, Prod.exists] at h
  obtain ⟨k', t, ht, h⟩ := h
  have h₁ := length_skipBlanks_le s
  have h₂ := length_skipBlanks_le t
  have h₃ : t.length < (skipBlanks s).length := by
    cases hs : skipBlanks s with
    | nil => simp [hs, text?] at ht
    | cons b rest =>
      rw [hs] at ht
      simp only [text?] at ht
      split at ht
      · have := length_lt_of_textBody? ht
        simp only [List.length_cons]
        omega
      · simp at ht
  split at h
  · simp at h
  · rename_i b rest hb
    split at h
    · simp only [Option.some.injEq, Prod.mk.injEq] at h
      obtain ⟨_, rfl⟩ := h
      rw [hb] at h₂
      simp only [List.length_cons] at h₂
      omega
    · simp at h

/-- The fields of an object up to its closing brace, at least one, after those seen, last first. How a
field's value is read depends on its key. -/
def members (field : String → Reader α) (s : Bytes) (seen : List (String × α)) :
    Option (List (String × α) × Bytes) :=
  match _h : key? s with
  | none => none
  | some (k, r) =>
    match _h' : (field k).read r with
    | none => none
    | some (a, r) =>
      match _h'' : skipBlanks r with
      | [] => none
      | b :: rest =>
        if b == 0x2C then members field rest ((k, a) :: seen)
        else if b == 0x7D then some (((k, a) :: seen).reverse, rest)
        else none
termination_by s.length
decreasing_by
  rename_i r' _
  have := length_lt_of_key? _h
  have := (field k).shrinks _h'
  have := length_skipBlanks_le r
  rw [_h''] at this
  simp only [List.length_cons] at this
  omega

/-- The rest of an object after its opening brace. -/
def objectBody (field : String → Reader α) (s : Bytes) : Option (List (String × α) × Bytes) :=
  match skipBlanks s with
  | [] => none
  | b :: rest => if b == 0x7D then some ([], rest) else members field (b :: rest) []

theorem length_lt_of_items {item : Reader α} {s : Bytes} {seen : List α} {l : List α} {r : Bytes}
    (h : items item s seen = some (l, r)) : r.length < s.length := by
  fun_induction items item s seen with
  | case1 => simp at h
  | case2 => simp at h
  | case3 s seen a t ht b rest hb hc ih =>
    have := item.shrinks ht
    have hl := length_skipBlanks_le t
    rw [hb] at hl
    have := ih h
    simp only [List.length_cons] at hl
    omega
  | case4 s seen a t ht b rest hb hc hd =>
    have := item.shrinks ht
    have hl := length_skipBlanks_le t
    rw [hb] at hl
    simp only [Option.some.injEq, Prod.mk.injEq] at h
    obtain ⟨_, rfl⟩ := h
    simp only [List.length_cons] at hl
    omega
  | case5 => simp at h

theorem length_lt_of_members {field : String → Reader α} {s : Bytes} {seen : List (String × α)}
    {l : List (String × α)} {r : Bytes} (h : members field s seen = some (l, r)) :
    r.length < s.length := by
  fun_induction members field s seen with
  | case1 => simp at h
  | case2 => simp at h
  | case3 => simp at h
  | case4 s seen k t ht a u hu b rest hb hc ih =>
    have := length_lt_of_key? ht
    have := (field k).shrinks hu
    have hl := length_skipBlanks_le u
    rw [hb] at hl
    have := ih h
    simp only [List.length_cons] at hl
    omega
  | case5 s seen k t ht a u hu b rest hb hc hd =>
    have := length_lt_of_key? ht
    have := (field k).shrinks hu
    have hl := length_skipBlanks_le u
    rw [hb] at hl
    simp only [Option.some.injEq, Prod.mk.injEq] at h
    obtain ⟨_, rfl⟩ := h
    simp only [List.length_cons] at hl
    omega
  | case6 => simp at h

theorem length_lt_of_arrayBody {item : Reader α} {s : Bytes} {l : List α} {r : Bytes}
    (h : arrayBody item s = some (l, r)) : r.length < s.length := by
  have hl := length_skipBlanks_le s
  unfold arrayBody at h
  split at h
  · simp at h
  · rename_i b rest hb
    rw [hb] at hl
    split at h
    · simp only [Option.some.injEq, Prod.mk.injEq] at h
      obtain ⟨_, rfl⟩ := h
      simp only [List.length_cons] at hl
      omega
    · have := length_lt_of_items h
      omega

theorem length_lt_of_objectBody {field : String → Reader α} {s : Bytes} {l : List (String × α)}
    {r : Bytes} (h : objectBody field s = some (l, r)) : r.length < s.length := by
  have hl := length_skipBlanks_le s
  unfold objectBody at h
  split at h
  · simp at h
  · rename_i b rest hb
    rw [hb] at hl
    split at h
    · simp only [Option.some.injEq, Prod.mk.injEq] at h
      obtain ⟨_, rfl⟩ := h
      simp only [List.length_cons] at hl
      omega
    · have := length_lt_of_members h
      omega

end Reader

/-! ## Keeping a value -/

/-- The value in front, if it is neither an array nor an object. -/
def scalar? (s : Bytes) : Option (Value × Bytes) :=
  match s with
  | [] => none
  | b :: _ =>
    if b == 0x6E then (word? "null" s).map fun r => (.null, r)
    else if b == 0x74 then (word? "true" s).map fun r => (.bool true, r)
    else if b == 0x66 then (word? "false" s).map fun r => (.bool false, r)
    else if b == 0x22 then (text? s).map fun (t, r) => (.string t, r)
    else do
      let (p, r) ← parts? s
      let n ← p.value?
      some (.number n, r)

theorem length_lt_of_word? {w : String} {s r : Bytes} (hw : 0 < (Utf8.encodeText w).length)
    (h : word? w s = some r) : r.length < s.length := by
  simp only [word?] at h
  split at h
  · rename_i hp
    simp only [Option.some.injEq] at h
    subst h
    have := (List.isPrefixOf_iff_prefix.1 hp).length_le
    simp only [List.length_drop]
    omega
  · simp at h

theorem length_lt_of_text? {s : Bytes} {t : String} {r : Bytes} (h : text? s = some (t, r)) :
    r.length < s.length := by
  cases s with
  | nil => simp [text?] at h
  | cons b rest =>
    simp only [text?] at h
    split at h
    · have := length_lt_of_textBody? h
      simp only [List.length_cons]
      omega
    · simp at h

theorem length_lt_of_scalar? {s : Bytes} {v : Value} {r : Bytes} (h : scalar? s = some (v, r)) :
    r.length < s.length := by
  unfold scalar? at h
  split at h
  · simp at h
  · rename_i b rest
    split at h
    · simp only [Option.map_eq_some_iff, Prod.mk.injEq] at h
      obtain ⟨_, ht, _, rfl⟩ := h
      exact length_lt_of_word? (by decide) ht
    · split at h
      · simp only [Option.map_eq_some_iff, Prod.mk.injEq] at h
        obtain ⟨_, ht, _, rfl⟩ := h
        exact length_lt_of_word? (by decide) ht
      · split at h
        · simp only [Option.map_eq_some_iff, Prod.mk.injEq] at h
          obtain ⟨_, ht, _, rfl⟩ := h
          exact length_lt_of_word? (by decide) ht
        · split at h
          · simp only [Option.map_eq_some_iff, Prod.mk.injEq, Prod.exists] at h
            obtain ⟨_, _, ht, _, rfl⟩ := h
            exact length_lt_of_text? ht
          · simp only [Option.bind_eq_bind, Option.bind_eq_some_iff, Prod.exists,
              Option.some.injEq, Prod.mk.injEq] at h
            obtain ⟨_, _, ht, _, _, _, rfl⟩ := h
            exact length_lt_of_parts? ht

/-- Reads a value whose brackets' contents are read by `inner`; without it brackets are refused. -/
def keepWith (inner : Option (Reader Value)) : Reader Value where
  read s :=
    match skipBlanks s, inner with
    | b :: rest, some p =>
      if b == 0x5B then (p.arrayBody rest).map fun (l, r) => (.array l, r)
      else if b == 0x7B then (Reader.objectBody (fun _ => p) rest).map fun (l, r) => (.object l, r)
      else scalar? (b :: rest)
    | t, _ => scalar? t
  shrinks := by
    intro s a r h
    have hl := length_skipBlanks_le s
    split at h
    · rename_i b rest p hb
      rw [hb] at hl
      simp only [List.length_cons] at hl
      split at h
      · simp only [Option.map_eq_some_iff, Prod.mk.injEq, Prod.exists] at h
        obtain ⟨_, _, ht, _, rfl⟩ := h
        have := Reader.length_lt_of_arrayBody ht
        omega
      · split at h
        · simp only [Option.map_eq_some_iff, Prod.mk.injEq, Prod.exists] at h
          obtain ⟨_, _, ht, _, rfl⟩ := h
          have := Reader.length_lt_of_objectBody ht
          omega
        · have := length_lt_of_scalar? h
          simp only [List.length_cons] at this
          omega
    · have := length_lt_of_scalar? h
      omega

/-- Reads a value that nests at most `depth` deep, as written. -/
def keep : Nat → Reader Value
  | 0 => keepWith none
  | depth + 1 => keepWith (some (keep depth))

/-! ## Passing over a value -/

/-- A bracket that is still open. -/
inductive Bracket where
  | array
  | object
  deriving DecidableEq, Repr

/-- Where one passes over a value: before a value or (`ended`) behind one, within open brackets. -/
structure Passing where
  ended : Bool
  opened : List Bracket
  rest : Bytes

/-- Passes over a number, a string or a word. -/
def passScalar? (s : Bytes) : Option Bytes :=
  match s with
  | [] => none
  | b :: rest =>
    if b == 0x6E then word? "null" s
    else if b == 0x74 then word? "true" s
    else if b == 0x66 then word? "false" s
    else if b == 0x22 then passBody? rest
    else (parts? s).map (·.2)

def passKey? (s : Bytes) : Option Bytes := do
  match skipBlanks s with
  | [] => none
  | b :: rest =>
    if b == 0x22 then
      let s ← passBody? rest
      match skipBlanks s with
      | [] => none
      | b :: rest => if b == 0x3A then some rest else none
    else none

/-- Passes over one word or bracket. Behind the outermost value there is no further step. -/
def Passing.step? (p : Passing) : Option Passing :=
  match skipBlanks p.rest with
  | [] => none
  | b :: rest =>
    if p.ended then
      match p.opened with
      | [] => none
      | .array :: outer =>
        if b == 0x2C then some ⟨false, .array :: outer, rest⟩
        else if b == 0x5D then some ⟨true, outer, rest⟩
        else none
      | .object :: outer =>
        if b == 0x2C then (passKey? rest).map fun r => ⟨false, .object :: outer, r⟩
        else if b == 0x7D then some ⟨true, outer, rest⟩
        else none
    else if b == 0x5B then
      match skipBlanks rest with
      | [] => none
      | c :: rest' => if c == 0x5D then some ⟨true, p.opened, rest'⟩ else some ⟨false, .array :: p.opened, rest⟩
    else if b == 0x7B then
      match skipBlanks rest with
      | [] => none
      | c :: rest' =>
        if c == 0x7D then some ⟨true, p.opened, rest'⟩
        else (passKey? rest).map fun r => ⟨false, .object :: p.opened, r⟩
    else (passScalar? (b :: rest)).map fun r => ⟨true, p.opened, r⟩

theorem length_lt_of_passScalar? {s r : Bytes} (h : passScalar? s = some r) : r.length < s.length := by
  unfold passScalar? at h
  split at h
  · simp at h
  · split at h
    · exact length_lt_of_word? (by decide) h
    · split at h
      · exact length_lt_of_word? (by decide) h
      · split at h
        · exact length_lt_of_word? (by decide) h
        · split at h
          · have := length_lt_of_passBody? h
            simp only [List.length_cons]
            omega
          · simp only [Option.map_eq_some_iff, Prod.exists] at h
            obtain ⟨_, _, ht, rfl⟩ := h
            exact length_lt_of_parts? ht

theorem length_lt_of_passKey? {s r : Bytes} (h : passKey? s = some r) : r.length < s.length := by
  have hl := length_skipBlanks_le s
  unfold passKey? at h
  split at h
  · simp at h
  · rename_i b rest hb
    rw [hb] at hl
    simp only [List.length_cons] at hl
    split at h
    · simp only [Option.bind_eq_bind, Option.bind_eq_some_iff] at h
      obtain ⟨t, ht, h⟩ := h
      have h₁ := length_lt_of_passBody? ht
      have h₂ := length_skipBlanks_le t
      split at h
      · simp at h
      · rename_i c u hc
        rw [hc] at h₂
        simp only [List.length_cons] at h₂
        split at h
        · simp only [Option.some.injEq] at h
          subst h
          omega
        · simp at h
    · simp at h

theorem Passing.length_lt_of_step? {p q : Passing} (h : p.step? = some q) :
    q.rest.length < p.rest.length := by
  have hl := length_skipBlanks_le p.rest
  unfold step? at h
  split at h
  · simp at h
  · rename_i b rest hb
    rw [hb] at hl
    have hl' := length_skipBlanks_le rest
    simp only [List.length_cons] at hl
    repeat' split at h
    all_goals simp only [Option.some.injEq, Option.map_eq_some_iff, reduceCtorEq] at h
    all_goals first
      | (subst h; simp only; omega)
      | (subst h; simp_all only [List.length_cons]; omega)
      | (obtain ⟨r, hr, rfl⟩ := h
         first
          | (replace hr := length_lt_of_passKey? hr; simp only; omega)
          | (replace hr := length_lt_of_passScalar? hr; simp only [List.length_cons] at hr ⊢; omega))

/-- Passes over what is left of the outermost value. -/
def Passing.finish? (p : Passing) : Option Bytes :=
  if p.ended ∧ p.opened = [] then some p.rest
  else
    match _h : p.step? with
    | none => none
    | some q => finish? q
termination_by p.rest.length
decreasing_by exact length_lt_of_step? _h

theorem Passing.length_le_of_finish? {p : Passing} {r : Bytes} (h : p.finish? = some r) :
    r.length ≤ p.rest.length := by
  fun_induction finish? p with
  | case1 p hp =>
    simp only [Option.some.injEq] at h
    subst h
    exact Nat.le_refl _
  | case2 => simp at h
  | case3 p hp q hq ih => exact Nat.le_of_lt (Nat.lt_of_le_of_lt (ih h) (length_lt_of_step? hq))

/-- Passes over a value, however deep it nests. -/
def skip : Reader Unit where
  read s := (Passing.finish? ⟨false, [], s⟩).map fun r => ((), r)
  shrinks := by
    intro s a r h
    simp only [Option.map_eq_some_iff, Prod.mk.injEq] at h
    obtain ⟨t, ht, _, rfl⟩ := h
    rw [Passing.finish?] at ht
    simp only [Bool.false_eq_true, false_and, if_false] at ht
    split at ht
    · simp at ht
    · rename_i q hq
      exact Nat.lt_of_le_of_lt (Passing.length_le_of_finish? ht) (Passing.length_lt_of_step? hq)

/-! ## A whole line -/

/-- How deep the kept parts of a line may nest, the outermost bracket included. -/
def maxDepth : Nat := 127

/-- What was read, if only blanks follow it. -/
def atEnd {α : Type} : Option (α × Bytes) → Option α
  | some (a, r) => if (skipBlanks r).isEmpty then some a else none
  | none => none

/-- The value that fills a line, as written. -/
def Value.read? (s : Bytes) : Option Value := atEnd ((keep maxDepth).read s)

end MiningPool.Json

import MiningPool.Json.Reader
import MiningPool.Proofs.Json.Words

/-!
# Values that were written are read back

What the writer puts down for a value is read as that value, whatever stands behind it, as long as the reader may go
as deep as the value nests. Two things a reader would not give back as they were are left out (`Plain`): doubles, of
which only the shortest text is written, and fields that share a key, of which only the last counts.

A value ends where a comma or a closing bracket stands, so the induction carries `Reads`: the text is taken off
whatever stops it.
-/

namespace MiningPool.Json

open Decimal Utf8

namespace Value

/-- A value whose numbers are whole and fit 64 bits, signed or unsigned, and whose objects have each key once. -/
inductive Plain : Value → Prop where
  | null : Plain .null
  | bool (b : Bool) : Plain (.bool b)
  | number {n : Int} (hlow : -(twoTo 63 : Int) ≤ n) (hhigh : n < twoTo 64) : Plain (.number (.whole n))
  | string (s : String) : Plain (.string s)
  | array {items : List Value} (hitems : ∀ v ∈ items, Plain v) : Plain (.array items)
  | object {fields : List (String × Value)} (hkeys : (fields.map (·.1)).Nodup) (hfields : ∀ f ∈ fields, Plain f.2) :
      Plain (.object fields)

mutual

/-- How deep the brackets of a value nest. -/
def depth : Value → Nat
  | .array items => depthItems items + 1
  | .object fields => depthFields fields + 1
  | _ => 0

def depthItems : List Value → Nat
  | [] => 0
  | v :: vs => max v.depth (depthItems vs)

def depthFields : List (String × Value) → Nat
  | [] => 0
  | (_, v) :: fs => max v.depth (depthFields fs)

end

theorem depth_le_depthItems {v : Value} {vs : List Value} (h : v ∈ vs) : v.depth ≤ depthItems vs := by
  induction vs with
  | nil => exact absurd h List.not_mem_nil
  | cons w vs ih =>
      rw [depthItems]
      rcases List.mem_cons.mp h with rfl | h
      · exact Nat.le_max_left _ _
      · exact Nat.le_trans (ih h) (Nat.le_max_right _ _)

theorem depth_le_depthFields {f : String × Value} {fs : List (String × Value)} (h : f ∈ fs) :
    f.2.depth ≤ depthFields fs := by
  induction fs with
  | nil => exact absurd h List.not_mem_nil
  | cons g fs ih =>
      obtain ⟨k, w⟩ := g
      rw [depthFields]
      rcases List.mem_cons.mp h with rfl | h
      · exact Nat.le_max_left _ _
      · exact Nat.le_trans (ih h) (Nat.le_max_right _ _)

/-! ## Nothing is settled -/

theorem setField_of_not_mem {k : String} {done : List (String × Value)} (h : k ∉ done.map (·.1)) (v : Value) :
    setField k v done = done ++ [(k, v)] := by
  induction done with
  | nil => rfl
  | cons f done ih =>
      rw [List.map_cons, List.mem_cons, not_or] at h
      rw [setField, if_neg (Ne.symm h.1), ih h.2, List.cons_append]

theorem settledFields_of_nodup {fs : List (String × Value)} (hsettled : ∀ f ∈ fs, f.2.settled = f.2)
    (done : List (String × Value)) (hkeys : ((done ++ fs).map (·.1)).Nodup) :
    settledFields fs done = done ++ fs := by
  induction fs generalizing done with
  | nil => rw [settledFields, List.append_nil]
  | cons f fs ih =>
      obtain ⟨k, v⟩ := f
      have hv : v.settled = v := hsettled (k, v) List.mem_cons_self
      have hnew : k ∉ done.map (·.1) := by
        rw [List.map_append, List.nodup_append] at hkeys
        exact fun hk => hkeys.2.2 k hk k List.mem_cons_self rfl
      rw [settledFields, hv, setField_of_not_mem hnew, ih, List.append_assoc, List.singleton_append]
      · exact fun g hg => hsettled g (List.mem_cons_of_mem _ hg)
      · rw [List.append_assoc, List.singleton_append]
        exact hkeys

theorem settledItems_of_forall {vs : List Value} (h : ∀ v ∈ vs, v.settled = v) : settledItems vs = vs := by
  induction vs with
  | nil => rfl
  | cons v vs ih =>
      rw [settledItems, h v List.mem_cons_self, ih fun w hw => h w (List.mem_cons_of_mem v hw)]

/-- A plain value is the value it means. -/
theorem Plain.settled {v : Value} (h : v.Plain) : v.settled = v := by
  induction h with
  | null => rfl
  | bool b => rfl
  | number hlow hhigh => rfl
  | string s => rfl
  | array _ ih => rw [Value.settled, settledItems_of_forall ih]
  | object hkeys _ ih => rw [Value.settled, settledFields_of_nodup ih [] hkeys, List.nil_append]

/-- The first byte of a plain value's text. -/
theorem Plain.first {v : Value} (h : v.Plain) :
    ∃ (b : UInt8) (bs : Bytes), encode v.chars = b :: bs ∧ isBlank b = false ∧ b ≠ 0x5D := by
  cases h with
  | null => exact ⟨0x6E, _, rfl, by decide, by decide⟩
  | bool b =>
      cases b with
      | true => exact ⟨0x74, _, rfl, by decide, by decide⟩
      | false => exact ⟨0x66, _, rfl, by decide, by decide⟩
  | @number n _ _ =>
      cases n with
      | ofNat n =>
          obtain ⟨b, bs, hbytes, hdigit⟩ := toDigits_head n
          refine ⟨b, bs, hbytes, Bool.eq_false_iff.mpr ?_, ?_⟩
          · intro hblank
            simp only [isBlank, Bool.or_eq_true, beq_iff_eq] at hblank
            rcases hblank with ((rfl | rfl) | rfl) | rfl <;> exact absurd hdigit (by decide)
          · rintro rfl
            exact absurd hdigit (by decide)
      | negSucc n => exact ⟨0x2D, _, rfl, by decide, by decide⟩
  | string s => exact ⟨0x22, _, rfl, by decide, by decide⟩
  | @array items _ => cases items <;> exact ⟨0x5B, _, rfl, by decide, by decide⟩
  | @object fields _ _ =>
      cases fields with
      | nil => exact ⟨0x7B, _, rfl, by decide, by decide⟩
      | cons f fs => exact ⟨0x7B, _, rfl, by decide, by decide⟩

end Value

/-! ## One word -/

/-- The first byte of a word is no blank and opens no bracket. -/
theorem scalar?_first {b : UInt8} {s : Bytes} {x : Value × Bytes} (h : scalar? (b :: s) = some x) :
    isBlank b = false ∧ b ≠ 0x5B ∧ b ≠ 0x7B := by
  refine ⟨Bool.eq_false_iff.mpr fun hblank => ?_, ?_, ?_⟩
  · simp only [isBlank, Bool.or_eq_true, beq_iff_eq] at hblank
    rcases hblank with ((rfl | rfl) | rfl) | rfl <;> exact absurd h (by rintro ⟨⟩)
  · rintro rfl
    exact absurd h (by rintro ⟨⟩)
  · rintro rfl
    exact absurd h (by rintro ⟨⟩)

theorem keepWith_of_scalar {s : Bytes} {v : Value} {r : Bytes} (h : scalar? s = some (v, r))
    (inner : Option (Reader Value)) : (keepWith inner).read s = some (v, r) := by
  cases s with
  | nil => simp [scalar?] at h
  | cons b s =>
      obtain ⟨hblank, harray, hobject⟩ := scalar?_first h
      have hskip : skipBlanks (b :: s) = b :: s := List.dropWhile_cons_of_neg (by rw [hblank]; decide)
      cases inner with
      | none => simp only [keepWith, hskip, h]
      | some p => simp only [keepWith, hskip, beq_eq_false_iff_ne.mpr harray, beq_eq_false_iff_ne.mpr hobject,
          Bool.false_eq_true, if_false, h]

theorem scalar?_of_parts {s : Bytes} {p : Parts} {n : Number} {r : Bytes} (h : parts? s = some (p, r))
    (hn : p.value? = some n) : scalar? s = some (.number n, r) := by
  cases s with
  | nil => exact absurd h (by rintro ⟨⟩)
  | cons b s =>
      have hword : ∀ c : UInt8, parts? (c :: s) = none → (b == c) = false := by
        intro c hc
        refine beq_eq_false_iff_ne.mpr ?_
        rintro rfl
        exact absurd (h.symm.trans hc) (by simp)
      simp only [scalar?, hword 0x6E rfl, hword 0x74 rfl, hword 0x66 rfl, hword 0x22 rfl, Bool.false_eq_true, if_false, h,
        hn, Option.bind_eq_bind, Option.bind_some]

/-- A word is read whatever the reader does with brackets. -/
theorem word_written {v : Value} (h : v.Plain) (hword : v.depth = 0) {r : Bytes} (hr : Stops r)
    (inner : Option (Reader Value)) : (keepWith inner).read (encode v.chars ++ r) = some (v, r) := by
  cases h with
  | null => exact keepWith_of_scalar rfl inner
  | bool b =>
      cases b with
      | true => exact keepWith_of_scalar rfl inner
      | false => exact keepWith_of_scalar rfl inner
  | number hlow hhigh =>
      obtain ⟨p, hp, hn⟩ := number_written hlow hhigh hr
      exact keepWith_of_scalar (scalar?_of_parts hp hn) inner
  | string s =>
      have htext := text?_quoted s r
      obtain ⟨bs, hbytes⟩ : ∃ bs, encode (quoted s.toList) ++ r = 0x22 :: bs := ⟨_, rfl⟩
      refine keepWith_of_scalar ?_ inner
      rw [Value.chars]
      rw [hbytes] at htext ⊢
      rw [scalar?, htext]
      rfl
  | array _ => simp [Value.depth] at hword
  | object _ _ => simp [Value.depth] at hword

/-! ## Brackets -/

/-- Takes the text of a value off whatever stops it. -/
def Reader.Reads (p : Reader Value) (v : Value) : Prop :=
  ∀ r, Stops r → p.read (encode v.chars ++ r) = some (v, r)

namespace Reader

variable {p : Reader Value}

/-- One item that can be read, and what stands behind it. -/
theorem items_of_read {s r : Bytes} {v : Value} (h : p.read s = some (v, r)) (seen : List Value) :
    p.items s seen = match skipBlanks r with
      | [] => none
      | b :: rest =>
        if b == 0x2C then p.items rest (v :: seen)
        else if b == 0x5D then some ((v :: seen).reverse, rest)
        else none := by
  rw [items]
  split
  · rename_i hnone
    exact absurd (h.symm.trans hnone) (by simp)
  · rename_i w t hread
    have heq := h.symm.trans hread
    simp only [Option.some.injEq, Prod.mk.injEq] at heq
    obtain ⟨rfl, rfl⟩ := heq
    cases skipBlanks r <;> rfl

theorem items_comma {s r : Bytes} {v : Value} (h : p.read s = some (v, 0x2C :: r)) (seen : List Value) :
    p.items s seen = p.items r (v :: seen) := by
  rw [items_of_read h]
  rfl

theorem items_close {s r : Bytes} {v : Value} (h : p.read s = some (v, 0x5D :: r)) (seen : List Value) :
    p.items s seen = some (seen.reverse ++ [v], r) := by
  rw [items_of_read h, ← List.reverse_cons]
  rfl

theorem items_written {v : Value} {vs : List Value} (h : ∀ w ∈ v :: vs, p.Reads w) (seen : List Value) (r : Bytes) :
    p.items (encode (v.chars ++ Value.itemChars vs ++ [']']) ++ r) seen = some (seen.reverse ++ v :: vs, r) := by
  induction vs generalizing v seen with
  | nil =>
      have hv := h v List.mem_cons_self (0x5D :: r) (stops_cons (.inr (.inl rfl)) r)
      have hbytes : encode (v.chars ++ Value.itemChars [] ++ [']']) ++ r = encode v.chars ++ 0x5D :: r := by
        rw [Value.itemChars, List.append_nil, encode_append, List.append_assoc]
        rfl
      rw [hbytes, items_close hv]
  | cons w vs ih =>
      have hv := h v List.mem_cons_self _
        (stops_cons (.inl rfl) (encode (w.chars ++ Value.itemChars vs ++ [']']) ++ r))
      have hbytes : encode (v.chars ++ Value.itemChars (w :: vs) ++ [']']) ++ r
          = encode v.chars ++ 0x2C :: (encode (w.chars ++ Value.itemChars vs ++ [']']) ++ r) := by
        simp only [Value.itemChars, List.append_assoc, List.cons_append, encode_append, encode_cons]
        rfl
      rw [hbytes, items_comma hv, ih fun u hu => h u (List.mem_cons_of_mem v hu)]
      rw [List.reverse_cons, List.append_assoc, List.singleton_append]

theorem arrayBody_written {v : Value} {vs : List Value} (hv : v.Plain) (h : ∀ w ∈ v :: vs, p.Reads w) (r : Bytes) :
    p.arrayBody (encode (v.chars ++ Value.itemChars vs ++ [']']) ++ r) = some (v :: vs, r) := by
  have hitems := items_written h [] r
  obtain ⟨b, bs, hbytes, hblank, hclose⟩ := hv.first
  obtain ⟨t, ht⟩ : ∃ t, encode (v.chars ++ Value.itemChars vs ++ [']']) ++ r = b :: t := by
    simp only [encode_append, List.append_assoc, hbytes, List.cons_append]
    exact ⟨_, rfl⟩
  rw [ht] at hitems ⊢
  have hskip : skipBlanks (b :: t) = b :: t := List.dropWhile_cons_of_neg (by rw [hblank]; decide)
  simp only [arrayBody, hskip, beq_eq_false_iff_ne.mpr hclose, Bool.false_eq_true, if_false, hitems, List.reverse_nil,
    List.nil_append]

theorem key?_written (k : String) (r : Bytes) :
    key? (encode (quoted k.toList ++ [':']) ++ r) = some (k, r) := by
  have htext := text?_quoted k (0x3A :: r)
  obtain ⟨bs, hbytes⟩ : ∃ bs, encode (quoted k.toList) ++ 0x3A :: r = 0x22 :: bs := ⟨_, rfl⟩
  have hcolon : encode (quoted k.toList ++ [':']) ++ r = encode (quoted k.toList) ++ 0x3A :: r := by
    rw [encode_append, List.append_assoc]
    rfl
  have hquote : skipBlanks (0x22 :: bs) = 0x22 :: bs := rfl
  have hafter : skipBlanks (0x3A :: r) = 0x3A :: r := rfl
  rw [hcolon]
  rw [hbytes] at htext ⊢
  simp only [key?, hquote, htext, hafter, Option.bind_eq_bind, Option.bind_some, beq_self_eq_true, if_true]

/-- One field that can be read, and what stands behind it. -/
theorem members_of_read {α : Type} {field : String → Reader α} {s t r : Bytes} {k : String} {a : α}
    (hk : key? s = some (k, t)) (h : (field k).read t = some (a, r)) (seen : List (String × α)) :
    members field s seen = match skipBlanks r with
      | [] => none
      | b :: rest =>
        if b == 0x2C then members field rest ((k, a) :: seen)
        else if b == 0x7D then some (((k, a) :: seen).reverse, rest)
        else none := by
  rw [members]
  split
  · rename_i hnone
    exact absurd (hk.symm.trans hnone) (by simp)
  · rename_i l t' hkey
    have heq := hk.symm.trans hkey
    simp only [Option.some.injEq, Prod.mk.injEq] at heq
    obtain ⟨rfl, rfl⟩ := heq
    split
    · rename_i hnone
      exact absurd (h.symm.trans hnone) (by simp)
    · rename_i w u hread
      have heq := h.symm.trans hread
      simp only [Option.some.injEq, Prod.mk.injEq] at heq
      obtain ⟨rfl, rfl⟩ := heq
      cases skipBlanks r <;> rfl

theorem members_comma {s t r : Bytes} {k : String} {v : Value} (hk : key? s = some (k, t))
    (h : p.read t = some (v, 0x2C :: r)) (seen : List (String × Value)) :
    members (fun _ => p) s seen = members (fun _ => p) r ((k, v) :: seen) := by
  rw [members_of_read hk h]
  rfl

theorem members_close {s t r : Bytes} {k : String} {v : Value} (hk : key? s = some (k, t))
    (h : p.read t = some (v, 0x7D :: r)) (seen : List (String × Value)) :
    members (fun _ => p) s seen = some (seen.reverse ++ [(k, v)], r) := by
  rw [members_of_read hk h, ← List.reverse_cons]
  rfl

/-- The text of a field and of those after it, up to the closing brace. -/
def memberChars (k : String) (v : Value) (fs : List (String × Value)) : List Char :=
  quoted k.toList ++ [':'] ++ v.chars ++ Value.fieldChars fs ++ ['\x7d']

theorem members_written {k : String} {v : Value} {fs : List (String × Value)} (h : ∀ f ∈ (k, v) :: fs, p.Reads f.2)
    (seen : List (String × Value)) (r : Bytes) :
    members (fun _ => p) (encode (memberChars k v fs) ++ r) seen = some (seen.reverse ++ (k, v) :: fs, r) := by
  induction fs generalizing k v seen with
  | nil =>
      have hv := h (k, v) List.mem_cons_self (0x7D :: r) (stops_cons (.inr (.inr rfl)) r)
      have hk := key?_written k (encode v.chars ++ 0x7D :: r)
      have hbytes : encode (memberChars k v []) ++ r
          = encode (quoted k.toList ++ [':']) ++ (encode v.chars ++ 0x7D :: r) := by
        simp only [memberChars, Value.fieldChars, List.append_nil, encode_append, List.append_assoc]
        rfl
      rw [hbytes, members_close hk hv]
  | cons f fs ih =>
      obtain ⟨l, w⟩ := f
      have hv := h (k, v) List.mem_cons_self _ (stops_cons (.inl rfl) (encode (memberChars l w fs) ++ r))
      have hk := key?_written k (encode v.chars ++ 0x2C :: (encode (memberChars l w fs) ++ r))
      have hbytes : encode (memberChars k v ((l, w) :: fs)) ++ r
          = encode (quoted k.toList ++ [':']) ++ (encode v.chars ++ 0x2C :: (encode (memberChars l w fs) ++ r)) := by
        simp only [memberChars, Value.fieldChars, encode_append, List.append_assoc, List.cons_append, encode_cons,
          List.nil_append]
        rfl
      rw [hbytes, members_comma hk hv, ih fun g hg => h g (List.mem_cons_of_mem _ hg)]
      rw [List.reverse_cons, List.append_assoc, List.singleton_append]

theorem objectBody_written {k : String} {v : Value} {fs : List (String × Value)}
    (h : ∀ f ∈ (k, v) :: fs, p.Reads f.2) (r : Bytes) :
    objectBody (fun _ => p) (encode (memberChars k v fs) ++ r) = some ((k, v) :: fs, r) := by
  have hmembers := members_written h [] r
  obtain ⟨bs, hbytes⟩ : ∃ bs, encode (memberChars k v fs) ++ r = 0x22 :: bs := ⟨_, rfl⟩
  have hquote : skipBlanks (0x22 :: bs) = 0x22 :: bs := rfl
  have hnot : ((0x22 : UInt8) == 0x7D) = false := by decide
  rw [hbytes] at hmembers ⊢
  simp only [objectBody, hquote, hnot, Bool.false_eq_true, if_false, hmembers, List.reverse_nil, List.nil_append]

end Reader

/-! ## Any value -/

theorem array_written {p : Reader Value} {items : List Value} (hplain : ∀ v ∈ items, v.Plain)
    (h : ∀ v ∈ items, p.Reads v) (r : Bytes) :
    (keepWith (some p)).read (encode (Value.array items).chars ++ r) = some (.array items, r) := by
  cases items with
  | nil => rfl
  | cons v vs =>
      have hbody := Reader.arrayBody_written (hplain v List.mem_cons_self) h r
      have hbytes : encode (Value.array (v :: vs)).chars ++ r
          = 0x5B :: (encode (v.chars ++ Value.itemChars vs ++ [']']) ++ r) := by
        simp only [Value.chars, List.cons_append, encode_cons]
        rfl
      have hskip : ∀ s, skipBlanks (0x5B :: s) = 0x5B :: s := fun s => rfl
      rw [hbytes]
      simp only [keepWith, hskip, beq_self_eq_true, if_true, hbody, Option.map_some]

theorem object_written {p : Reader Value} {fields : List (String × Value)} (h : ∀ f ∈ fields, p.Reads f.2)
    (r : Bytes) :
    (keepWith (some p)).read (encode (Value.object fields).chars ++ r) = some (.object fields, r) := by
  cases fields with
  | nil => rfl
  | cons f fs =>
      obtain ⟨k, v⟩ := f
      have hbody := Reader.objectBody_written h r
      have hbytes : encode (Value.object ((k, v) :: fs)).chars ++ r
          = 0x7B :: (encode (Reader.memberChars k v fs) ++ r) := by
        simp only [Value.chars, Reader.memberChars, List.cons_append, encode_cons, List.append_assoc, List.nil_append]
        rfl
      have hskip : ∀ s, skipBlanks (0x7B :: s) = 0x7B :: s := fun s => rfl
      have hnot : ((0x7B : UInt8) == 0x5B) = false := by decide
      rw [hbytes]
      simp only [keepWith, hskip, hnot, Bool.false_eq_true, if_false, beq_self_eq_true, if_true, hbody, Option.map_some]

/-- **A value that was written is read back**, by any reader that may go as deep. -/
theorem keep_written {v : Value} (h : v.Plain) : ∀ {depth : Nat}, v.depth ≤ depth → (keep depth).Reads v := by
  have hword : ∀ {w : Value}, w.Plain → w.depth = 0 → ∀ depth, (keep depth).Reads w := by
    intro w hw hdepth depth r hr
    cases depth with
    | zero => exact word_written hw hdepth hr none
    | succ depth => exact word_written hw hdepth hr _
  induction h with
  | null => exact fun _ => hword .null rfl _
  | bool b => exact fun _ => hword (.bool b) rfl _
  | number hlow hhigh => exact fun _ => hword (.number hlow hhigh) rfl _
  | string s => exact fun _ => hword (.string s) rfl _
  | @array items hitems ih =>
      intro depth hdepth r hr
      rw [Value.depth] at hdepth
      -- one bracket is one level of the reader
      obtain ⟨inner, rfl⟩ : ∃ inner, depth = inner + 1 := ⟨depth - 1, by omega⟩
      refine array_written hitems (fun v hv => ih v hv ?_) r
      have := Value.depth_le_depthItems hv
      omega
  | @object fields _ hfields ih =>
      intro depth hdepth r hr
      rw [Value.depth] at hdepth
      obtain ⟨inner, rfl⟩ : ∃ inner, depth = inner + 1 := ⟨depth - 1, by omega⟩
      refine object_written (fun f hf => ih f hf ?_) r
      have := Value.depth_le_depthFields hf
      omega

/-- A value that fills a line is read back as written. -/
theorem Value.read?_bytes {v : Value} (h : v.Plain) (hdepth : v.depth ≤ maxDepth) : read? v.bytes = some v := by
  have hread := keep_written h hdepth [] stops_nil
  rw [List.append_nil] at hread
  rw [read?, bytes, hread]
  rfl

end MiningPool.Json

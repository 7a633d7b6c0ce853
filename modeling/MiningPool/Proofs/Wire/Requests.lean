import MiningPool.Proofs.Json.Passing
import MiningPool.Proofs.Wire.ReadBack

/-!
# The rules for the fields of a request

A request's line is an object made of fields, or an array made of items, each with its own text. What a part's text
stands for is said of the part alone (`Spells`, `Field.Stands`), blanks included; a value that is not kept may be
anything that can be passed over. From this the line as a whole is read: the fields that are kept come out in their
order, and nothing else of the line matters (`decodes_objectLine`, `decodes_arrayLine`).

What is left are rules about a list of fields under three keys: which are missing, which come twice, and in what order
they stand (`request_field_rules`).
-/

namespace MiningPool

namespace Json

/-- Takes a text off whatever stops it, with the blanks that stand behind it. -/
def Reader.Spells {α : Type} (p : Reader α) (text : Bytes) (a : α) : Prop :=
  ∀ r, Stops r → ∃ behind, p.read (text ++ r) = some (a, behind) ∧ skipBlanks behind = r

theorem Reader.Reads.spells {p : Reader Value} {v : Value} (h : p.Reads v) : p.Spells v.bytes v :=
  fun r hr => ⟨r, h r hr, hr.skipBlanks⟩

theorem keep_skipBlanks (depth : Nat) (s : Bytes) : (keep depth).read (skipBlanks s) = (keep depth).read s := by
  cases depth <;> simp only [keep, keepWith, skipBlanks_skipBlanks]

/-- A value does not begin with a closing bracket. -/
theorem keep_first {depth : Nat} {s : Bytes} {x : Value × Bytes} (h : (keep depth).read s = some x) :
    ∃ b rest, skipBlanks s = b :: rest ∧ b ≠ 0x5D := by
  cases hs : skipBlanks s with
  | nil => cases depth <;> simp [keep, keepWith, hs, scalar?] at h
  | cons b rest =>
      refine ⟨b, rest, rfl, ?_⟩
      rintro rfl
      have hclose : scalar? (0x5D :: rest) = none := rfl
      cases depth with
      | zero => simp [keep, keepWith, hs, hclose] at h
      | succ depth => simp [keep, keepWith, hs, hclose] at h

namespace Reader

theorem key?_skipBlanks (s : Bytes) : key? (skipBlanks s) = key? s := by
  simp only [key?, skipBlanks_skipBlanks]

/-- A key begins with a quote. -/
theorem key?_first {s : Bytes} {x : String × Bytes} (h : key? s = some x) : ∃ rest, skipBlanks s = 0x22 :: rest := by
  cases hs : skipBlanks s with
  | nil => simp [key?, hs, text?] at h
  | cons b rest =>
      by_cases hquote : b = 0x22
      · exact ⟨rest, by rw [hquote]⟩
      · simp [key?, hs, text?, hquote] at h

/-- Fields are read only where there is a key and something behind it that can be read. -/
theorem read_of_members {α : Type} {field : String → Reader α} {s : Bytes} {seen : List (String × α)}
    {x : List (String × α) × Bytes} (h : members field s seen = some x) :
    ∃ k t a r, key? s = some (k, t) ∧ (field k).read t = some (a, r) := by
  rw [members] at h
  split at h
  · simp at h
  · rename_i k t hkey
    split at h
    · simp at h
    · rename_i a r hread
      exact ⟨k, t, a, r, hkey, hread⟩

/-- Fields that can be read make an object, whatever blanks stand before them. -/
theorem objectBody_of_members {α : Type} {field : String → Reader α} {s : Bytes} {x : List (String × α) × Bytes}
    (h : members field s [] = some x) : objectBody field s = some x := by
  obtain ⟨k, t, a, r, hkey, hread⟩ := read_of_members h
  obtain ⟨rest, hfirst⟩ := key?_first hkey
  have hnot : ((0x22 : UInt8) == 0x7D) = false := by decide
  have hsame : members field (skipBlanks s) [] = members field s [] := by
    rw [members_of_read hkey hread, members_of_read ((key?_skipBlanks s).trans hkey) hread]
  rw [hfirst, h] at hsame
  simp only [objectBody, hfirst, hnot, Bool.false_eq_true, if_false, hsame]

/-- Items that can be read make an array, whatever blanks stand before them. -/
theorem arrayBody_of_items {depth : Nat} {s : Bytes} {x : List Value × Bytes}
    (h : (keep depth).items s [] = some x) : (keep depth).arrayBody s = some x := by
  obtain ⟨v, r, hread⟩ : ∃ v r, (keep depth).read s = some (v, r) := by
    rw [items] at h
    split at h
    · simp at h
    · rename_i v r hread
      exact ⟨v, r, hread⟩
  obtain ⟨b, rest, hfirst, hnot⟩ := keep_first hread
  have hsame : (keep depth).items (skipBlanks s) [] = (keep depth).items s [] := by
    rw [items_of_read hread, items_of_read ((keep_skipBlanks depth s).trans hread)]
  rw [hfirst, h] at hsame
  simp only [arrayBody, hfirst, beq_eq_false_iff_ne.mpr hnot, Bool.false_eq_true, if_false, hsame]

end Reader
end Json

namespace Wire

open Json Json.Reader

/-! ## Fields -/

/-- A field of an object, and the text that stands for it. -/
structure Field where
  key : String
  value : Value
  text : Bytes

namespace Field

/-- What a request keeps of a field. -/
def kept (f : Field) : Option Value := if Request.keeps f.key then some f.value else none

/-- The text of a field gives its key, and then its value if that is kept, or anything that can be passed over. -/
def Stands (f : Field) : Prop :=
  ∀ r, Stops r → ∃ start behind, key? (f.text ++ r) = some (f.key, start)
    ∧ (Request.fieldReader f.key).read start = some (f.kept, behind) ∧ skipBlanks behind = r

/-- A field stands in a line if its value can be kept at any depth, or at the depth left for it if it is kept. -/
theorem stands_of_spells {f : Field} {keyText valueText : Bytes} (htext : f.text = keyText ++ valueText)
    (hkey : ∀ r, key? (keyText ++ r) = some (f.key, r)) {depth : Nat}
    (hvalue : (keep depth).Spells valueText f.value) (hdepth : Request.keeps f.key = true → depth = innerDepth) :
    f.Stands := by
  intro r hr
  obtain ⟨behind, hread, hbehind⟩ := hvalue r hr
  refine ⟨valueText ++ r, behind, ?_, ?_, hbehind⟩
  · rw [htext, List.append_assoc]
    exact hkey _
  · rw [Request.fieldReader, kept]
    split
    · rename_i hkeeps
      rw [hdepth hkeeps] at hread
      simp only [Reader.map, hread, Option.map_some]
    · simp only [Reader.map, skip_of_keep hread, Option.map_some]

/-- A field as it is written. -/
def written (key : String) (value : Value) : Field :=
  ⟨key, value, Utf8.encode (quoted key.toList ++ [':']) ++ value.bytes⟩

/-- What is written for a plain value stands for it, of any depth unless it is kept. -/
theorem written_stands (key : String) {v : Value} (h : v.Plain)
    (hdepth : Request.keeps key = true → v.depth ≤ innerDepth) : (written key v).Stands := by
  have hkey := key?_written key
  by_cases hkeeps : Request.keeps key = true
  · exact stands_of_spells rfl hkey (keep_written h (hdepth hkeeps)).spells fun _ => rfl
  · exact stands_of_spells rfl hkey (keep_written h (Nat.le_refl _)).spells fun hk => absurd hk hkeeps

end Field

/-- An object made of some fields. -/
def objectLine (fields : List Field) : Bytes := 0x7B :: ([0x2C].intercalate (fields.map (·.text)) ++ [0x7D])

/-- The keys of a request's places, in the order an array has them. -/
def places : List String := ["id", "method", "params"]

/-- The fields that are kept, in their order. -/
def pairs (fields : List Field) : List (String × Value) :=
  (fields.filter fun f => places.contains f.key).map fun f => (f.key, f.value)

theorem keeps_eq (key : String) : Request.keeps key = places.contains key := by
  simp only [Request.keeps, places, List.contains_cons, List.contains_nil, Bool.or_false, Bool.or_assoc]

theorem keptFields_eq (fields : List Field) : keptFields (fields.map fun f => (f.key, f.kept)) = pairs fields := by
  induction fields with
  | nil => rfl
  | cons f fields ih =>
      rw [keptFields, pairs] at *
      rw [List.map_cons, List.filter_cons]
      cases hkeeps : places.contains f.key with
      | true =>
          have hkept : f.kept = some f.value := by rw [Field.kept, keeps_eq, hkeeps, if_pos rfl]
          rw [List.filterMap_cons_some (by rw [hkept]; rfl), ih, if_pos rfl, List.map_cons]
      | false =>
          have hkept : f.kept = none := by rw [Field.kept, keeps_eq, hkeeps, if_neg Bool.false_ne_true]
          rw [List.filterMap_cons_none (by rw [hkept]; rfl), ih, if_neg Bool.false_ne_true]

/-- Fields that stand in a line are read one after the other, up to the closing brace. -/
theorem members_fields {f : Field} {fields : List Field} (h : ∀ g ∈ f :: fields, g.Stands)
    (seen : List (String × Option Value)) (r : Bytes) :
    members Request.fieldReader ([0x2C].intercalate ((f :: fields).map (·.text)) ++ 0x7D :: r) seen
      = some (seen.reverse ++ (f :: fields).map fun g => (g.key, g.kept), r) := by
  induction fields generalizing f seen with
  | nil =>
      obtain ⟨start, behind, hkey, hread, hbehind⟩ :=
        h f List.mem_cons_self (0x7D :: r) (stops_cons (.inr (.inr rfl)) r)
      rw [List.map_singleton, List.intercalate_singleton, members_of_read hkey hread, hbehind]
      simp
  | cons g fields ih =>
      obtain ⟨start, behind, hkey, hread, hbehind⟩ := h f List.mem_cons_self _
        (stops_cons (.inl rfl) ([0x2C].intercalate ((g :: fields).map (·.text)) ++ 0x7D :: r))
      have htext : [0x2C].intercalate ((f :: g :: fields).map (·.text)) ++ 0x7D :: r
          = f.text ++ 0x2C :: ([0x2C].intercalate ((g :: fields).map (·.text)) ++ 0x7D :: r) := by
        rw [List.map_cons, List.map_cons, List.intercalate_cons_cons, List.append_assoc, List.append_assoc]
        rfl
      rw [htext, members_of_read hkey hread, hbehind]
      dsimp only
      rw [if_pos (beq_self_eq_true _), ih fun k hk => h k (List.mem_cons_of_mem f hk), List.reverse_cons,
        List.append_assoc, List.singleton_append]
      rfl

/-- All fields of an object are read, up to its closing brace. -/
theorem objectBody_fields {fields : List Field} (h : ∀ f ∈ fields, f.Stands) (r : Bytes) :
    objectBody Request.fieldReader ([0x2C].intercalate (fields.map (·.text)) ++ 0x7D :: r)
      = some (fields.map fun f => (f.key, f.kept), r) := by
  cases fields with
  | nil => rfl
  | cons f fields =>
      have hmembers := members_fields h [] r
      rw [List.reverse_nil, List.nil_append] at hmembers
      exact objectBody_of_members hmembers

/-! ## Items -/

/-- An item of an array, and the text that stands for it. -/
structure Item where
  value : Value
  text : Bytes

/-- The text of an item gives its value. -/
def Item.Stands (i : Item) : Prop := (keep innerDepth).Spells i.text i.value

/-- An array made of some items. -/
def arrayLine (items : List Item) : Bytes := 0x5B :: ([0x2C].intercalate (items.map (·.text)) ++ [0x5D])

/-- Items that stand in a line are read one after the other, up to the closing bracket. -/
theorem items_stand {i : Item} {rest : List Item} (h : ∀ j ∈ i :: rest, j.Stands) (seen : List Value) (r : Bytes) :
    (keep innerDepth).items ([0x2C].intercalate ((i :: rest).map (·.text)) ++ 0x5D :: r) seen
      = some (seen.reverse ++ (i :: rest).map (·.value), r) := by
  induction rest generalizing i seen with
  | nil =>
      obtain ⟨behind, hread, hbehind⟩ := h i List.mem_cons_self (0x5D :: r) (stops_cons (.inr (.inl rfl)) r)
      rw [List.map_singleton, List.intercalate_singleton, items_of_read hread, hbehind]
      simp
  | cons j rest ih =>
      obtain ⟨behind, hread, hbehind⟩ := h i List.mem_cons_self _
        (stops_cons (.inl rfl) ([0x2C].intercalate ((j :: rest).map (·.text)) ++ 0x5D :: r))
      have htext : [0x2C].intercalate ((i :: j :: rest).map (·.text)) ++ 0x5D :: r
          = i.text ++ 0x2C :: ([0x2C].intercalate ((j :: rest).map (·.text)) ++ 0x5D :: r) := by
        rw [List.map_cons, List.map_cons, List.intercalate_cons_cons, List.append_assoc, List.append_assoc]
        rfl
      rw [htext, items_of_read hread, hbehind]
      dsimp only
      rw [if_pos (beq_self_eq_true _), ih fun k hk => h k (List.mem_cons_of_mem i hk), List.reverse_cons,
        List.append_assoc, List.singleton_append]
      rfl

theorem arrayBody_stand {items : List Item} (h : ∀ i ∈ items, i.Stands) (r : Bytes) :
    (keep innerDepth).arrayBody ([0x2C].intercalate (items.map (·.text)) ++ 0x5D :: r)
      = some (items.map (·.value), r) := by
  cases items with
  | nil => rfl
  | cons i rest =>
      have hitems := items_stand h [] r
      rw [List.reverse_nil, List.nil_append] at hitems
      exact arrayBody_of_items hitems

/-! ## What a line comes to -/

/-- A line is taken for a request. -/
def Decodes (line : Bytes) (r : Request) : Prop := readLine Request.read? line = some (.message r)

/-- A line is refused as malformed. -/
def Malformed (line : Bytes) : Prop := ∃ text, readLine Request.read? line = some (.faulty (.malformed text))

/-- Two lines come to the same: they are taken for the same request, or both are refused. -/
def Alike (a b : Bytes) : Prop := (∀ r, Decodes a r ↔ Decodes b r) ∧ (Malformed a ↔ Malformed b)

/-- A line with brackets at both ends is decided by the reader of requests. -/
theorem decodes_iff {a b : UInt8} (ha : isSpace a = false) (hb : isSpace b = false) {middle : Bytes}
    {request : Option Request} (h : Request.read? (a :: (middle ++ [b])) = request) :
    (∀ r, Decodes (a :: (middle ++ [b])) r ↔ request = some r)
      ∧ (Malformed (a :: (middle ++ [b])) ↔ request = none) := by
  have hline : readLine Request.read? (a :: (middle ++ [b])) = match request with
      | some r => some (.message r)
      | none => some (.faulty (.malformed "no such message")) := by
    simp only [readLine, trim_between ha hb, List.isEmpty_cons, Bool.false_eq_true, if_false, h]
    cases request <;> rfl
  simp only [Decodes, Malformed, hline]
  cases request with
  | none => simp
  | some r => simp

/-- **An object is decided by the fields that are kept.** -/
theorem decodes_objectLine {fields : List Field} (h : ∀ f ∈ fields, f.Stands) :
    (∀ r, Decodes (objectLine fields) r ↔ Request.ofFields? (pairs fields) = some r)
      ∧ (Malformed (objectLine fields) ↔ Request.ofFields? (pairs fields) = none) := by
  refine decodes_iff (by decide) (by decide) ?_
  have hskip : ∀ s, skipBlanks (0x7B :: s) = 0x7B :: s := fun _ => rfl
  rw [Request.read?, hskip]
  dsimp only
  rw [if_pos (beq_self_eq_true _), objectBody_fields h [], ← keptFields_eq]
  rfl

/-- **An array is decided by its items.** -/
theorem decodes_arrayLine {items : List Item} (h : ∀ i ∈ items, i.Stands) :
    (∀ r, Decodes (arrayLine items) r ↔ Request.ofItems? (items.map (·.value)) = some r)
      ∧ (Malformed (arrayLine items) ↔ Request.ofItems? (items.map (·.value)) = none) := by
  refine decodes_iff (by decide) (by decide) ?_
  have hskip : ∀ s, skipBlanks (0x5B :: s) = 0x5B :: s := fun _ => rfl
  have hnot : ((0x5B : UInt8) == 0x7B) = false := by decide
  rw [Request.read?, hskip]
  dsimp only
  rw [hnot, if_neg Bool.false_ne_true, if_pos (beq_self_eq_true _), arrayBody_stand h []]
  rfl

/-! ## Fields under three keys -/

/-- How often a key occurs. -/
def occurs (key : String) (fields : List Field) : Nat := (fields.map (·.key)).count key

/-- The value given under a key. -/
def given? (key : String) (fields : List Field) : Option Value := (fields.find? fun f => f.key == key).map (·.value)

theorem sole?_perm {l l' : List (String × Value)} (h : l.Perm l') (key : String) : sole? key l = sole? key l' := by
  have hsame := h.filter fun f => f.1 == key
  rw [sole?, sole?]
  generalize l.filter (fun f => f.1 == key) = a at hsame
  generalize l'.filter (fun f => f.1 == key) = b at hsame
  match a, b with
  | [], b => rw [List.nil_perm.mp hsame]
  | [f], b => rw [List.singleton_perm.mp hsame]
  | _ :: _ :: _, [] => exact absurd hsame.length_eq (by simp)
  | _ :: _ :: _, [_] => exact absurd hsame.length_eq (by simp)
  | _ :: _ :: _, _ :: _ :: _ => rfl

theorem ofFields?_perm {l l' : List (String × Value)} (h : l.Perm l') : Request.ofFields? l = Request.ofFields? l' := by
  rw [Request.ofFields?, Request.ofFields?, sole?_perm h, sole?_perm h, sole?_perm h]

/-- The fields that are kept under a key are those the object has. -/
theorem filter_pairs {key : String} (hkey : key ∈ places) (fields : List Field) :
    (pairs fields).filter (fun f => f.1 == key)
      = (fields.filter fun f => f.key == key).map fun f => (f.key, f.value) := by
  rw [pairs, List.filter_map, List.filter_filter]
  refine congrArg _ (List.filter_congr fun f _ => ?_)
  by_cases hf : f.key = key
  · have hthere : places.contains f.key = true := by rw [hf]; exact List.contains_iff_mem.mpr hkey
    simp [hf, hkey]
  · simp [hf]

theorem length_filter_key (key : String) (fields : List Field) :
    (fields.filter fun f => f.key == key).length = occurs key fields := by
  rw [occurs, List.count, List.countP_map, List.countP_eq_length_filter]
  rfl

/-- A key that occurs twice is refused. -/
theorem sole?_of_twice {key : String} (hkey : key ∈ places) {fields : List Field} (h : 2 ≤ occurs key fields) :
    sole? key (pairs fields) = none := by
  rw [← length_filter_key] at h
  rw [sole?, filter_pairs hkey]
  generalize fields.filter (fun f => f.key == key) = found at h ⊢
  match found, h with
  | _ :: _ :: _, _ => rfl

/-- A key that does not occur twice gives its value, if there is one. -/
theorem sole?_of_once {key : String} (hkey : key ∈ places) {fields : List Field} (h : occurs key fields ≤ 1) :
    sole? key (pairs fields) = some (given? key fields) := by
  rw [← length_filter_key] at h
  rw [sole?, filter_pairs hkey, given?, ← List.head?_filter]
  generalize fields.filter (fun f => f.key == key) = found at h ⊢
  match found, h with
  | [], _ => rfl
  | [f], _ => rfl

/-- The items of an array are the fields of the same places. -/
theorem ofItems?_eq {values : List Value} (h : values.length ≤ 3) :
    Request.ofItems? values = Request.ofFields? (places.zip values) := by
  match values, h with
  | [], _ => rfl
  | [_], _ => rfl
  | [_, _], _ => rfl
  | [_, _, _], _ => rfl

/-- The parameters of a request: those given, or none where none are given or null is. -/
def paramsGiven : Option Value → Value
  | none | some .null => .array []
  | some v => v.settled

/-- The method of a request: the text given, or none where it is missing. -/
def methodGiven? : Option Value → Option String
  | none => some ""
  | some v => v.text?

/--
**The rules for the fields of a request.**

An object whose fields stand for keys and values is refused if a key of a request occurs twice. If none does, it is
taken for a request exactly if its method is missing or a text, and then for the one with the id that was given or null,
the method that was given or none, and the parameters that were given, or an empty list where they are missing or null.
Neither the order of the fields nor fields under other keys make a difference. An array of at most three items comes to
the same as an object with the fields of the first places, the others missing.
-/
theorem request_field_rules {fields : List Field} (h : ∀ f ∈ fields, f.Stands) :
    ((∃ key ∈ places, 2 ≤ occurs key fields) → Malformed (objectLine fields))
      ∧ ((∀ key ∈ places, occurs key fields ≤ 1) →
          (∀ r, Decodes (objectLine fields) r ↔ methodGiven? (given? "method" fields) = some r.method
            ∧ r.id = ((given? "id" fields).getD .null).settled ∧ r.params = paramsGiven (given? "params" fields))
          ∧ (Malformed (objectLine fields) ↔ methodGiven? (given? "method" fields) = none))
      ∧ (∀ others : List Field, (∀ f ∈ others, f.Stands) → (pairs others).Perm (pairs fields) →
          Alike (objectLine others) (objectLine fields))
      ∧ ∀ items : List Item, (∀ i ∈ items, i.Stands) → items.length ≤ 3 →
          (pairs fields).Perm (places.zip (items.map (·.value))) → Alike (arrayLine items) (objectLine fields) := by
  obtain ⟨hdecodes, hmalformed⟩ := decodes_objectLine h
  refine ⟨?twice, ?once, ?others, ?items⟩
  case twice =>
    rintro ⟨key, hkey, htwice⟩
    have hnone := sole?_of_twice hkey htwice
    rw [hmalformed, Request.ofFields?]
    simp only [places, List.mem_cons, List.not_mem_nil, or_false] at hkey
    rcases hkey with rfl | rfl | rfl
    · rw [hnone]
      rfl
    · rw [hnone]
      cases sole? "id" (pairs fields) <;> rfl
    · rw [hnone]
      cases sole? "id" (pairs fields) <;> cases sole? "method" (pairs fields) <;> rfl
  case once =>
    intro honce
    have hread : Request.ofFields? (pairs fields)
        = (methodGiven? (given? "method" fields)).map fun m =>
            ⟨((given? "id" fields).getD .null).settled, m, paramsGiven (given? "params" fields)⟩ := by
      rw [Request.ofFields?, sole?_of_once (by decide) (honce "id" (by decide)),
        sole?_of_once (by decide) (honce "method" (by decide)), sole?_of_once (by decide) (honce "params" (by decide))]
      simp only [Option.bind_eq_bind, Option.bind_some, Request.ofPlaces?]
      have hparams : ∀ p, Request.paramsOf p = paramsGiven p := by
        rintro (_ | _ | _ | _ | _ | _ | _) <;> rfl
      rw [hparams]
      rcases given? "method" fields with _ | _ | _ | _ | _ | _ | _ <;> rfl
    refine ⟨fun r => ?_, ?_⟩
    · rw [hdecodes, hread, Option.map_eq_some_iff]
      constructor
      · rintro ⟨m, hm, rfl⟩
        exact ⟨hm, rfl, rfl⟩
      · rintro ⟨hm, hid, hparams⟩
        exact ⟨r.method, hm, by rw [← hid, ← hparams]⟩
    · rw [hmalformed, hread, Option.map_eq_none_iff]
  case others =>
    intro others hothers hperm
    obtain ⟨hdecodes', hmalformed'⟩ := decodes_objectLine hothers
    have hsame := ofFields?_perm hperm
    exact ⟨fun r => by rw [hdecodes', hdecodes, hsame], by rw [hmalformed', hmalformed, hsame]⟩
  case items =>
    intro items hitems hlength hperm
    obtain ⟨hdecodes', hmalformed'⟩ := decodes_arrayLine hitems
    have hsame : Request.ofItems? (items.map (·.value)) = Request.ofFields? (pairs fields) := by
      rw [ofItems?_eq (by rwa [List.length_map]), ofFields?_perm hperm]
    exact ⟨fun r => by rw [hdecodes', hdecodes, hsame], by rw [hmalformed', hmalformed, hsame]⟩

/-- An empty array within as many others. -/
def nested : Nat → Value
  | 0 => .array []
  | n + 1 => .array [nested n]

theorem plain_nested : ∀ n, (nested n).Plain
  | 0 => .array fun _ h => absurd h List.not_mem_nil
  | n + 1 => .array fun _ h => List.mem_singleton.mp h ▸ plain_nested n

/-- A login whose parameters are null, without an id, between fields of which one nests deeper than a reader goes. -/
def bareLogin : List Field :=
  [.written "jsonrpc" (.string "2.0"), .written "params" .null, .written "method" (.string "mining.authorize"),
    .written "deep" (nested 200)]

theorem request_field_rules_bare_login :
    Decodes (objectLine bareLogin) ⟨.null, "mining.authorize", .array []⟩
      ∧ Malformed (objectLine (.written "method" (.string "mining.ping") :: bareLogin)) := by
  have hping : (Field.written "method" (.string "mining.ping")).Stands :=
    Field.written_stands _ (.string _) fun _ => Nat.zero_le _
  have hstands : ∀ f ∈ bareLogin, f.Stands := by
    intro f hf
    simp only [bareLogin, List.mem_cons, List.not_mem_nil, or_false] at hf
    rcases hf with rfl | rfl | rfl | rfl
    · exact Field.written_stands _ (.string _) fun _ => Nat.zero_le _
    · exact Field.written_stands _ .null fun _ => Nat.zero_le _
    · exact Field.written_stands _ (.string _) fun _ => Nat.zero_le _
    · exact Field.written_stands _ (plain_nested 200) fun h => absurd h (by decide)
  obtain ⟨_, honce, _⟩ := request_field_rules hstands
  obtain ⟨htwice, _⟩ := request_field_rules (List.forall_mem_cons.mpr ⟨hping, hstands⟩)
  exact ⟨((honce (by decide)).1 _).mpr ⟨rfl, rfl, rfl⟩, htwice ⟨"method", by decide, by decide⟩⟩

end Wire
end MiningPool

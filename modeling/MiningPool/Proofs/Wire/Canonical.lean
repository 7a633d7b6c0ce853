import MiningPool.Proofs.Json.Settled
import MiningPool.Proofs.Wire.Requests

/-!
# A request is written in one way

A line may say the same request in many ways: as an object or an array, in any order, with fields nobody asked for,
with null for no parameters and with keys that come again. What is kept of it is settled when it is read, and nothing
is left to settle: the request is `Writable`, so what is written for it is read as it, and is written again as it was.
Doubles are left out, of which only the shortest text is written.
-/

namespace MiningPool.Wire

open Json Json.Reader

/-! ## One request -/

/-- What is written for a request with such parts is read as that request. -/
structure Request.Writable (r : Request) : Prop where
  id : r.id.Plain
  id_depth : r.id.depth ≤ innerDepth
  params : r.params.Plain
  params_depth : r.params.depth ≤ innerDepth
  /-- Null would be read as no parameters. -/
  given : r.params ≠ .null

namespace Request

/-- The fields of a request in the order they are written. -/
def fields (r : Request) : List Field :=
  [.written "id" r.id, .written "method" (.string r.method), .written "params" r.params]

theorem bytes_toJson (r : Request) : r.toJson.bytes = objectLine r.fields := by
  simp only [toJson, Value.bytes, Value.chars, Value.fieldChars, objectLine, fields, Field.written, List.map_cons,
    List.map_nil, List.intercalate_cons_cons, List.intercalate_singleton, Utf8.encode_append, Utf8.encode_cons,
    List.append_assoc, List.cons_append, List.nil_append, List.append_nil]
  rfl

theorem paramsOf_of_ne {v : Value} (h : v ≠ .null) : paramsOf (some v) = v.settled := by
  cases v with
  | null => exact absurd rfl h
  | bool _ | number _ | string _ | array _ | object _ => rfl

namespace Writable

variable {r : Request}

theorem stands (h : r.Writable) : ∀ f ∈ r.fields, f.Stands := by
  intro f hf
  simp only [fields, List.mem_cons, List.not_mem_nil, or_false] at hf
  rcases hf with rfl | rfl | rfl
  · exact Field.written_stands "id" h.id fun _ => h.id_depth
  · exact Field.written_stands "method" (.string r.method) fun _ => Nat.zero_le _
  · exact Field.written_stands "params" h.params fun _ => h.params_depth

/-- The fields that are written give the request back. -/
theorem ofFields?_pairs (h : r.Writable) : ofFields? (pairs r.fields) = some r := by
  have hread : ofFields? (pairs r.fields) = some ⟨r.id.settled, r.method, paramsOf (some r.params)⟩ := rfl
  rw [hread, paramsOf_of_ne h.given, h.id.settled, h.params.settled]

/-- **What is written for a writable request is read as that request.** -/
theorem decodes (h : r.Writable) : Decodes r.toJson.bytes r := by
  rw [bytes_toJson]
  exact ((decodes_objectLine h.stands).1 r).mpr h.ofFields?_pairs

end Writable

/-! ## What is kept of a line -/

/-- A part of a request that may be missing nests no deeper than a reader goes. -/
def Kept (part : Option Value) : Prop := ∀ v ∈ part, v.Within innerDepth

theorem kept_none : Kept none := fun _ h => absurd h (by simp)

theorem kept_some {v : Value} (h : v.Within innerDepth) : Kept (some v) := fun _ hw => Option.some.inj hw ▸ h

theorem paramsOf_kept {part : Option Value} (h : Kept part) :
    ∃ v : Value, v.Within innerDepth ∧ paramsOf part = v.settled ∧ v.settled ≠ .null := by
  have hnone : (Value.array []).Within innerDepth := .array fun _ hv => absurd hv List.not_mem_nil
  have hgiven : ∀ v : Value, v ≠ .null → v.settled ≠ .null := by
    intro v hv
    cases v with
    | null => exact absurd rfl hv
    | bool _ | number _ | string _ | array _ | object _ => exact Value.noConfusion
  cases part with
  | none => exact ⟨_, hnone, rfl, Value.noConfusion⟩
  | some v =>
      by_cases hv : v = .null
      · exact ⟨_, hnone, by rw [hv]; rfl, Value.noConfusion⟩
      · exact ⟨v, h v rfl, paramsOf_of_ne hv, hgiven v hv⟩

/-- Of kept parts the request is writable, doubles apart. -/
theorem writable_of_places {id method params : Option Value} (hid : Kept id) (hparams : Kept params) {r : Request}
    (h : ofPlaces? id method params = some r) (hwhole : r.id.Whole) (hwhole' : r.params.Whole) : r.Writable := by
  have hboth : r.id = (id.getD .null).settled ∧ r.params = paramsOf params := by
    unfold ofPlaces? at h
    split at h
    · exact Option.some.inj h ▸ ⟨rfl, rfl⟩
    · exact Option.some.inj h ▸ ⟨rfl, rfl⟩
    · simp at h
  obtain ⟨hid', hparams'⟩ := hboth
  have hwithin : (id.getD .null).Within innerDepth := by
    cases id with
    | none => exact .null
    | some v => exact hid v rfl
  obtain ⟨v, hv, hsettled, hnull⟩ := paramsOf_kept hparams
  rw [hsettled] at hparams'
  rw [hid'] at hwhole
  rw [hparams'] at hwhole'
  obtain ⟨hplain, hdepth⟩ := hwithin.plain_settled hwhole
  obtain ⟨hplain', hdepth'⟩ := hv.plain_settled hwhole'
  exact ⟨hid' ▸ hplain, hid' ▸ hdepth, hparams' ▸ hplain', hparams' ▸ hdepth', hparams' ▸ hnull⟩

theorem kept_of_sole? {key : String} {fields : List (String × Value)} {part : Option Value}
    (hfields : ∀ f ∈ fields, f.2.Within innerDepth) (h : sole? key fields = some part) : Kept part := by
  rw [sole?] at h
  split at h
  · exact Option.some.inj h ▸ kept_none
  · rename_i f hfound
    have hf : f ∈ fields := List.mem_of_mem_filter (hfound ▸ List.mem_singleton_self f)
    exact Option.some.inj h ▸ kept_some (hfields f hf)
  · simp at h

theorem within_keptFields {read : List (String × Option Value)} (h : ∀ f ∈ read, Kept f.2) :
    ∀ f ∈ keptFields read, f.2.Within innerDepth := by
  intro f hf
  obtain ⟨g, hg, hkept⟩ := List.mem_filterMap.mp hf
  obtain ⟨v, hv, rfl⟩ := Option.map_eq_some_iff.mp hkept
  exact h g hg v hv

theorem gives_fieldReader (key : String) : (fieldReader key).Gives Kept := by
  rw [fieldReader]
  split
  · exact (gives_keep innerDepth).map fun v hv => kept_some hv
  · exact Gives.map (P := fun _ => True) (fun _ _ _ _ => trivial) fun _ _ => kept_none

theorem kept_of_items {items : List Value} (hitems : ∀ v ∈ items, v.Within innerDepth) {r : Request}
    (h : ofItems? items = some r) :
    ∃ id method params, ofPlaces? id method params = some r ∧ Kept id ∧ Kept params := by
  match items, hitems, h with
  | [], _, h => exact ⟨none, none, none, h, kept_none, kept_none⟩
  | [id], hitems, h => exact ⟨some id, none, none, h, kept_some (hitems id (by simp)), kept_none⟩
  | [id, method], hitems, h => exact ⟨some id, some method, none, h, kept_some (hitems id (by simp)), kept_none⟩
  | [id, method, params], hitems, h =>
      exact ⟨some id, some method, some params, h, kept_some (hitems id (by simp)),
        kept_some (hitems params (by simp))⟩

theorem read_of_atEnd {α : Type} {read : Option (α × Bytes)} {a : α} (h : atEnd read = some a) :
    ∃ rest, read = some (a, rest) := by
  unfold atEnd at h
  split at h
  · rename_i b rest
    split at h
    · exact ⟨rest, by rw [Option.some.inj h]⟩
    · simp at h
  · simp at h

/-- **A request that was read is writable**, doubles apart. -/
theorem writable_of_read? {s : Bytes} {r : Request} (h : read? s = some r) (hwhole : r.id.Whole)
    (hwhole' : r.params.Whole) : r.Writable := by
  rw [read?] at h
  split at h
  · simp at h
  · split at h
    · -- an object
      obtain ⟨read, hend, hfields⟩ := Option.bind_eq_some_iff.mp h
      obtain ⟨rest, hbody⟩ := read_of_atEnd hend
      have hkept := within_keptFields (Gives.objectBody gives_fieldReader hbody)
      simp only [ofFields?, Option.bind_eq_bind, Option.bind_eq_some_iff] at hfields
      obtain ⟨id, hid, method, -, params, hparams, hplaces⟩ := hfields
      exact writable_of_places (kept_of_sole? hkept hid) (kept_of_sole? hkept hparams) hplaces hwhole hwhole'
    · split at h
      · -- an array
        obtain ⟨items, hend, hitems⟩ := Option.bind_eq_some_iff.mp h
        obtain ⟨rest, hbody⟩ := read_of_atEnd hend
        obtain ⟨id, method, params, hplaces, hid, hparams⟩ :=
          kept_of_items ((gives_keep innerDepth).arrayBody hbody) hitems
        exact writable_of_places hid hparams hplaces hwhole hwhole'
      · simp at h

end Request

theorem Decodes.writable {line : Bytes} {r : Request} (h : Decodes line r) (hid : r.id.Whole)
    (hparams : r.params.Whole) : r.Writable := by
  rw [Decodes, readLine] at h
  split at h
  · simp at h
  · split at h
    · rename_i hread
      simp only [Option.some.injEq, Inbound.message.injEq] at h
      exact Request.writable_of_read? (h ▸ hread) hid hparams
    · simp at h

/-! ## On the wire -/

/-- A stream that ends with a line has said all it means, however it was cut. -/
theorem Framer.drain_ended {α : Type} {limit : Nat} (read : Bytes → Option α) {acts : List Act} {stream : Bytes}
    (hall : arriving acts = stream ++ [lineFeed]) :
    (fresh.run limit read acts).1 ++ (drain limit read (fresh.run limit read acts).2).1
        = items limit read (stream ++ [lineFeed])
      ∧ (drain limit read (fresh.run limit read acts).2).2.buffer = [] := by
  obtain ⟨hrun, howed⟩ := run_honest read acts (sound_fresh limit)
  obtain ⟨-, hdry, hrest⟩ := drain_honest read hrun
  have hheld : (drain limit read (fresh.run limit read acts).2).2.buffer <:+ stream ++ [lineFeed] := by
    rw [← hall]
    exact (buffer_drain limit read _).trans (buffer_run limit read acts fresh)
  have hbuffer : (drain limit read (fresh.run limit read acts).2).2.buffer = [] := by
    rcases List.suffix_concat_iff.mp hheld with h | ⟨t, h, -⟩
    · exact h
    · exact absurd (h ▸ List.mem_append_right t List.mem_cons_self) hdry.unended
  have hlast : owed limit read _ [] = _ := owed_of_dry hdry
  rw [hbuffer, List.isEmpty_nil, Bool.or_true, if_pos rfl] at hlast
  have hstream := howed []
  rw [List.append_nil, owed_fresh, hall, hrest [], hlast, List.append_nil] at hstream
  exact ⟨hstream.symm, hbuffer⟩

/--
**A request is written in one way.**

Whatever line was taken for a request, if there is no double in its id and its parameters, what is written for the
request is taken for the same request, and for no other. So it arrives as that request in whatever pieces it is sent,
if the limit has room for it, with nothing left behind it, and what arrived is written byte for byte as it was sent.
-/
theorem reencoding_canonical {line : Bytes} {r : Request} (h : Decodes line r) (hid : r.id.Whole)
    (hparams : r.params.Whole) :
    Decodes r.toJson.bytes r
      ∧ (∀ r', Decodes r.toJson.bytes r' → r' = r ∧ lineBytes r'.toJson = lineBytes r.toJson)
      ∧ ∀ limit acts, r.toJson.bytes.length ≤ limit → Framer.arriving acts = lineBytes r.toJson →
          (Framer.fresh.run limit Request.read? acts).1
              ++ (Framer.drain limit Request.read? (Framer.fresh.run limit Request.read? acts).2).1 = [.message r]
            ∧ (Framer.drain limit Request.read? (Framer.fresh.run limit Request.read? acts).2).2.buffer = [] := by
  have hdecodes := (h.writable hid hparams).decodes
  refine ⟨hdecodes, fun r' h' => ?_, fun limit acts hfits hall => ?_⟩
  · have hsame : r' = r := by simpa [Decodes] using h'.symm.trans hdecodes
    exact ⟨hsame, by rw [hsame]⟩
  · have hitems : items limit Request.read? (r.toJson.bytes ++ [lineFeed]) = [.message r] :=
      items_line (not_mem_bytes r.toJson) hfits hdecodes []
    rw [lineBytes_eq] at hall
    rw [← hitems]
    exact Framer.drain_ended Request.read? hall

/-- An id that is an object with one key twice. -/
def doubledId : Field :=
  ⟨"id", .object [("a", .number (.whole 1)), ("a", .number (.whole 2))],
    Utf8.encode (quoted "id".toList ++ [':'])
      ++ (Value.object [("a", .number (.whole 1)), ("a", .number (.whole 2))]).bytes⟩

theorem doubledId_stands : doubledId.Stands := by
  have hvalue : (keep innerDepth).Reads (.object [("a", .number (.whole 1)), ("a", .number (.whole 2))]) := by
    refine fun rest _ => object_written (fun f hf => ?_) rest
    simp only [List.mem_cons, List.not_mem_nil, or_false] at hf
    rcases hf with rfl | rfl
    · exact keep_written (.number (by decide) (by decide)) (Nat.zero_le _)
    · exact keep_written (.number (by decide) (by decide)) (Nat.zero_le _)
  exact Field.stands_of_spells rfl (key?_written "id") hvalue.spells fun _ => rfl

/-- What a line with that id comes to, if it has null for parameters and no method. -/
def settledId : Request := ⟨.object [("a", .number (.whole 2))], "", .array []⟩

theorem reencoding_canonical_doubled_id :
    Decodes (objectLine [.written "params" .null, .written "jsonrpc" (.string "2.0"), doubledId]) settledId
      ∧ Decodes settledId.toJson.bytes settledId
      ∧ (Framer.fresh.run 38 Request.read? [.feed (lineBytes settledId.toJson)]).1
          ++ (Framer.drain 38 Request.read?
            (Framer.fresh.run 38 Request.read? [.feed (lineBytes settledId.toJson)]).2).1 = [.message settledId] := by
  have hstands : ∀ f ∈ [.written "params" .null, .written "jsonrpc" (.string "2.0"), doubledId], f.Stands := by
    intro f hf
    simp only [List.mem_cons, List.not_mem_nil, or_false] at hf
    rcases hf with rfl | rfl | rfl
    · exact Field.written_stands _ .null fun _ => Nat.zero_le _
    · exact Field.written_stands _ (.string _) fun _ => Nat.zero_le _
    · exact doubledId_stands
  have hline := ((decodes_objectLine hstands).1 settledId).mpr rfl
  have hid : settledId.id.Whole := .object fun f hf => List.mem_singleton.mp hf ▸ .number 2
  have hparams : settledId.params.Whole := .array fun _ hv => absurd hv List.not_mem_nil
  obtain ⟨hagain, -, hframed⟩ := reencoding_canonical hline hid hparams
  exact ⟨hline, hagain, (hframed 38 [.feed (lineBytes settledId.toJson)] (by decide +kernel) (List.append_nil _)).1⟩

end MiningPool.Wire

import MiningPool.Proofs.Json.Values
import MiningPool.Proofs.Wire.Framing
import MiningPool.Wire.Reading

/-!
# Messages that were written are read back

Messages that follow one another on the wire come out as the same messages, however the bytes are cut. Each is one
line, the line is the text of one value, and the value is an object that says by its fields which of the two kinds of
message it is: only a response has a result, so none is taken for the other kind.
-/

namespace MiningPool.Wire

open Decimal Json

/-! ## One message -/

/-- A message as it is built: a response with a result, a response with an error of a code and a text, or a
notification. The values in it are plain, and the code fits 64 bits. -/
inductive Message.Built : Message → Prop where
  | result {id result : Value} (hid : id.Plain) (hresult : result.Plain) : Built (.response (.ofResult id result))
  | error {id : Value} {code : Int} (hid : id.Plain) (hlow : -(twoTo 63 : Int) ≤ code) (hhigh : code < twoTo 63)
      (text : String) : Built (.response (.ofError id (.plain code text)))
  | notification (method : String) {params : List Value} (hparams : ∀ v ∈ params, v.Plain) :
      Built (.notification (.of method params))

theorem plain_fields {k₁ k₂ k₃ : String} (hkeys : [k₁, k₂, k₃].Nodup) {v₁ v₂ v₃ : Value} (h₁ : v₁.Plain)
    (h₂ : v₂.Plain) (h₃ : v₃.Plain) : (Value.object [(k₁, v₁), (k₂, v₂), (k₃, v₃)]).Plain := by
  refine .object hkeys fun f hf => ?_
  simp only [List.mem_cons, List.not_mem_nil, or_false] at hf
  rcases hf with rfl | rfl | rfl
  · exact h₁
  · exact h₂
  · exact h₃

theorem plain_triple {code : Int} (hlow : -(twoTo 63 : Int) ≤ code) (hhigh : code < twoTo 63) (text : String) :
    (ErrorTriple.plain code text).toJson.Plain := by
  have hcode : code < twoTo 64 := Int.lt_trans hhigh (by decide)
  refine .array fun v hv => ?_
  simp only [List.mem_cons, List.not_mem_nil, or_false] at hv
  rcases hv with rfl | rfl | rfl
  · exact .number hlow hcode
  · exact .string text
  · exact .null

/-- What is written for a message that was built is plain. -/
theorem Message.Built.plain {m : Message} (h : m.Built) : m.toJson.Plain := by
  cases h with
  | result hid hresult => exact plain_fields (by decide) hid hresult .null
  | error hid hlow hhigh text => exact plain_fields (by decide) hid .null (plain_triple hlow hhigh text)
  | notification method hparams => exact plain_fields (by decide) .null (.string method) (.array hparams)

/-- **The value of a message that was built gives that message**, of the same kind and with its nulls. -/
theorem Message.Built.ofValue?_toJson {m : Message} (h : m.Built) : ofValue? m.toJson = some m := by
  cases h with
  | @result id result hid hresult =>
      have hread : Response.ofValue? (Response.ofResult id result).toJson
          = some ⟨id.settled, result.settled, none⟩ := rfl
      rw [Message.toJson, ofValue?, hread, hid.settled, hresult.settled]
      rfl
  | @error id code hid hlow hhigh text =>
      have hcode : -(twoTo 63 : Int) ≤ code ∧ code < twoTo 63 := ⟨hlow, hhigh⟩
      have herror : ErrorTriple.ofValue? (ErrorTriple.plain code text).toJson = some (.plain code text) := if_pos hcode
      have hread : Response.ofValue? (Response.ofError id (.plain code text)).toJson
          = ((ErrorTriple.ofValue? (ErrorTriple.plain code text).toJson).map some).bind fun e =>
            some ⟨id.settled, .null, e⟩ := rfl
      rw [Message.toJson, ofValue?, hread, herror, hid.settled]
      rfl
  | @notification method params hparams =>
      have hother : Response.ofValue? (Notification.of method params).toJson = none := rfl
      have hread : Notification.ofValue? (Notification.of method params).toJson
          = some ⟨.null, method, Value.settledItems params⟩ := rfl
      rw [Message.toJson, ofValue?, hother, hread, Value.settledItems_of_forall fun v hv => (hparams v hv).settled]
      rfl

/-- The text of a message fills its line, from one brace to the other. -/
theorem Message.braces (m : Message) : ∃ middle, m.toJson.bytes = 0x7B :: (middle ++ [0x7D]) := by
  have hobject : ∀ k v fs, ∃ middle, (Value.object ((k, v) :: fs)).bytes = 0x7B :: (middle ++ [0x7D]) := by
    intro k v fs
    rw [Value.bytes, Value.chars, Utf8.encode_append]
    exact ⟨_, rfl⟩
  cases m with
  | response r => exact hobject _ _ _
  | notification n => exact hobject _ _ _

/-- Nothing is taken off a line with brackets at both ends. -/
theorem trim_between {a b : UInt8} (ha : isSpace a = false) (hb : isSpace b = false) (middle : Bytes) :
    trim (a :: (middle ++ [b])) = a :: (middle ++ [b]) := by
  have hback : (a :: (middle ++ [b])).reverse = b :: (middle.reverse ++ [a]) := by
    rw [List.reverse_cons, List.reverse_append, List.reverse_singleton, List.singleton_append, List.cons_append]
  rw [trim, List.dropWhile_cons_of_neg (by rw [ha]; decide), hback,
    List.dropWhile_cons_of_neg (by rw [hb]; decide), ← hback, List.reverse_reverse]

/-- The line of a message is read as that message. -/
theorem Message.Built.readLine {m : Message} (h : m.Built) (hdepth : m.toJson.depth ≤ maxDepth) :
    readLine read? m.toJson.bytes = some (.message m) := by
  have hread : read? m.toJson.bytes = some m := by
    rw [read?, Value.read?_bytes h.plain hdepth, Option.bind_some, h.ofValue?_toJson]
  obtain ⟨middle, hbytes⟩ := m.braces
  have htrim : trim (0x7B :: (middle ++ [0x7D])) = 0x7B :: (middle ++ [0x7D]) :=
    trim_between (by decide) (by decide) middle
  rw [hbytes] at hread ⊢
  simp only [Wire.readLine, htrim, List.isEmpty_cons, Bool.false_eq_true, if_false, hread]

/-! ## A stream of messages -/

theorem lineBytes_eq (v : Value) : lineBytes v = v.bytes ++ [lineFeed] := by
  rw [lineBytes, lineChars, Utf8.encode_append]
  rfl

theorem Message.bytes_eq (m : Message) : m.bytes = m.toJson.bytes ++ [lineFeed] := lineBytes_eq m.toJson

theorem not_mem_bytes (v : Value) : lineFeed ∉ v.bytes := by
  intro hfeed
  have hlow : 0x20 ≤ lineFeed.toNat := Utf8.le_of_mem_encode v.printable_chars hfeed
  exact absurd hlow (by decide)

/-- A line at the front of a stream is the first thing the stream means. -/
theorem items_line {α : Type} {limit : Nat} {read : Bytes → Option α} {text : Bytes} {item : Inbound α}
    (hfeed : lineFeed ∉ text) (hfits : text.length ≤ limit) (hread : Wire.readLine read text = some item)
    (stream : Bytes) :
    items limit read (text ++ lineFeed :: stream) = item :: items limit read stream := by
  have hline : readSegment limit read text = some item := by
    rw [readSegment, if_neg (Nat.not_lt.mpr hfits), hread]
  rw [items, segments_line hfeed, List.filterMap_cons_some hline]
  rfl

/-- A message at the front of a stream is the first thing the stream means. -/
theorem Message.Built.items_cons {m : Message} (h : m.Built) {limit : Nat} (hdepth : m.toJson.depth ≤ maxDepth)
    (hfits : m.toJson.bytes.length ≤ limit) (stream : Bytes) :
    items limit read? (m.bytes ++ stream) = .message m :: items limit read? stream := by
  rw [m.bytes_eq, List.append_assoc]
  exact items_line (not_mem_bytes m.toJson) hfits (h.readLine hdepth) stream

/-- What messages that were built mean as a stream. -/
theorem items_messages {limit : Nat} {ms : List Message} (hbuilt : ∀ m ∈ ms, m.Built)
    (hdepth : ∀ m ∈ ms, m.toJson.depth ≤ maxDepth) (hfits : ∀ m ∈ ms, m.toJson.bytes.length ≤ limit) :
    items limit Message.read? (ms.flatMap Message.bytes) = ms.map .message := by
  induction ms with
  | nil => rfl
  | cons m ms ih =>
      rw [List.flatMap_cons, (hbuilt m List.mem_cons_self).items_cons (hdepth m List.mem_cons_self)
        (hfits m List.mem_cons_self), List.map_cons]
      rw [ih (fun n hn => hbuilt n (List.mem_cons_of_mem m hn)) (fun n hn => hdepth n (List.mem_cons_of_mem m hn))
        fun n hn => hfits n (List.mem_cons_of_mem m hn)]

namespace Framer

variable {α : Type} {limit : Nat} {read : Bytes → Option α} {f : Framer}

/-- Asking for items until there is none gives those owed, and leaves only what cannot be told yet. -/
theorem drain_honest (read : Bytes → Option α) (h : f.Sound limit) :
    (drain limit read f).2.Sound limit ∧ (drain limit read f).2.Dry limit
      ∧ ∀ rest, owed limit read f rest
          = (drain limit read f).1 ++ owed limit read (drain limit read f).2 rest := by
  fun_induction drain limit read f with
  | case1 f g hn =>
      obtain ⟨hsound, howed, hdry⟩ := next_honest read h
      rw [hn] at hsound howed hdry
      exact ⟨hsound, hdry rfl, howed⟩
  | case2 f item g hn more ih =>
      obtain ⟨hsound, howed, _⟩ := next_honest read h
      rw [hn] at hsound howed
      obtain ⟨h₁, h₂, h₃⟩ := ih hsound
      refine ⟨h₁, h₂, fun rest => ?_⟩
      rw [howed, h₃]
      rfl

theorem buffer_drain (limit : Nat) (read : Bytes → Option α) (f : Framer) :
    (drain limit read f).2.buffer <:+ f.buffer := by
  fun_induction drain limit read f with
  | case1 f g hn =>
      have hnext := buffer_next limit read f
      rw [hn] at hnext
      exact hnext
  | case2 f item g hn more ih =>
      have hnext := buffer_next limit read f
      rw [hn] at hnext
      exact ih.trans hnext

/-- What a framer holds is the end of what it held and of what arrived. -/
theorem buffer_run (limit : Nat) (read : Bytes → Option α) (acts : List Act) (f : Framer) :
    (f.run limit read acts).2.buffer <:+ f.buffer ++ arriving acts := by
  induction acts generalizing f with
  | nil =>
      rw [arriving, List.flatMap_nil, List.append_nil]
      exact List.suffix_refl _
  | cons a acts ih =>
      have hact : (f.act limit read a).2.buffer <:+ f.buffer ++ arriving [a] := by
        cases a with
        | feed chunk => simp [act, feed, arriving]
        | next => simpa [act, arriving] using buffer_next limit read f
      rw [arriving_cons, ← List.append_assoc]
      refine (ih (f.act limit read a).2).trans ?_
      obtain ⟨gone, hgone⟩ := hact
      exact ⟨gone, by rw [← hgone, List.append_assoc]⟩

end Framer

/-- What is left of a stream of messages holds their last line feed, if anything is left. -/
theorem eq_nil_of_suffix {ms : List Message} {rest : Bytes} (h : rest <:+ ms.flatMap Message.bytes)
    (hfeed : lineFeed ∉ rest) : rest = [] := by
  rcases List.eq_nil_or_concat ms with rfl | ⟨ms, m, rfl⟩
  · exact List.eq_nil_of_suffix_nil h
  · rw [List.concat_eq_append, List.flatMap_append, List.flatMap_singleton, m.bytes_eq, ← List.append_assoc,
      List.suffix_concat_iff] at h
    rcases h with rfl | ⟨t, rfl, -⟩
    · rfl
    · exact absurd (List.mem_append_right t List.mem_cons_self) hfeed

/--
**Messages survive the wire.**

Any messages that were built, written one behind the other, come out as they were, in order, each of the same kind:
whatever pieces their bytes arrive in and whenever items are asked for in between, once the last piece is there
asking until there is none has given all of them. Nothing is held after that, and the end of the stream adds nothing.
The limit has to leave room for each line, and no line may nest deeper than a reader goes.
-/
theorem messages_read_back {limit : Nat} {ms : List Message} {acts : List Framer.Act}
    (hbuilt : ∀ m ∈ ms, m.Built) (hdepth : ∀ m ∈ ms, m.toJson.depth ≤ maxDepth)
    (hfits : ∀ m ∈ ms, m.toJson.bytes.length ≤ limit)
    (hall : Framer.arriving acts = ms.flatMap Message.bytes) :
    (Framer.fresh.run limit Message.read? acts).1
        ++ (Framer.drain limit Message.read? (Framer.fresh.run limit Message.read? acts).2).1
          = ms.map .message
      ∧ (Framer.drain limit Message.read? (Framer.fresh.run limit Message.read? acts).2).2.buffer = []
      ∧ Framer.nextAtEnd limit Message.read?
          (Framer.drain limit Message.read? (Framer.fresh.run limit Message.read? acts).2).2
            = (none, Framer.fresh) := by
  obtain ⟨hrun, howed⟩ := Framer.run_honest Message.read? acts (Framer.sound_fresh limit)
  obtain ⟨hdrain, hdry, hrest⟩ := Framer.drain_honest Message.read? hrun
  have hheld : (Framer.drain limit Message.read? (Framer.fresh.run limit Message.read? acts).2).2.buffer
      <:+ ms.flatMap Message.bytes := by
    rw [← hall]
    exact (Framer.buffer_drain limit Message.read? _).trans (Framer.buffer_run limit Message.read? acts Framer.fresh)
  have hbuffer := eq_nil_of_suffix hheld hdry.unended
  have hlast : Framer.owed limit Message.read? _ [] = _ := Framer.owed_of_dry hdry
  rw [hbuffer, List.isEmpty_nil, Bool.or_true, if_pos rfl] at hlast
  refine ⟨?_, hbuffer, ?_⟩
  · have hstream := howed []
    rw [List.append_nil, Framer.owed_fresh, hall, items_messages hbuilt hdepth hfits, hrest [], hlast,
      List.append_nil] at hstream
    exact hstream.symm
  · obtain ⟨-, hend, hfresh⟩ := Framer.nextAtEnd_honest Message.read? hdrain
    have hnone := List.append_eq_nil_iff.mp (hend.symm.trans hlast)
    rw [Option.toList_eq_nil_iff] at hnone
    exact Prod.ext hnone.1 (hfresh hnone.1)

/-- One message of each kind, with nulls, an escaped text and numbers at both ends of the range. -/
def oneOfEach : List Message :=
  [.response (.ofResult .null .null),
    .response (.ofError (.number (.whole (-9223372036854775808))) (.plain (-1) "\"\n")),
    .notification (.of "mining.notify" [.array [.number (.whole 18446744073709551615)], .object [("é", .bool true)]])]

theorem messages_read_back_one_of_each :
    (Framer.fresh.run 100 Message.read? [.feed ((oneOfEach.flatMap Message.bytes).take 50), .next,
        .feed ((oneOfEach.flatMap Message.bytes).drop 50)]).1
      ++ (Framer.drain 100 Message.read? (Framer.fresh.run 100 Message.read?
          [.feed ((oneOfEach.flatMap Message.bytes).take 50), .next,
            .feed ((oneOfEach.flatMap Message.bytes).drop 50)]).2).1
        = oneOfEach.map .message := by
  refine (messages_read_back ?_ (by decide) (by decide +kernel) ?_).1
  · intro m hm
    simp only [oneOfEach, List.mem_cons, List.not_mem_nil, or_false] at hm
    rcases hm with rfl | rfl | rfl
    · exact .result .null .null
    · exact .error (.number (by decide) (by decide)) (by decide) (by decide) _
    · refine .notification _ fun v hv => ?_
      simp only [List.mem_cons, List.not_mem_nil, or_false] at hv
      rcases hv with rfl | rfl
      · exact .array fun w hw => List.mem_singleton.mp hw ▸ .number (by decide) (by decide)
      · exact .object (by decide) fun f hf => List.mem_singleton.mp hf ▸ .bool true
  · simp only [Framer.arriving, List.flatMap_cons, List.flatMap_nil, List.append_nil, List.nil_append,
      List.take_append_drop]

end MiningPool.Wire

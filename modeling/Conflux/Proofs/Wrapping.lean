import Conflux.Proofs.Json.Exact
import Conflux.Proofs.Post

/-!
An envelope that is wrapped comes out as it went in. The document inside the message is a
record of texts, with the records of the bundle at its end; for each field it is known what its
reader makes of what was written, and the rest is said once for any record. What a producer has
to see to is that the records can be read back: whole numbers of 64 bits, and nothing nested
deeper than the reader goes.
-/

namespace Conflux

namespace Envelope

open Json (WrittenField)

variable {e : Envelope}

def raw (e : Envelope) : EnvelopeOf String :=
  { specVersion := e.specVersion, bundleType := e.bundleType, source := e.source, id := e.id
    time := e.time, version := e.version.text
    dependencyVersion := e.dependencyVersion.map Version.text, data := e.data }

def written (e : Envelope) : List (WrittenField (Field String)) :=
  [⟨"specversion", .string e.specVersion, .text e.specVersion⟩,
    ⟨"type", .string e.bundleType, .text e.bundleType⟩,
    ⟨"source", .string e.source, .text e.source⟩, ⟨"id", .string e.id, .text e.id⟩,
    ⟨"time", .string e.time.text, .time e.time⟩,
    ⟨"version", .string e.version.text, .version e.version.text⟩] ++
  (e.dependencyVersion.map fun v =>
    ⟨"dependencyversion", .string v.text, .dependency (some v.text)⟩).toList ++
  [⟨"data", .array e.data, .data e.data⟩]

theorem toJson_eq_written (e : Envelope) : e.toJson = .object (e.written.map (·.member)) := by
  rw [toJson, written]
  cases e.dependencyVersion <;> rfl

/-! ### Fields -/

theorem readBy_text {name t : String} {x : Field String} (hdependency : name ≠ "dependencyversion")
    (hdata : name ≠ "data") (hmeaning : textMeaning? name t = some x) :
    WrittenField.ReadBy ⟨name, .string t, x⟩ (field some) := by
  intro rest _
  change field some name (Json.quote t ++ rest) = some (x, rest)
  rw [field_text hdependency hdata, hmeaning]
  rfl

theorem readBy_dependency (t : String) :
    WrittenField.ReadBy ⟨"dependencyversion", .string t, .dependency (some t)⟩ (field some) := by
  intro rest _
  have hstring : Json.string? (Json.quote t ++ rest) = some (t, rest) :=
    Json.string?_of_quote (Json.skipBlank_quote t rest)
  have hnullable : Json.nullable? (meaning? some) (Json.quote t ++ rest) = some (some t, rest) := by
    rw [Json.quote_append] at hstring ⊢
    rw [Json.nullable?, Json.skipBlank_cons (b := 0x22) rfl]
    change (meaning? some _).map _ = _
    simp [meaning?, hstring]
  change field some "dependencyversion" (Json.quote t ++ rest) = some (.dependency (some t), rest)
  simp [field, hnullable]

theorem readBy_data {items : List Json}
    (hitems : ∀ j ∈ items, j.isExact = true ∧ j.depth ≤ recordRoom) :
    WrittenField.ReadBy ⟨"data", .array items, .data items⟩ (field some) := by
  intro rest _
  change field some "data" ((Json.array items).compact ++ rest) = some (.data items, rest)
  simp [field, Json.values?_compact hitems]

theorem readBy_of_mem_written (htime : Time.parse? e.time.text = some e.time)
    (hdata : ∀ j ∈ e.data, j.isExact = true ∧ j.depth ≤ recordRoom) :
    ∀ f ∈ e.written, f.ReadBy (field some) := by
  intro f hf
  rw [written, List.mem_append, List.mem_append] at hf
  rcases hf with (hf | hf) | hf
  · simp only [List.mem_cons, List.not_mem_nil, or_false] at hf
    rcases hf with rfl | rfl | rfl | rfl | rfl | rfl <;>
      exact readBy_text (by decide) (by decide) (by simp [textMeaning?, htime])
  · obtain ⟨v, _, rfl⟩ : ∃ v, e.dependencyVersion = some v ∧
        ⟨"dependencyversion", .string v.text, .dependency (some v.text)⟩ = f := by
      simpa using hf
    exact readBy_dependency v.text
  · rw [List.mem_singleton.1 hf]
    exact readBy_data hdata

theorem ofFields?_written (e : Envelope) :
    ofFields? (e.written.map fun f => (f.name, f.meaning)) = some e.raw := by
  have hdistinct :
      Json.distinctNames (e.written.map fun f => (f.name, f.meaning)) = true := by
    rw [written]
    cases e.dependencyVersion <;> simp [Json.distinctNames]
  rw [ofFields?, (Option.guard_eq_some' ()).2 hdistinct, written, raw]
  cases e.dependencyVersion <;> rfl

theorem parseVersions_raw (e : Envelope) : parseVersions e.raw = .ok e := by
  obtain ⟨specVersion, bundleType, source, id, time, version, dependencyVersion, data⟩ := e
  rw [parseVersions, raw, Version.parse_text]
  cases dependencyVersion with
  | none => rfl
  | some v =>
      simp only [Option.map_some, Version.parse_text]
      rfl

/-! ### The document -/

/-- A document is read back as it was written, if its time and its records can be. -/
theorem decode_encode_eq (htime : Time.parse? e.time.text = some e.time)
    (hdata : ∀ j ∈ e.data, j.isExact = true ∧ j.depth ≤ recordRoom) :
    decode e.encode = .ok e := by
  have hnames : ∀ f ∈ e.written, f.name ∈ fieldNames := by
    rw [written]
    cases e.dependencyVersion <;> simp [fieldNames]
  have hrecord := Json.record?_fields e.written (List.cons_ne_nil _ _) hnames
    (readBy_of_mem_written htime hdata) []
  rw [List.append_nil, ← toJson_eq_written] at hrecord
  have hscan : scan? some e.encode = some (e.raw, []) := by
    rw [scan?, encode, hrecord]
    simp only [Option.bind_eq_bind, Option.bind_some, ofFields?_written]
  rw [decode, readWith?, Json.whole?, hscan]
  change (parseVersions e.raw).mapError DecodeError.version = .ok e
  rw [parseVersions_raw]
  rfl

end Envelope

/-- Whatever an envelope has in it, the message that is made of it can be written and read back,
and opens to that same envelope; the message names its source, and a hub that receives it finds
the envelope in it. The texts may be any, but the source must have a name; the time must be one
that can be told; and the records must be exact and nested at most 125 levels deep. -/
theorem Message.wrapping_survives (e : Envelope) (destination : String) (hsource : e.source ≠ "")
    (htime : Time.parse? e.time.text = some e.time)
    (hdata : ∀ j ∈ e.data, j.isExact = true ∧ j.depth ≤ 125) :
    let m := ofEnvelope e destination
    decode? m.encode = some m ∧ m.open? = .ok e ∧ m.source? = some e.source ∧
      Pipeline.bundle? m = some e := by
  intro m
  have hopen : m.open? = .ok e :=
    open?_eq_ok_iff.2 ⟨Version.parse_text e.version, Envelope.decode_encode_eq htime hdata, rfl⟩
  have hnamed : m.source? = some e.source := source?_eq_some_iff.2 ⟨hsource, rfl⟩
  exact ⟨m.decode?_encode, hopen, hnamed, Pipeline.bundle?_eq_some_iff.2 ⟨hopen, hnamed⟩⟩

/-- The source has points in it, the type is empty, and the identifier has a quote and a control
character. There are a dependency, numbers at both ends of the range, and a record that is nested
as deep as can be. -/
theorem Message.wrapping_survives_odd_texts :
    let deep : Json := Nat.repeat (fun j => .array [j]) 125 .null
    let record : Json := .object [("cluster", .string "c.1"),
      ("counts", .array [.int (-0x8000000000000000), .int 0xffffffffffffffff])]
    let e : Envelope :=
      { specVersion := "1.0", bundleType := "", source := "hub.1.", id := "\"\u0001"
        time := ⟨20000, 3661, 500000000⟩, version := ⟨1, 2⟩, dependencyVersion := some ⟨0, 7⟩
        data := [record, deep] }
    let m := ofEnvelope e "central"
    e.source ≠ "" ∧ Time.parse? e.time.text = some e.time ∧
      (∀ j ∈ e.data, j.isExact = true ∧ j.depth ≤ 125) ∧
      decode? m.encode = some m ∧ m.open? = .ok e ∧ m.source? = some "hub.1." ∧
        Pipeline.bundle? m = some e := by
  intro deep record e m
  have hsource : e.source ≠ "" := by decide +kernel
  have htime : Time.parse? e.time.text = some e.time := by decide +kernel
  have hdata : ∀ j ∈ e.data, j.isExact = true ∧ j.depth ≤ 125 := by decide +kernel
  exact ⟨hsource, htime, hdata, wrapping_survives e "central" hsource htime hdata⟩

end Conflux
